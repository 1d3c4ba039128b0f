import ShellXv6.Xv6.LogOps

/-!
# The log keeps the last committed state on the disk

The specification of the log is a pair of disks: what the running operations have
stored so far, and what was last committed.  The cache shows the first, and the disk
means the second, in every phase of a commit.
-/

namespace ShellXv6.Xv6.Log

open CrashDisk

/-- What the operations have stored, and what they have committed. -/
structure Spec where
  pending : ℕ → Block
  committed : ℕ → Block

def Spec.apply (sp : Spec) : Event → Spec
  | .stored b v => { sp with pending := Function.update sp.pending b v }
  | .committed => { sp with committed := sp.pending }
  | .began => sp
  | .ended => sp
  | .syncBegan => sp
  | .synced => sp

def specOf (d : ℕ → Block) (es : List Event) : Spec := es.foldl Spec.apply ⟨d, d⟩

/-- How far a commit is: it copies to the log, then it installs from there. -/
inductive Phase
  | idle
  | copying (tail : ℕ)
  | installing (tail : ℕ)
  | done

/-- The listed blocks that are pinned in the cache. -/
def Phase.todo (lh : List ℕ) : Phase → List ℕ
  | .idle => lh
  | .copying _ => lh
  | .installing tail => lh.drop tail
  | .done => lh

/-- The cache shows what was stored; a buffer that differs from the disk is pinned or locked. -/
structure CacheInv (start : ℕ) (f : Fs) (sp : Spec) (todo : List ℕ) : Prop where
  view : ∀ b, ¬ InLog start b → f.view b = sp.pending b
  clean : ∀ b, ¬ InLog start b → b ∉ todo → f.locked b = false → ∀ v ∈ f.cache b, v = f.disk b
  refs : ∀ b, f.refcnt b = todo.count b + (f.locked b).toNat

/-- The blocks of the log up to `tail` hold what was stored. -/
def Copied (start : ℕ) (f : Fs) (sp : Spec) (tail : ℕ) : Prop :=
  ∀ k < tail, ∀ b ∈ f.lh[k]?, f.disk (start + k + 1) = sp.pending b

def DiskInv (start : ℕ) (f : Fs) (sp : Spec) : Phase → Prop
  | .idle => readHead (f.disk start) = [] ∧ ∀ b, ¬ InLog start b → f.disk b = sp.committed b
  | .copying tail => readHead (f.disk start) = [] ∧
      (∀ b, ¬ InLog start b → f.disk b = sp.committed b) ∧ Copied start f sp tail
  | .installing tail => readHead (f.disk start) = f.lh ∧
      (∀ b, ¬ InLog start b → sp.committed b = sp.pending b) ∧
      Copied start f sp f.lh.length ∧
      ∀ b, ¬ InLog start b → b ∉ f.lh.drop tail → f.disk b = sp.pending b
  | .done => f.lh = [] ∧ readHead (f.disk start) = [] ∧
      ∀ b, ¬ InLog start b → f.disk b = sp.committed b

structure DataInv (start : ℕ) (f : Fs) (sp : Spec) (ph : Phase) : Prop where
  sound : Sound start f.lh
  cache : CacheInv start f sp (ph.todo f.lh)
  disk : DiskInv start f sp ph

variable {start : ℕ} {f : Fs} {sp : Spec} {b : ℕ} {tail : ℕ}

theorem dataInv_boot {d : Disk} (hclean : readHead (d start) = []) :
    DataInv start (boot d) (specOf d []) .idle where
  sound := sound_nil start
  cache := ⟨fun _ _ => rfl, fun _ _ _ _ _ hv => absurd hv (Option.not_mem_none _), fun _ => rfl⟩
  disk := ⟨hclean, fun _ _ => rfl⟩

/-- The counters of the log do not matter. -/
theorem DataInv.congr {f' : Fs} {ph : Phase} (h : DataInv start f sp ph) (hlh : f'.lh = f.lh)
    (hcache : f'.cache = f.cache) (hrefcnt : f'.refcnt = f.refcnt) (hlocked : f'.locked = f.locked)
    (hdisk : f'.disk = f.disk) : DataInv start f' sp ph := by
  cases f
  cases f'
  subst hlh hcache hrefcnt hlocked hdisk
  refine ⟨h.sound, ⟨h.cache.view, h.cache.clean, h.cache.refs⟩, ?_⟩
  cases ph <;> exact h.disk

/-! ## Operations -/

theorem DataInv.store (h : DataInv start f sp .idle) (hb : f.locked b = false) (v : Block) :
    DataInv start (f.store b v) (sp.apply (.stored b v)) .idle where
  sound := h.sound
  disk := h.disk
  cache := by
    refine ⟨?_, ?_, ?_⟩
    · intro x hx
      by_cases hxb : x = b
      · subst hxb
        simp [Fs.view, Fs.store, Spec.apply]
      · simpa [Fs.view, Fs.store, Spec.apply, hxb] using h.cache.view x hx
    · intro x hx htodo hlocked
      have hxb : x ≠ b := by
        rintro rfl
        simp [Fs.store] at hlocked
      simp only [Fs.store, Function.update_of_ne hxb] at hlocked ⊢
      exact h.cache.clean x hx htodo hlocked
    · intro x
      by_cases hxb : x = b
      · subst hxb
        simp [Fs.store, h.cache.refs, hb, Phase.todo]
      · simp [Fs.store, h.cache.refs, hxb, Phase.todo]

theorem DataInv.log (h : DataInv start f sp .idle) (hb : f.locked b = true)
    (hhome : ¬ InLog start b) (hspace : f.lh.length < LOGBLOCKS) :
    DataInv start (f.log b) sp .idle where
  sound := by
    by_cases hmem : b ∈ f.lh
    · simpa [Fs.log, hmem] using h.sound
    · simp only [Fs.log, hmem, if_false]
      refine ⟨?_, ?_, ?_⟩
      · rw [List.length_append]
        exact hspace
      · rw [List.nodup_append_comm, List.singleton_append, List.nodup_cons]
        exact ⟨hmem, h.sound.nodup⟩
      · intro x hx
        rcases List.mem_append.mp hx with hx | hx
        · exact h.sound.home x hx
        · rwa [List.mem_singleton.mp hx]
  disk := h.disk
  cache := by
    have hmem' : b ∈ (f.log b).lh := by
      by_cases hmem : b ∈ f.lh <;> simp [Fs.log, hmem]
    have hother : ∀ x, x ≠ b → (x ∈ (f.log b).lh ↔ x ∈ f.lh) := by
      intro x hx
      by_cases hmem : b ∈ f.lh <;> simp [Fs.log, hmem, hx]
    refine ⟨h.cache.view, ?_, ?_⟩
    · intro x hx htodo hlocked
      have hxb : x ≠ b := by
        rintro rfl
        exact htodo hmem'
      have hlocked' : f.locked x = false := by
        simpa [Fs.log, hxb] using hlocked
      exact h.cache.clean x hx (mt (hother x hxb).mpr htodo) hlocked'
    · intro x
      have hrefs := h.cache.refs x
      by_cases hxb : x = b
      · subst hxb
        by_cases hmem : x ∈ f.lh
        · simp [Fs.log, hmem, hrefs, hb, Phase.todo]
        · simp [Fs.log, hmem, hrefs, hb, Phase.todo, List.count_eq_zero_of_not_mem hmem]
      · by_cases hmem : b ∈ f.lh
        · simp [Fs.log, hmem, hrefs, hxb, Phase.todo]
        · have hcount : [b].count x = 0 := List.count_eq_zero.mpr (by simpa using hxb)
          simp [Fs.log, hmem, hrefs, hxb, Phase.todo, hcount]

theorem DataInv.evict {ph : Phase} (h : DataInv start f sp ph) (hb : f.refcnt b = 0) :
    DataInv start { f with cache := Function.update f.cache b none } sp ph where
  sound := h.sound
  disk := h.disk
  cache := by
    have hrefs := h.cache.refs b
    rw [hb] at hrefs
    have htodo : b ∉ ph.todo f.lh := List.count_eq_zero.mp (by omega)
    have hlocked : f.locked b = false := by
      cases hl : f.locked b with
      | false => rfl
      | true => simp [hl] at hrefs
    refine ⟨?_, ?_, h.cache.refs⟩
    · intro x hx
      rw [← h.cache.view x hx]
      by_cases hxb : x = b
      · subst hxb
        simp only [Fs.view, Function.update_self, Option.getD_none]
        cases hc : f.cache x with
        | none => rfl
        | some v => exact (h.cache.clean x hx htodo hlocked v hc).symm
      · simp [Fs.view, hxb]
    · intro x hx htodo' hlocked' v hv
      by_cases hxb : x = b
      · subst hxb
        simp at hv
      · simp only [Function.update_of_ne hxb] at hv
        exact h.cache.clean x hx htodo' hlocked' v hv

/-! ## The commit -/

/-- What is neither listed nor locked is on the disk. -/
theorem CacheInv.disk_eq {todo : List ℕ} (h : CacheInv start f sp todo) (hb : ¬ InLog start b)
    (htodo : b ∉ todo) (hlocked : f.locked b = false) : f.disk b = sp.pending b := by
  rw [← h.view b hb, Fs.view]
  cases hc : f.cache b with
  | none => rfl
  | some v => exact (h.clean b hb htodo hlocked v hc).symm

/-- A commit without listed blocks has nothing to write. -/
theorem DataInv.commit_nil (h : DataInv start f sp .idle) (hlh : f.lh = [])
    (hfree : ∀ b, f.locked b = false) : DataInv start f (sp.apply .committed) .done where
  sound := h.sound
  cache := ⟨h.cache.view, h.cache.clean, h.cache.refs⟩
  disk := by
    refine ⟨hlh, h.disk.1, fun b hb => h.cache.disk_eq hb ?_ (hfree b)⟩
    simp [Phase.todo, hlh]

theorem DataInv.end_commit (h : DataInv start f sp .done) : DataInv start f sp .idle where
  sound := h.sound
  cache := h.cache
  disk := h.disk.2

theorem DataInv.copy_start (h : DataInv start f sp .idle) : DataInv start f sp (.copying 0) where
  sound := h.sound
  cache := h.cache
  disk := ⟨h.disk.1, h.disk.2, fun k hk => absurd hk (Nat.not_lt_zero k)⟩

theorem CacheInv.write {todo : List ℕ} {w : Write} (h : CacheInv start f sp todo)
    (hw : ∀ x, ¬ InLog start x → w.exec f.disk x = f.disk x) :
    CacheInv start (f.write w) sp todo := by
  refine ⟨?_, ?_, h.refs⟩
  · intro x hx
    rw [← h.view x hx]
    exact congrArg _ (hw x hx)
  · intro x hx htodo hlocked v hv
    exact (h.clean x hx htodo hlocked v hv).trans (hw x hx).symm

/-- A write inside the log leaves the other blocks as they are. -/
theorem copyWrite_exec_of_ne {v : Block} {d : Disk} {x : ℕ} (h : x ≠ start + tail + 1) :
    (copyWrite start tail v).exec d x = d x := Write.exec_of_ne h

theorem DataInv.writeLog (h : DataInv start f sp (.copying tail)) (hb : f.lh[tail]? = some b) :
    DataInv start (f.write (copyWrite start tail (f.view b))) sp (.copying (tail + 1)) := by
  obtain ⟨hhead, hhome, hcopied⟩ := h.disk
  have htail : tail < LOGBLOCKS := by
    have hlt := (List.getElem?_eq_some_iff.mp hb).1
    exact Nat.lt_of_lt_of_le hlt h.sound.length
  have hother : ∀ x, ¬ InLog start x →
      (copyWrite start tail (f.view b)).exec f.disk x = f.disk x :=
    fun x hx => copyWrite_exec_of_ne (ne_of_inLog hx (copy_inLog htail)).symm
  refine ⟨h.sound, h.cache.write hother, ?_, fun x hx => (hother x hx).trans (hhome x hx), ?_⟩
  · have hstart : (copyWrite start tail (f.view b)).exec f.disk start = f.disk start :=
      copyWrite_exec_of_ne (by omega)
    exact (congrArg readHead hstart).trans hhead
  · intro k hk x hx
    by_cases hkt : k = tail
    · subst hkt
      have hxb : x = b := Option.some.inj ((Option.mem_def.mp hx).symm.trans hb)
      have hmem : b ∈ f.lh := List.mem_of_getElem? hb
      rw [hxb, ← h.cache.view b (h.sound.home b hmem)]
      exact Function.update_self ..
    · exact (copyWrite_exec_of_ne (by omega)).trans (hcopied k (by omega) x hx)

theorem DataInv.copy_end (h : DataInv start f sp (.copying tail)) (htail : f.lh.length ≤ tail) :
    DataInv start f sp (.copying f.lh.length) := by
  obtain ⟨hhead, hhome, hcopied⟩ := h.disk
  exact ⟨h.sound, h.cache, hhead, hhome, fun k hk => hcopied k (by omega)⟩

/-- The commit point: from now on the disk means what was stored. -/
theorem DataInv.writeHead (h : DataInv start f sp (.copying f.lh.length))
    (hfree : ∀ b, f.locked b = false) :
    DataInv start (f.write (headWrite start f.lh)) (sp.apply .committed) (.installing 0) := by
  obtain ⟨-, -, hcopied⟩ := h.disk
  have hother : ∀ x, x ≠ start → (headWrite start f.lh).exec f.disk x = f.disk x :=
    fun x hx => Write.exec_of_ne hx
  have hhome : ∀ x, ¬ InLog start x → (headWrite start f.lh).exec f.disk x = f.disk x :=
    fun x hx => hother x (ne_of_inLog hx (start_inLog start)).symm
  have hcache := h.cache.write hhome
  refine ⟨h.sound, ⟨hcache.view, hcache.clean, hcache.refs⟩, ?_, fun _ _ => rfl, ?_, ?_⟩
  · have hself : (headWrite start f.lh).exec f.disk start = fillHead f.lh (f.disk start) :=
      Function.update_self ..
    exact (congrArg readHead hself).trans (readHead_fillHead h.sound.length _)
  · intro k hk x hx
    exact (hother _ (by omega)).trans (hcopied k hk x hx)
  · intro x hx hmem
    exact (hhome x hx).trans (h.cache.disk_eq hx hmem (hfree x))

theorem drop_eq_cons {lh : List ℕ} (hb : lh[tail]? = some b) :
    lh.drop tail = b :: lh.drop (tail + 1) := by
  obtain ⟨hlt, hget⟩ := List.getElem?_eq_some_iff.mp hb
  rw [List.drop_eq_getElem_cons hlt, hget]

theorem DataInv.install (h : DataInv start f sp (.installing tail)) (hb : f.lh[tail]? = some b)
    (hfree : ∀ b, f.locked b = false) :
    DataInv start (f.install start tail b) sp (.installing (tail + 1)) := by
  obtain ⟨hhead, hcommitted, hcopied, hdone⟩ := h.disk
  have hlt := (List.getElem?_eq_some_iff.mp hb).1
  have hhome : ¬ InLog start b := h.sound.home b (List.mem_of_getElem? hb)
  have hcopy : f.disk (start + tail + 1) = sp.pending b := hcopied tail hlt b hb
  have hother : ∀ x, x ≠ b → (f.install start tail b).disk x = f.disk x :=
    fun x hx => Write.exec_of_ne hx
  have hself : (f.install start tail b).disk b = sp.pending b :=
    (Function.update_self ..).trans hcopy
  have hdrop := drop_eq_cons hb
  have hnodup : b ∉ f.lh.drop (tail + 1) := by
    have hall := h.sound.nodup.sublist (List.drop_sublist tail f.lh)
    rw [hdrop, List.nodup_cons] at hall
    exact hall.1
  refine ⟨h.sound, ⟨?_, ?_, ?_⟩, ?_, hcommitted, ?_, ?_⟩
  · intro x hx
    by_cases hxb : x = b
    · subst hxb
      simpa [Fs.view, Fs.install] using hcopy
    · rw [← h.cache.view x hx, Fs.view, Fs.view, hother x hxb]
      simp [Fs.install, hxb]
  · intro x hx htodo _ v hv
    by_cases hxb : x = b
    · subst hxb
      rw [hself, ← hcopy]
      simpa [Fs.install] using hv.symm
    · rw [hother x hxb]
      simp only [Fs.install, Function.update_of_ne hxb] at hv
      refine h.cache.clean x hx ?_ (hfree x) v hv
      simp only [Phase.todo, hdrop, List.mem_cons, not_or]
      exact ⟨hxb, htodo⟩
  · intro x
    have hrefs := h.cache.refs x
    simp only [Phase.todo, hdrop] at hrefs ⊢
    by_cases hxb : x = b
    · subst hxb
      simp only [Fs.install, Function.update_self, hrefs, List.count_cons_self, hfree]
      simp
    · rw [List.count_cons_of_ne (Ne.symm hxb)] at hrefs
      simp only [Fs.install, Function.update_of_ne hxb, hrefs]
  · rw [hother _ (ne_of_inLog hhome (start_inLog start))]
    exact hhead
  · intro k hk x hx
    have hin : InLog start (start + k + 1) := copy_inLog (Nat.lt_of_lt_of_le hk h.sound.length)
    rw [hother _ (ne_of_inLog hhome hin)]
    exact hcopied k hk x hx
  · intro x hx hmem
    by_cases hxb : x = b
    · subst hxb
      exact hself
    · rw [hother x hxb]
      refine hdone x hx ?_
      rw [hdrop, List.mem_cons, not_or]
      exact ⟨hxb, hmem⟩

theorem DataInv.install_end (h : DataInv start f sp (.installing tail))
    (htail : f.lh.length ≤ tail) : DataInv start f sp (.installing f.lh.length) := by
  obtain ⟨hhead, hcommitted, hcopied, hdone⟩ := h.disk
  have hdrop : f.lh.drop tail = f.lh.drop f.lh.length := by
    rw [List.drop_of_length_le htail, List.drop_length]
  refine ⟨h.sound, ?_, hhead, hcommitted, hcopied, ?_⟩
  · have hcache := h.cache
    rwa [Phase.todo, hdrop] at hcache
  · rwa [hdrop] at hdone

theorem DataInv.clearHead (h : DataInv start f sp (.installing f.lh.length)) :
    DataInv start ({ f with lh := [] }.write (headWrite start [])) sp .done := by
  obtain ⟨-, hcommitted, -, hdone⟩ := h.disk
  have hhome : ∀ x, ¬ InLog start x → (headWrite start []).exec f.disk x = f.disk x :=
    fun x hx => Write.exec_of_ne (ne_of_inLog hx (start_inLog start)).symm
  have hcache : CacheInv start { f with lh := [] } sp [] := by
    have hold := h.cache
    simp only [Phase.todo, List.drop_length] at hold
    exact ⟨hold.view, hold.clean, hold.refs⟩
  refine ⟨sound_nil start, hcache.write hhome, rfl, ?_, ?_⟩
  · have hself : (headWrite start []).exec f.disk start = fillHead [] (f.disk start) :=
      Function.update_self ..
    exact (congrArg readHead hself).trans (readHead_fillHead (Nat.zero_le _) _)
  · intro x hx
    exact (hhome x hx).trans ((hdone x hx (by simp)).trans (hcommitted x hx).symm)

/-! ## The power fails -/

/-- The phase of the commit that a call carries out. -/
def Pc.phase (lh : List ℕ) : Pc → Phase
  | .writeLog tail => .copying tail
  | .writeHead => .copying lh.length
  | .install tail => .installing tail
  | .clearHead => .installing lh.length
  | .beginOp _ => .idle
  | .body _ => .idle
  | .logWrite _ _ => .idle
  | .commit => .idle
  | .endCommit => .done
  | .sync => .idle
  | .syncWait _ => .idle
  | .evict _ => .idle

/-- A disk whose header lists the blocks of `lh` and whose log holds them. -/
theorem meaning_of_copied {d : Disk} (hsound : Sound start f.lh)
    (hhead : readHead (d start) = f.lh)
    (hcopy : ∀ tail < LOGBLOCKS, d (start + tail + 1) = f.disk (start + tail + 1))
    (hcopied : Copied start f sp f.lh.length)
    (hrest : ∀ b, ¬ InLog start b → b ∉ f.lh → d b = sp.pending b) (hb : ¬ InLog start b) :
    meaning start d b = sp.pending b := by
  rw [meaning, hhead]
  split
  · rename_i hmem
    have hlt := List.idxOf_lt_length_of_mem hmem
    rw [hcopy _ (hsound.idx_lt hmem)]
    refine hcopied _ hlt b ?_
    rw [Option.mem_def, List.getElem?_eq_getElem hlt, List.getElem_idxOf]
  · rename_i hmem
    exact hrest b hb hmem

theorem DataInv.meaning_eq {ph : Phase} (h : DataInv start f sp ph) :
    Sound start (readHead (f.disk start)) ∧
      ∀ b, ¬ InLog start b → meaning start f.disk b = sp.committed b := by
  cases ph with
  | idle =>
      obtain ⟨hhead, hhome⟩ := h.disk
      exact ⟨by rw [hhead]; exact sound_nil start,
        fun b hb => (meaning_of_clean hhead b).trans (hhome b hb)⟩
  | done =>
      obtain ⟨-, hhead, hhome⟩ := h.disk
      exact ⟨by rw [hhead]; exact sound_nil start,
        fun b hb => (meaning_of_clean hhead b).trans (hhome b hb)⟩
  | copying tail =>
      obtain ⟨hhead, hhome, -⟩ := h.disk
      exact ⟨by rw [hhead]; exact sound_nil start,
        fun b hb => (meaning_of_clean hhead b).trans (hhome b hb)⟩
  | installing tail =>
      obtain ⟨hhead, hcommitted, hcopied, hdone⟩ := h.disk
      refine ⟨by rw [hhead]; exact h.sound, fun b hb => ?_⟩
      rw [hcommitted b hb]
      exact meaning_of_copied h.sound hhead (fun _ _ => rfl) hcopied
        (fun x hx hmem => hdone x hx (mt List.mem_of_mem_drop hmem)) hb

/-- The power may fail during any write of a commit: the disk means what was committed
before, or, if the header was just written, what is committed now. -/
theorem DataInv.torn {pc : Pc} {w : Write} (h : DataInv start f sp (pc.phase f.lh))
    (hw : nextWrite start f pc = some w) (hfree : ∀ b, f.locked b = false)
    (done : Half → Bool) :
    Sound start (readHead (w.torn done f.disk start)) ∧
      ((∀ b, ¬ InLog start b → meaning start (w.torn done f.disk) b = sp.committed b) ∨
        pc = .writeHead ∧
          ∀ b, ¬ InLog start b → meaning start (w.torn done f.disk) b = sp.pending b) := by
  cases pc with
  | writeLog tail =>
      obtain ⟨b, hb, rfl⟩ := Option.map_eq_some_iff.mp hw
      obtain ⟨hhead, hhome, -⟩ := h.disk
      have hlt := (List.getElem?_eq_some_iff.mp hb).1
      have hother : ∀ x, x ≠ start + tail + 1 →
          (copyWrite start tail (f.view b)).torn done f.disk x = f.disk x :=
        fun x hx => Write.torn_of_ne hx done
      have hhead' : readHead ((copyWrite start tail (f.view b)).torn done f.disk start) = [] := by
        rw [hother start (by omega), hhead]
      refine ⟨by rw [hhead']; exact sound_nil start, .inl fun x hx => ?_⟩
      have hin : InLog start (start + tail + 1) :=
        copy_inLog (Nat.lt_of_lt_of_le hlt h.sound.length)
      rw [meaning_of_clean hhead', hother x (ne_of_inLog hx hin).symm, hhome x hx]
  | writeHead =>
      cases hw
      obtain ⟨hhead, hhome, hcopied⟩ := h.disk
      have hother : ∀ x, x ≠ start → (headWrite start f.lh).torn done f.disk x = f.disk x :=
        fun x hx => Write.torn_of_ne hx done
      have hne : ∀ x, ¬ InLog start x → x ≠ start :=
        fun x hx => (ne_of_inLog hx (start_inLog start)).symm
      have hhead' : readHead ((headWrite start f.lh).torn done f.disk start) =
          if done .first then f.lh else readHead (f.disk start) := head_torn h.sound.length
      by_cases hfirst : done .first = true
      · rw [if_pos hfirst] at hhead'
        refine ⟨by rw [hhead']; exact h.sound, .inr ⟨rfl, fun b hb => ?_⟩⟩
        refine meaning_of_copied h.sound hhead' (fun tail _ => hother _ (by omega)) hcopied ?_ hb
        intro x hx hmem
        rw [hother x (hne x hx)]
        exact h.cache.disk_eq hx hmem (hfree x)
      · rw [if_neg hfirst, hhead] at hhead'
        refine ⟨by rw [hhead']; exact sound_nil start, .inl fun x hx => ?_⟩
        rw [meaning_of_clean hhead', hother x (hne x hx), hhome x hx]
  | install tail =>
      obtain ⟨b, hb, rfl⟩ := Option.map_eq_some_iff.mp hw
      obtain ⟨hsound, hmeaning⟩ := h.meaning_eq
      have hmem : b ∈ readHead (f.disk start) := by
        rw [h.disk.1]
        exact List.mem_of_getElem? hb
      refine ⟨?_, .inl fun x hx => ?_⟩
      · rw [(install_torn hsound hmem 0).1]
        exact hsound
      · rw [(install_torn hsound hmem x).2, hmeaning x hx]
  | clearHead =>
      cases hw
      obtain ⟨hsound, hmeaning⟩ := h.meaning_eq
      obtain ⟨hhead, -, hcopied, hdone⟩ := h.disk
      have hinstalled : ∀ b ∈ readHead (f.disk start),
          f.disk b = f.disk (start + (readHead (f.disk start)).idxOf b + 1) := by
        intro b hb
        rw [hhead] at hb ⊢
        have hlt := List.idxOf_lt_length_of_mem hb
        rw [hdone b (h.sound.home b hb) (by simp)]
        refine (hcopied _ hlt b ?_).symm
        rw [Option.mem_def, List.getElem?_eq_getElem hlt, List.getElem_idxOf]
      have hhead' : readHead ((headWrite start []).torn done f.disk start) =
          if done .first then [] else readHead (f.disk start) := head_torn (Nat.zero_le _)
      refine ⟨?_, .inl fun x hx => (clear_torn hinstalled hx).2.trans (hmeaning x hx)⟩
      rw [hhead']
      split
      · exact sound_nil start
      · exact hsound
  | beginOp ws => cases hw
  | body ws => cases hw
  | logWrite b ws => cases hw
  | commit => cases hw
  | endCommit => cases hw
  | sync => cases hw
  | syncWait n => cases hw
  | evict b => cases hw

end ShellXv6.Xv6.Log
