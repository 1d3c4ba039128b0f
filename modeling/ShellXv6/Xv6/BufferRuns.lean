import ShellXv6.Xv6.BufferUsers

/-!
# The buffer cache is a disk

If no process gives back a buffer that it has changed and neither written nor pinned, the
cache behaves as the blocks themselves: whoever gets a block finds what was last stored in
it, whatever buffers have been recycled in between.  What is recycled is the buffer that
was given back first of those that nobody uses.
-/

namespace ShellXv6.Xv6.BufferCache

open LinkedRing Monitor

variable {ι D : Type*}

/-! ## What was stored -/

def contents (disk : Key → D) (tr : List (ι × Event D)) : Key → D :=
  tr.foldl (fun C e =>
    match e.2 with
    | .stored k v => Function.update C k v
    | .got _ _ => C
    | .recycled _ => C
    | .freed _ => C) disk

/-- Whoever gets a block gets what was stored last. -/
def Faithful (disk : Key → D) (tr : List (ι × Event D)) : Prop :=
  ∀ tr₁ i k v tr₂, tr = tr₁ ++ (i, .got k v) :: tr₂ → v = contents disk tr₁ k

theorem Faithful.append {disk : Key → D} {tr : List (ι × Event D)} {i : ι} {e : Event D}
    (h : Faithful disk tr) (he : ∀ k v, e = .got k v → v = contents disk tr k) :
    Faithful disk (tr ++ [(i, e)]) := by
  intro tr₁ j k v tr₂ heq
  rcases List.append_eq_append_iff.mp heq with ⟨tr₃, rfl, hlast⟩ | ⟨tr₃, rfl, hlast⟩
  · cases tr₃ with
    | nil =>
        cases hlast
        rw [List.append_nil]
        exact he k v rfl
    | cons x tr₃ => simp at hlast
  · cases tr₃ with
    | nil =>
        cases hlast
        rw [List.append_nil] at he
        exact he k v rfl
    | cons x tr₃ =>
        cases hlast
        exact h tr₁ j k v tr₃ rfl

/-- The cache and the disk hold the blocks `C`. -/
structure Stores (c : Cache ι D) (C : Key → D) : Prop where
  unique : ∀ a b, (c.buf a).dev ≠ 0 → (c.buf a).key = (c.buf b).key → a = b
  real : ∀ b, (c.buf b).valid → (c.buf b).dev ≠ 0
  cached : ∀ b, (c.buf b).valid → (c.buf b).data = C (c.buf b).key
  disk : ∀ k, (∀ b, (c.buf b).key = k → (c.buf b).valid = false) → c.disk k = C k
  clean : ∀ b, (c.buf b).valid → c.lock b = none → c.pins b = 0 →
    (c.buf b).data = c.disk (c.buf b).key

theorem stores_binit (zero : D) (disk : Key → D) : Stores (binit zero disk : Cache ι D) disk where
  unique := fun _ _ h => absurd rfl h
  real := by simp [binit]
  cached := by simp [binit]
  disk := fun _ _ => rfl
  clean := by simp [binit]

namespace Stores

variable {c c' : Cache ι D} {C : Key → D} {b : Fin NBUF} {k : Key}

/-- Reference counts do not matter, and locks and pins do so for changed buffers only. -/
theorem congr (h : Stores c C)
    (hbuf : ∀ b, (c'.buf b).valid = (c.buf b).valid ∧ (c'.buf b).dev = (c.buf b).dev ∧
      (c'.buf b).blockno = (c.buf b).blockno ∧ (c'.buf b).data = (c.buf b).data)
    (hdisk : c'.disk = c.disk)
    (hclean : ∀ b, c'.lock b = none → c'.pins b = 0 → c.lock b = none ∧ c.pins b = 0 ∨
      (c.buf b).data = c.disk (c.buf b).key) : Stores c' C := by
  have hkey : ∀ b, (c'.buf b).key = (c.buf b).key := fun b => by
    rw [Buf.key, (hbuf b).2.1, (hbuf b).2.2.1, Buf.key]
  refine ⟨?_, ?_, ?_, ?_, ?_⟩
  · intro a b ha hab
    rw [hkey, hkey] at hab
    exact h.unique a b ((hbuf a).2.1 ▸ ha) hab
  · intro b hb
    rw [(hbuf b).2.1]
    exact h.real b ((hbuf b).1 ▸ hb)
  · intro b hb
    rw [(hbuf b).2.2.2, hkey]
    exact h.cached b ((hbuf b).1 ▸ hb)
  · intro k hk
    rw [hdisk]
    refine h.disk k fun b hb => ?_
    rw [← (hbuf b).1]
    exact hk b ((hkey b).trans hb)
  · intro b hb hlock hpins
    rw [(hbuf b).2.2.2, hkey, hdisk]
    rcases hclean b hlock hpins with ⟨hlock', hpins'⟩ | hdata
    · exact h.clean b ((hbuf b).1 ▸ hb) hlock' hpins'
    · exact hdata

/-- What has to be checked when one buffer is replaced. -/
theorem setBuf {C' : Key → D} {x : Buf D} (h : Stores c C)
    (hunique : x.dev ≠ 0 → ∀ a, a ≠ b → (c.buf a).key ≠ x.key)
    (hreal : x.valid → x.dev ≠ 0) (hcached : x.valid → x.data = C' x.key)
    (hC : ∀ a, a ≠ b → (c.buf a).valid → C' (c.buf a).key = C (c.buf a).key)
    (hdisk : ∀ k, (∀ a, a ≠ b → (c.buf a).key = k → (c.buf a).valid = false) →
      (x.key = k → x.valid = false) → c.disk k = C' k)
    (hclean : x.valid → c.lock b = none → c.pins b = 0 → x.data = c.disk x.key) :
    Stores (c.setBuf b x) C' := by
  have hself : (c.setBuf b x).buf b = x := Function.update_self ..
  have hother : ∀ a, a ≠ b → (c.setBuf b x).buf a = c.buf a :=
    fun a ha => Function.update_of_ne ha _ _
  refine ⟨?_, ?_, ?_, ?_, ?_⟩
  · intro a a' ha haa'
    by_cases hab : a = b
    · by_cases hab' : a' = b
      · rw [hab, hab']
      · rw [hab, hself] at ha haa'
        rw [hother a' hab'] at haa'
        exact absurd haa'.symm (hunique ha a' hab')
    · rw [hother a hab] at ha haa'
      by_cases hab' : a' = b
      · rw [hab', hself] at haa'
        have hdev : x.dev ≠ 0 := by
          rw [← show (c.buf a).dev = x.dev from congrArg Prod.fst haa']
          exact ha
        exact absurd haa' (hunique hdev a hab)
      · rw [hother a' hab'] at haa'
        exact h.unique a a' ha haa'
  · intro a ha
    by_cases hab : a = b
    · rw [hab, hself] at ha ⊢
      exact hreal ha
    · rw [hother a hab] at ha ⊢
      exact h.real a ha
  · intro a ha
    by_cases hab : a = b
    · rw [hab, hself] at ha ⊢
      exact hcached ha
    · rw [hother a hab] at ha ⊢
      rw [hC a hab ha]
      exact h.cached a ha
  · intro k hk
    refine hdisk k (fun a hab ha => ?_) fun hx => ?_
    · rw [← hother a hab] at ha ⊢
      exact hk a ha
    · rw [← hself] at hx ⊢
      exact hk b hx
  · intro a ha
    by_cases hab : a = b
    · rw [hab, hself] at ha ⊢
      exact hclean ha
    · rw [hother a hab] at ha ⊢
      exact h.clean a ha

/-- What was in a recycled buffer is on the disk. -/
theorem recycle (h : Stores c C) (hnone : ∀ a, (c.buf a).key ≠ k) (hlock : c.lock b = none)
    (hpins : c.pins b = 0) : Stores (c.recycle b k) C := by
  apply h.setBuf
  · exact fun _ a _ => hnone a
  · exact fun hv => absurd hv Bool.false_ne_true
  · exact fun hv => absurd hv Bool.false_ne_true
  · exact fun _ _ _ => rfl
  · intro k' hothers _
    by_cases hvalid : (c.buf b).valid = true ∧ (c.buf b).key = k'
    · obtain ⟨hb, rfl⟩ := hvalid
      exact (h.clean b hb hlock hpins).symm.trans (h.cached b hb)
    · refine h.disk k' fun a ha => ?_
      by_cases hab : a = b
      · subst hab
        simpa using fun hv => hvalid ⟨hv, ha⟩
      · exact hothers a hab ha
  · exact fun hv => absurd hv Bool.false_ne_true

theorem modify {v : D} (h : Stores c C) (hb : (c.buf b).valid) (hlock : c.lock b ≠ none) :
    Stores (c.setBuf b { c.buf b with data := v }) (Function.update C (c.buf b).key v) := by
  have hne : ∀ a, a ≠ b → (c.buf a).key ≠ (c.buf b).key :=
    fun a hab hkey => hab (h.unique b a (h.real b hb) hkey.symm).symm
  apply h.setBuf
  · exact fun _ a hab => hne a hab
  · exact h.real b
  · exact fun _ => (Function.update_self (c.buf b).key v C).symm
  · exact fun a hab _ => Function.update_of_ne (hne a hab) _ _
  · intro k hothers hx
    have hkb : k ≠ (c.buf b).key := by
      rintro rfl
      exact absurd ((hx rfl).symm.trans hb) Bool.false_ne_true
    rw [Function.update_of_ne hkb]
    refine h.disk k fun a ha => hothers a ?_ ha
    rintro rfl
    exact hkb ha.symm
  · exact fun _ hnone => absurd hnone hlock

theorem fill (h : Stores c C) (hb : (c.buf b).valid = false) (hdev : (c.buf b).dev ≠ 0) :
    c.disk (c.buf b).key = C (c.buf b).key ∧
      Stores (c.setBuf b { c.buf b with data := c.disk (c.buf b).key, valid := true }) C := by
  have hne : ∀ a, a ≠ b → (c.buf a).key ≠ (c.buf b).key :=
    fun a hab hkey => hab (h.unique b a hdev hkey.symm).symm
  have hdisk : c.disk (c.buf b).key = C (c.buf b).key := by
    refine h.disk _ fun a ha => ?_
    rw [← h.unique b a hdev ha.symm]
    exact hb
  refine ⟨hdisk, ?_⟩
  apply h.setBuf
  · exact fun _ a hab => hne a hab
  · exact fun _ => hdev
  · exact fun _ => hdisk
  · exact fun _ _ _ => rfl
  · intro k hothers _
    refine h.disk k fun a ha => ?_
    by_cases hab : a = b
    · rw [hab]
      exact hb
    · exact hothers a hab ha
  · exact fun _ _ _ => rfl

theorem write (h : Stores c C) (hb : (c.buf b).valid) :
    Stores { c with disk := Function.update c.disk (c.buf b).key (c.buf b).data } C where
  unique := h.unique
  real := h.real
  cached := h.cached
  disk := by
    intro k hk
    have hkb : k ≠ (c.buf b).key := by
      rintro rfl
      have hinvalid := hk b rfl
      rw [hb] at hinvalid
      cases hinvalid
    exact (Function.update_of_ne hkb _ _).trans (h.disk k hk)
  clean := by
    intro a ha hlock hpins
    by_cases hkey : (c.buf a).key = (c.buf b).key
    · have hab := h.unique a b (h.real a ha) hkey
      subst hab
      exact (Function.update_self _ (c.buf a).data c.disk).symm
    · exact (h.clean a ha hlock hpins).trans (Function.update_of_ne hkey _ _).symm

end Stores

/-! ## When a buffer was given back -/

def isFreed (b : Fin NBUF) : Event D → Bool
  | .freed a => a = b
  | .got _ _ => false
  | .stored _ _ => false
  | .recycled _ => false

/-- The number of events up to the last one that made buffer `b` free. -/
def lastFreed (b : Fin NBUF) (tr : List (ι × Event D)) : ℕ :=
  tr.length - tr.reverse.findIdx fun e => isFreed b e.2

section

variable {tr : List (ι × Event D)} {i : ι} {e : Event D} {a b : Fin NBUF}
  {l l₁ l₂ : List (Fin NBUF)}

theorem lastFreed_le (b : Fin NBUF) (tr : List (ι × Event D)) : lastFreed b tr ≤ tr.length :=
  Nat.sub_le _ _

theorem lastFreed_append (h : isFreed b e = false) :
    lastFreed b (tr ++ [(i, e)]) = lastFreed b tr := by
  simp [lastFreed, List.findIdx_cons, h]

theorem lastFreed_freed : lastFreed b (tr ++ [(i, .freed b)]) = tr.length + 1 := by
  simp [lastFreed, List.findIdx_cons, isFreed]

/-- The most recently used buffers come first. -/
def Recent (tr : List (ι × Event D)) (l : List (Fin NBUF)) : Prop :=
  l.Pairwise fun a b => lastFreed b tr ≤ lastFreed a tr

theorem Recent.append (h : Recent tr l) (he : ∀ b, isFreed b e = false) :
    Recent (tr ++ [(i, e)]) l := by
  apply h.imp
  intro a b hab
  rw [lastFreed_append (he a), lastFreed_append (he b)]
  exact hab

theorem Recent.toFront (h : Recent tr (l₁ ++ b :: l₂)) (hb : b ∉ l₁ ++ l₂) :
    Recent (tr ++ [(i, .freed b)]) (b :: (l₁ ++ l₂)) := by
  have hother : ∀ a ∈ l₁ ++ l₂, lastFreed a (tr ++ [(i, .freed b)]) = lastFreed a tr := by
    intro a ha
    have hab : b ≠ a := (ne_of_mem_of_not_mem ha hb).symm
    exact lastFreed_append (by simpa [isFreed] using hab)
  refine List.pairwise_cons.mpr ⟨?_, ?_⟩
  · intro a ha
    rw [hother a ha, lastFreed_freed]
    exact (lastFreed_le a tr).trans (Nat.le_succ _)
  · have hrest : Recent tr (l₁ ++ l₂) :=
      h.sublist ((List.sublist_cons_self b l₂).append_left l₁)
    refine List.Pairwise.imp_of_mem ?_ hrest
    intro x y hx hy hxy
    rw [hother x hx, hother y hy]
    exact hxy

end

/-! ## Whole runs -/

abbrev Caches (ι D : Type*) := State ι (Cache ι D) (Fin NBUF) Pc Unit (Event D)

/-- What holds in every state of a run. -/
structure Invariant (disk : Key → D) (c : Cache ι D) (tr : List (ι × Event D))
    (pcs : ι → Option Pc) (l : List (Fin NBUF)) (F : Fin NBUF → Finset ι) : Prop where
  ring : Ring c l
  recent : Recent tr l
  users : Users c pcs F
  stores : Stores c (contents disk tr)
  faithful : Faithful disk tr

/-- How processes use the cache: they ask for blocks of a device, give back what they have
changed only after they have written or pinned it, and do not unpin more than they pin. -/
def Disciplined (s : Caches ι D) : Monitor.Action ι (Choice D) → Prop
  | .turn i .brelse => ∀ b k, s.thread i = .ready (.holding b k) → s.data.pins b = 0 →
      (s.data.buf b).data = s.data.disk k
  | .turn i .bunpin => ∀ b k, s.thread i = .ready (.holding b k) → 0 < s.data.pins b
  | .turn _ (.bread k) => k.1 ≠ 0
  | _ => True

instance decidableHolding {p : Fin NBUF → Key → Prop} [∀ b k, Decidable (p b k)] :
    (th : Thread (Fin NBUF) Pc Unit) → Decidable (∀ b k, th = .ready (.holding b k) → p b k)
  | .ready (.holding b k) =>
      decidable_of_iff (p b k) ⟨fun h _ _ hth => by cases hth; exact h, fun h => h b k rfl⟩
  | .ready .idle => isTrue fun _ _ hth => nomatch hth
  | .ready (.wait _ _) => isTrue fun _ _ hth => nomatch hth
  | .ready (.check _ _) => isTrue fun _ _ hth => nomatch hth
  | .ready (.releasing _) => isTrue fun _ _ hth => nomatch hth
  | .asleep _ _ => isTrue fun _ _ hth => nomatch hth
  | .left _ => isTrue fun _ _ hth => nomatch hth

instance [DecidableEq D] (s : Caches ι D) :
    (a : Monitor.Action ι (Choice D)) → Decidable (Disciplined s a)
  | .turn i .brelse => decidableHolding (s.thread i)
  | .turn i .bunpin => decidableHolding (s.thread i)
  | .turn _ (.bread k) => inferInstanceAs (Decidable (k.1 ≠ 0))
  | .turn _ (.modify _) => isTrue trivial
  | .turn _ .bwrite => isTrue trivial
  | .turn _ .bpin => isTrue trivial
  | .turn _ .go => isTrue trivial
  | .rouse _ => isTrue trivial

variable [DecidableEq ι]

def Reachable (zero : D) (disk : Key → D) : Caches ι D → Prop :=
  Run.Reach (Start (binit zero disk) fun _ => .idle) (step turn) Disciplined

/-- The invariant holds after the turn `r` of process `i`. -/
def Kept (disk : Key → D) (tr : List (ι × Event D)) (pcs : ι → Option Pc) (i : ι)
    (r : CacheTurn ι D) : Prop :=
  ∃ l F, Invariant disk r.data (tr ++ r.events.map fun e => (i, e))
    (Function.update pcs i r.thread.pc) l F

namespace Invariant

variable {disk : Key → D} {c : Cache ι D} {tr : List (ι × Event D)} {pcs : ι → Option Pc}
  {l : List (Fin NBUF)} {F : Fin NBUF → Finset ι} {i : ι} {b : Fin NBUF} {k : Key}

/-- A turn without events that leaves the ring as it is. -/
theorem quiet {c' : Cache ι D} {pc' : Option Pc} {F' : Fin NBUF → Finset ι}
    (h : Invariant disk c tr pcs l F) (hlinks : c'.links = c.links)
    (husers : Users c' (Function.update pcs i pc') F') (hstores : Stores c' (contents disk tr)) :
    Invariant disk c' (tr ++ ([] : List (Event D)).map fun e => (i, e))
      (Function.update pcs i pc') l F' := by
  rw [List.map_nil, List.append_nil]
  exact ⟨⟨hlinks ▸ h.ring.holds, h.ring.all⟩, h.recent, husers, hstores, h.faithful⟩

theorem get_turn {r : CacheTurn ι D} (h : Invariant disk c tr pcs l F) (hi : pcs i = some .idle)
    (hk : k.1 ≠ 0) (hr : Got c l k r) : Kept disk tr pcs i r := by
  cases hr with
  | hit b hb =>
      refine ⟨l, _, h.quiet rfl (h.users.hit hi hb hk) (h.stores.congr ?_ rfl ?_)⟩
      · intro a
        by_cases ha : a = b <;> simp [Cache.hit, Cache.setBuf, ha]
      · exact fun a hlock hpins => .inl ⟨hlock, hpins⟩
  | recycle b l₁ l₂ hnone hb hl hused =>
      obtain ⟨-, hpins, hlock⟩ := h.users.unused hb
      refine ⟨l, _, ⟨h.ring.holds, h.ring.all⟩, ?_, h.users.recycle hi hb hk, ?_, ?_⟩
      · exact h.recent.append fun _ => rfl
      · simpa [contents] using h.stores.recycle hnone hlock hpins
      · exact h.faithful.append (by simp)
  | full hnone hused =>
      refine ⟨l, F, h.quiet rfl (h.users.leave hi rfl) (h.stores.congr ?_ rfl ?_)⟩
      · exact fun a => ⟨rfl, rfl, rfl, rfl⟩
      · exact fun a hlock hpins => .inl ⟨hlock, hpins⟩

theorem wait_turn (h : Invariant disk c tr pcs l F) (hi : pcs i = some (.wait b k)) :
    Kept disk tr pcs i (acquiresleep i b k c) := by
  unfold acquiresleep
  split
  · refine ⟨l, F, h.quiet rfl ?_ h.stores⟩
    rw [show Function.update pcs i (Thread.asleep b (Pc.wait b k) : Thread _ _ Unit).pc = pcs from
      by rw [Thread.pc, ← hi, Function.update_eq_self]]
    exact h.users
  · rename_i hfree
    have hnone : c.lock b = none := by simpa using hfree
    refine ⟨l, F, h.quiet rfl ?_ (h.stores.congr ?_ rfl ?_)⟩
    · apply h.users.stay hi
      · rfl
      · exact h.users.refs
      · exact fun a => ⟨rfl, id⟩
      · exact fun a k' hk => hk
      · intro j a hj
        by_cases ha : a = b
        · subst ha
          simp [hnone, Ne.symm hj]
        · simp [ha]
      · intro a
        have hlock := h.users.locks i a
        rw [hi] at hlock
        by_cases ha : a = b
        · subst ha
          simp [Pc.locks]
        · simpa [Pc.locks, ha, Ne.symm ha] using hlock
      · simp
    · exact fun a => ⟨rfl, rfl, rfl, rfl⟩
    · intro a hlock hpins
      by_cases ha : a = b
      · simp [ha] at hlock
      · exact .inl ⟨by simpa [ha] using hlock, hpins⟩

theorem check_turn (h : Invariant disk c tr pcs l F) (hi : pcs i = some (.check b k)) :
    Kept disk tr pcs i (bread b k c) := by
  obtain ⟨rfl, hdev⟩ := h.users.asks i b k (by rw [hi]; rfl)
  have hrefs := h.users.refs
  unfold bread
  cases hvalid : (c.buf b).valid with
  | true =>
      have hself : c.setBuf b (c.buf b) = c := by simp [Cache.setBuf]
      simp only [if_true, hself]
      refine ⟨l, F, ⟨h.ring.holds, h.ring.all⟩, h.recent.append fun _ => rfl, ?_, ?_, ?_⟩
      · exact h.users.hold hi rfl rfl hrefs (fun a => ⟨rfl, id⟩) rfl hvalid
      · simpa [contents] using h.stores
      · refine h.faithful.append ?_
        rintro k v ⟨⟩
        exact h.stores.cached b hvalid
  | false =>
      obtain ⟨hdisk, hstores⟩ := h.stores.fill hvalid hdev
      simp only [Bool.false_eq_true, if_false]
      refine ⟨l, F, ⟨h.ring.holds, h.ring.all⟩, h.recent.append fun _ => rfl, ?_, ?_, ?_⟩
      · refine h.users.hold hi rfl rfl ?_ ?_ rfl ?_
        · intro a
          by_cases ha : a = b <;> simp [Cache.setBuf, ha, hrefs]
        · intro a
          by_cases ha : a = b <;> simp [Cache.setBuf, Buf.key, ha]
        · simp [Cache.setBuf]
      · simpa [contents] using hstores
      · refine h.faithful.append ?_
        rintro k v ⟨⟩
        exact hdisk

theorem modify_turn {v : D} (h : Invariant disk c tr pcs l F) (hi : pcs i = some (.holding b k)) :
    Kept disk tr pcs i (modify b k v c) := by
  obtain ⟨rfl, -⟩ := h.users.asks i b k (by rw [hi]; rfl)
  have hvalid := h.users.valid i b _ hi
  have hlock : c.lock b ≠ none := by simp [h.users.lock_eq hi rfl]
  have hrefs := h.users.refs
  refine ⟨l, F, ⟨h.ring.holds, h.ring.all⟩, h.recent.append fun _ => rfl, ?_, ?_, ?_⟩
  · refine h.users.hold hi rfl rfl ?_ ?_ rfl ?_
    · intro a
      by_cases ha : a = b <;> simp [modify, Cache.setBuf, ha, hrefs]
    · intro a
      by_cases ha : a = b <;> simp [modify, Cache.setBuf, Buf.key, ha]
    · simpa [modify, Cache.setBuf] using hvalid
  · simpa [modify, contents] using h.stores.modify hvalid hlock
  · exact h.faithful.append (by simp)

theorem write_turn (h : Invariant disk c tr pcs l F) (hi : pcs i = some (.holding b k)) :
    Kept disk tr pcs i (bwrite i b k c) := by
  have hvalid := h.users.valid i b k hi
  rw [bwrite, if_pos (h.users.lock_eq hi rfl)]
  refine ⟨l, F, h.quiet rfl ?_ (h.stores.write hvalid)⟩
  exact h.users.hold hi rfl rfl h.users.refs (fun a => ⟨rfl, id⟩) rfl hvalid

theorem pin_turn (h : Invariant disk c tr pcs l F) (hi : pcs i = some (.holding b k)) :
    Kept disk tr pcs i (bpin b k c) := by
  have hvalid := h.users.valid i b k hi
  refine ⟨l, F, h.quiet rfl ?_ (h.stores.congr ?_ rfl ?_)⟩
  · refine h.users.hold hi rfl rfl ?_ ?_ rfl ?_
    · intro a
      have hrefs := h.users.refs a
      by_cases ha : a = b
      · subst ha
        simp only [bpin, Cache.setBuf, Function.update_self]
        omega
      · simpa [bpin, Cache.setBuf, ha] using hrefs
    · intro a
      by_cases ha : a = b <;> simp [bpin, Cache.setBuf, Buf.key, ha]
    · simpa [bpin, Cache.setBuf] using hvalid
  · intro a
    by_cases ha : a = b <;> simp [bpin, Cache.setBuf, ha]
  · intro a hlock hpins
    by_cases ha : a = b
    · simp [bpin, ha] at hpins
    · exact .inl ⟨hlock, by simpa [bpin, ha] using hpins⟩

theorem unpin_turn (h : Invariant disk c tr pcs l F) (hi : pcs i = some (.holding b k))
    (hpins : 0 < c.pins b) : Kept disk tr pcs i (bunpin b k c) := by
  have hvalid := h.users.valid i b k hi
  have hlock := h.users.lock_eq hi rfl
  refine ⟨l, F, h.quiet rfl ?_ (h.stores.congr ?_ rfl ?_)⟩
  · refine h.users.hold hi rfl rfl ?_ ?_ rfl ?_
    · intro a
      have hrefs := h.users.refs a
      by_cases ha : a = b
      · subst ha
        simp only [bunpin, Cache.setBuf, Function.update_self]
        omega
      · simpa [bunpin, Cache.setBuf, ha] using hrefs
    · intro a
      by_cases ha : a = b <;> simp [bunpin, Cache.setBuf, Buf.key, ha]
    · simpa [bunpin, Cache.setBuf] using hvalid
  · intro a
    by_cases ha : a = b <;> simp [bunpin, Cache.setBuf, ha]
  · intro a hlocka hpinsa
    by_cases ha : a = b
    · subst ha
      cases hlock.symm.trans hlocka
    · exact .inl ⟨hlocka, by simpa [bunpin, ha] using hpinsa⟩

theorem release_turn (h : Invariant disk c tr pcs l F) (hi : pcs i = some (.holding b k))
    (hclean : c.pins b = 0 → (c.buf b).data = c.disk k) : Kept disk tr pcs i (brelse i b c) := by
  obtain ⟨rfl, -⟩ := h.users.asks i b k (by rw [hi]; rfl)
  have hlock := h.users.lock_eq hi rfl
  rw [brelse, if_pos hlock]
  refine ⟨l, F, h.quiet rfl ?_ (h.stores.congr ?_ rfl ?_)⟩
  · apply h.users.stay hi
    · rfl
    · exact h.users.refs
    · exact fun a => ⟨rfl, id⟩
    · simp [Pc.asks]
    · intro j a hj
      by_cases ha : a = b
      · subst ha
        simp [hlock, Ne.symm hj]
      · simp [ha]
    · intro a
      by_cases ha : a = b
      · simp [ha, Pc.locks]
      · simp [ha, Pc.locks, h.users.locks, hi, Ne.symm ha]
    · simp
  · exact fun a => ⟨rfl, rfl, rfl, rfl⟩
  · intro a hlocka hpins
    by_cases ha : a = b
    · subst ha
      exact .inr (hclean hpins)
    · exact .inl ⟨by simpa [ha] using hlocka, hpins⟩

theorem giveBack_turn (h : Invariant disk c tr pcs l F) (hi : pcs i = some (.releasing b)) :
    Kept disk tr pcs i (giveBack b c) := by
  have husers := h.users.giveBack hi
  have hstores : Stores (giveBack b c).data (contents disk tr) := by
    apply h.stores.congr
    · intro a
      unfold giveBack
      by_cases ha : a = b
      · split <;> simp [Cache.setBuf, ha]
      · split <;> simp [Cache.setBuf, ha]
    · unfold giveBack
      split <;> rfl
    · intro a hlock hpins
      refine .inl ⟨?_, ?_⟩
      · unfold giveBack at hlock
        split at hlock <;> exact hlock
      · unfold giveBack at hpins
        split at hpins <;> exact hpins
  unfold giveBack at husers hstores ⊢
  split
  · rename_i hzero
    rw [if_pos hzero] at husers hstores
    obtain ⟨l₁, l₂, rfl⟩ := List.append_of_mem (h.ring.all b)
    have hholds := h.ring.holds
    rw [List.map_append, List.map_cons] at hholds
    have hnodup := h.ring.nodup
    rw [List.nodup_middle, List.nodup_cons] at hnodup
    refine ⟨b :: (l₁ ++ l₂), _, ⟨?_, ?_⟩, h.recent.toFront hnodup.1, husers, ?_, ?_⟩
    · rw [List.map_cons, List.map_append]
      exact hholds.toFront
    · intro a
      have ha := h.ring.all a
      simp only [List.mem_append, List.mem_cons] at ha ⊢
      tauto
    · simpa [contents] using hstores
    · exact h.faithful.append (by simp)
  · rename_i hmore
    rw [if_neg hmore] at husers hstores
    exact ⟨l, _, h.quiet rfl husers hstores⟩

end Invariant

theorem invariant_of_reach {zero : D} {disk : Key → D} {s : Caches ι D}
    (hs : Reachable zero disk s) : ∃ l F, Invariant disk s.data s.trace s.pcs l F := by
  apply pc_invariant (P := fun c tr pcs => ∃ l F, Invariant disk c tr pcs l F) hs
  · refine ⟨_, _, ring_binit zero disk, ?_, users_binit zero disk, stores_binit zero disk, ?_⟩
    · exact List.pairwise_of_forall fun _ _ => Nat.le_refl _
    · intro tr₁ i k v tr₂ heq
      simp at heq
  · rintro s i pc choice r - hok ⟨l, F, hinv⟩ hready hr
    have hi := s.pcs_of_ready i pc hready
    cases pc with
    | idle =>
        cases choice with
        | bread k => exact hinv.get_turn hi hok (got_of_bget hinv.ring hr)
        | _ => cases hr
    | wait b k =>
        cases choice with
        | go =>
            cases hr
            exact hinv.wait_turn hi
        | _ => cases hr
    | check b k =>
        cases choice with
        | go =>
            cases hr
            exact hinv.check_turn hi
        | _ => cases hr
    | holding b k =>
        cases choice with
        | modify v =>
            cases hr
            exact hinv.modify_turn hi
        | bwrite =>
            cases hr
            exact hinv.write_turn hi
        | bpin =>
            cases hr
            exact hinv.pin_turn hi
        | bunpin =>
            cases hr
            exact hinv.unpin_turn hi (hok b k hready)
        | brelse =>
            cases hr
            exact hinv.release_turn hi (hok b k hready)
        | bread k' => cases hr
        | go => cases hr
    | releasing b =>
        cases choice with
        | go =>
            cases hr
            exact hinv.giveBack_turn hi
        | _ => cases hr

/-- Processes 0 to 27 keep a buffer each.  Process 28 stores 9 in block 100 and gives its
buffer back, then process 29 reads block 101 and gives its buffer back. -/
def crowded : List (Monitor.Action (Fin 31) (Choice ℕ)) :=
  (List.finRange 28).map (fun i => .turn (i.castLE (by decide)) (.bread (1, i))) ++
    [.bread (1, 100), .go, .go, .modify 9, .bwrite, .brelse, .go].map (.turn 28) ++
    [.bread (1, 101), .go, .go, .brelse, .go].map (.turn 29)

/-- Processes 30 and 29 take the two buffers again, for block 200 and block 100. -/
def recycling : List (Monitor.Action (Fin 31) (Choice ℕ)) :=
  [.bread (1, 200), .go, .go].map (.turn 30) ++ [.bread (1, 100), .go, .go].map (.turn 29)

def crowdedStart : Caches (Fin 31) ℕ := ⟨binit 0 Prod.snd, fun _ => .ready .idle, []⟩

/-- Two buffers are unused; the one of block 100 was given back first. -/
def TwoUnused (s : Caches (Fin 31) ℕ) : Prop :=
  (s.data.buf 28).key = (1, 100) ∧ (s.data.buf 28).refcnt = 0 ∧ (s.data.buf 29).refcnt = 0 ∧
    (∀ a, (s.data.buf a).key ≠ (1, 200)) ∧ (∀ a, (s.data.buf a).refcnt = 0 → a = 28 ∨ a = 29) ∧
    lastFreed 28 s.trace < lastFreed 29 s.trace

instance (s : Caches (Fin 31) ℕ) : Decidable (TwoUnused s) := inferInstanceAs (Decidable (_ ∧ _))

/-- The two buffers have changed their blocks. -/
def Recycled (s : Caches (Fin 31) ℕ) : Prop :=
  s.thread 30 = .ready (.holding 28 (1, 200)) ∧ s.thread 29 = .ready (.holding 29 (1, 100)) ∧
    (s.data.buf 29).data = 9

instance (s : Caches (Fin 31) ℕ) : Decidable (Recycled s) := inferInstanceAs (Decidable (_ ∧ _))

theorem exists_recycled : ∃ s t : Caches (Fin 31) ℕ, Reachable 0 Prod.snd s ∧ TwoUnused s ∧
    Reachable 0 Prod.snd t ∧ Recycled t := by
  have hrun : (Run.exec (Run.guarded (step turn) Disciplined) crowded crowdedStart).any (fun s =>
      decide (TwoUnused s) && (Run.exec (Run.guarded (step turn) Disciplined) recycling s).any
        fun t => decide (Recycled t)) = true := by
    decide +kernel
  obtain ⟨s, hs, hrest⟩ := (Option.any_eq_true _ _).mp hrun
  obtain ⟨hunused, hrest⟩ := Bool.and_eq_true_iff.mp hrest
  obtain ⟨t, ht, hrecycled⟩ := (Option.any_eq_true _ _).mp hrest
  have hreach : Reachable 0 Prod.snd s := Run.Reach.of_guarded _ (.start rfl) hs
  exact ⟨s, t, hreach, of_decide_eq_true hunused, Run.Reach.of_guarded _ hreach ht,
    of_decide_eq_true hrecycled⟩

section

variable {zero : D} {disk : Key → D} {s : Caches ι D}

/-- The cache is transparent: whoever gets a block gets what was last stored in it, in any
interleaving and with any recycling, and has the block for itself.  No block is in two
buffers. -/
theorem reads_last_store (hs : Reachable zero disk s) :
    Faithful disk s.trace ∧
      (∀ i b k, s.thread i = .ready (.holding b k) →
        (s.data.buf b).data = contents disk s.trace k) ∧
      (∀ i j a b k, s.thread i = .ready (.holding a k) → s.thread j = .ready (.holding b k) →
        i = j ∧ a = b) ∧
      ∀ a b, (s.data.buf a).dev ≠ 0 → (s.data.buf a).key = (s.data.buf b).key → a = b := by
  obtain ⟨l, F, hinv⟩ := invariant_of_reach hs
  refine ⟨hinv.faithful, ?_, ?_, hinv.stores.unique⟩
  · intro i b k hi
    have hpc := s.pcs_of_ready i _ hi
    obtain ⟨rfl, -⟩ := hinv.users.asks i b k (by rw [hpc]; rfl)
    exact hinv.stores.cached b (hinv.users.valid i b _ hpc)
  · intro i j a b k hi hj
    have hpci := s.pcs_of_ready i _ hi
    have hpcj := s.pcs_of_ready j _ hj
    obtain ⟨hka, hdev⟩ := hinv.users.asks i a k (by rw [hpci]; rfl)
    obtain ⟨hkb, -⟩ := hinv.users.asks j b k (by rw [hpcj]; rfl)
    have hab : a = b := by
      apply hinv.stores.unique a b _ (hka.trans hkb.symm)
      rw [← hka] at hdev
      exact hdev
    subst hab
    have hlock := (hinv.users.lock_eq hpci rfl).symm.trans (hinv.users.lock_eq hpcj rfl)
    exact ⟨Option.some.inj hlock, rfl⟩

/-- The 9 outlives its buffer: block 200 takes that one, and block 100 is read again into
another. -/
theorem reads_last_store_recycled : ∃ s : Caches (Fin 31) ℕ,
    s.thread 30 = .ready (.holding 28 (1, 200)) ∧ s.thread 29 = .ready (.holding 29 (1, 100)) ∧
      (s.data.buf 29).data = 9 ∧ contents Prod.snd s.trace (1, 100) = 9 := by
  obtain ⟨-, s, -, -, hreach, h30, h29, hdata⟩ := exists_recycled
  have hread := (reads_last_store hreach).2.1 29 29 (1, 100) h29
  exact ⟨s, h30, h29, hdata, hread.symm.trans hdata⟩

/-- The ring is intact.  `bget` finds the block; if no buffer has it, it recycles the unused
buffer that was given back first, and it panics if all buffers are in use. -/
theorem recycles_least_recent (hs : Reachable zero disk s) (k : Key) :
    (∃ l, Ring s.data l) ∧ ∃ r, bget k s.data = some r ∧
      ((∃ b, (s.data.buf b).key = k ∧ r = ⟨s.data.hit b, [], [], .ready (.wait b k)⟩) ∨
        (∃ b, (∀ a, (s.data.buf a).key ≠ k) ∧ (s.data.buf b).refcnt = 0 ∧
          (∀ a, (s.data.buf a).refcnt = 0 → lastFreed b s.trace ≤ lastFreed a s.trace) ∧
          r = ⟨s.data.recycle b k, [], [.recycled b], .ready (.wait b k)⟩) ∨
        (∀ a, (s.data.buf a).key ≠ k) ∧ (∀ a, 0 < (s.data.buf a).refcnt) ∧
          r = panic s.data "bget: no buffers") := by
  obtain ⟨l, F, hinv⟩ := invariant_of_reach hs
  obtain ⟨r, hr⟩ := exists_bget hinv.ring k
  refine ⟨⟨l, hinv.ring⟩, r, hr, ?_⟩
  cases got_of_bget hinv.ring hr with
  | hit b hb => exact .inl ⟨b, hb, rfl⟩
  | full hnone hused => exact .inr (.inr ⟨hnone, fun a => Nat.pos_of_ne_zero (hused a), rfl⟩)
  | recycle b l₁ l₂ hnone hb hl hused =>
      refine .inr (.inl ⟨b, hnone, hb, fun a ha => ?_, rfl⟩)
      have hmem := hinv.ring.all a
      have hrecent := hinv.recent
      rw [hl, List.mem_append, List.mem_cons] at hmem
      rw [hl] at hrecent
      rcases hmem with hmem | rfl | hmem
      · exact (List.pairwise_append.mp hrecent).2.2 a hmem b List.mem_cons_self
      · exact Nat.le_refl _
      · exact absurd ha (hused a hmem)

/-- Of the two unused buffers `bget` takes the one that was given back first. -/
theorem recycles_least_recent_crowded : ∃ s : Caches (Fin 31) ℕ,
    (s.data.buf 28).key = (1, 100) ∧ (s.data.buf 28).refcnt = 0 ∧
      (s.data.buf 29).refcnt = 0 ∧ (∃ l, Ring s.data l) ∧
      bget (1, 200) s.data =
        some ⟨s.data.recycle 28 (1, 200), [], [.recycled 28], .ready (.wait 28 (1, 200))⟩ := by
  obtain ⟨s, -, hreach, ⟨hkey, hr28, hr29, hnone, hunused, hfirst⟩, -⟩ := exists_recycled
  refine ⟨s, hkey, hr28, hr29, ?_⟩
  obtain ⟨hring, r, hr, ⟨b, hb, -⟩ | ⟨b, -, hb, hleast, rfl⟩ | ⟨-, hfull, -⟩⟩ :=
    recycles_least_recent hreach (1, 200)
  · exact absurd hb (hnone b)
  · have hb28 : b = 28 := by
      rcases hunused b hb with h | h
      · exact h
      · subst h
        exact absurd (hleast 28 hr28) (Nat.not_le.mpr hfirst)
    subst hb28
    exact ⟨hring, hr⟩
  · exact absurd hr28 (hfull 28).ne'

end

end ShellXv6.Xv6.BufferCache
