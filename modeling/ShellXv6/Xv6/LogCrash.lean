import ShellXv6.Xv6.LogRun

/-!
# Crashes are atomic

The power fails at any time, also during a write, and recovery may be cut off as often as
one likes.  What a complete recovery then finds is the work of a set of operations, each
of them whole, that includes all operations that had ended before a `sync` that returned.
-/

namespace ShellXv6.Xv6.Log

open CrashDisk IntConversion Monitor

/-- The changes that a call has made. -/
def stores (es : List Event) : List (ℕ × Block) :=
  es.filterMap fun
    | .stored b v => some (b, v)
    | .began => none
    | .ended => none
    | .committed => none
    | .syncBegan => none
    | .synced => none

theorem stores_append (es es' : List Event) : stores (es ++ es') = stores es ++ stores es' :=
  List.filterMap_append

variable {ι : Type*}

/-! ## How far an operation is -/

/-- What an operation with the changes `ws` has done when it is at a place. -/
def Progress (ws : List (ℕ × Block)) (es : List Event) : Option Pc → Prop
  | some (.beginOp ws') => ws' = ws ∧ es = []
  | some (.body ws') => stores es ++ ws' = ws ∧ .ended ∉ es
  | some (.logWrite _ ws') => stores es ++ ws' = ws ∧ .ended ∉ es
  | pc => (∀ q ∈ pc, q.role = .committer) ∧ stores es = ws

section

variable {ws : List (ℕ × Block)} {es : List Event} {pc : Pc} {start : ℕ} {f : Fs} {r : LogTurn}
  {i : ι}

theorem progress_committer {pc : Option Pc} (hpc : ∀ q ∈ pc, q.role = .committer) :
    Progress ws es pc ↔ stores es = ws := by
  cases pc with
  | none => exact and_iff_right hpc
  | some pc =>
      have hrole := hpc pc rfl
      cases pc with
      | beginOp ws' => cases hrole
      | body ws' => cases hrole
      | logWrite b ws' => cases hrole
      | sync => cases hrole
      | syncWait n => cases hrole
      | evict b => cases hrole
      | commit => exact and_iff_right hpc
      | writeLog tail => exact and_iff_right hpc
      | writeHead => exact and_iff_right hpc
      | install tail => exact and_iff_right hpc
      | clearHead => exact and_iff_right hpc
      | endCommit => exact and_iff_right hpc

/-- The commit changes nothing, and goes on to its end. -/
theorem committer_turn (hpc : pc.role = .committer) (hr : turn start i pc f () = some r) :
    stores r.events = [] ∧ ∀ q ∈ r.thread.pc, q.role = .committer := by
  cases turns_of_turn hr with
  | full | began | endPanics | endedLast | ended | stored => cases hpc
  | logPanics | logged | syncWaits | syncs | waits | synced | evicted => cases hpc
  | commitEnds => exact ⟨rfl, fun q hq => absurd hq (Option.not_mem_none q)⟩
  | commits | commitsNothing | copied | copiedAll =>
      exact ⟨rfl, fun q hq => Option.some.inj hq ▸ rfl⟩
  | headWritten | installed | installedAll | headCleared =>
      exact ⟨rfl, fun q hq => Option.some.inj hq ▸ rfl⟩

theorem Progress.commit_turn (hpc : pc.role = .committer) (h : Progress ws es (some pc))
    (hr : turn start i pc f () = some r) : Progress ws (es ++ r.events) r.thread.pc := by
  obtain ⟨hnone, hgo⟩ := committer_turn hpc hr
  rw [progress_committer hgo, stores_append, hnone, List.append_nil]
  exact (progress_committer fun q hq => Option.some.inj hq ▸ hpc).mp h

/-- An operation that is not in progress has not begun or has made all its changes. -/
theorem Progress.whole {pc : Option Pc} (h : Progress ws es pc) (hpc : (roleOf pc).todo = none) :
    stores es = [] ∧ .ended ∉ es ∨ stores es = ws := by
  cases pc with
  | none => exact .inr h.2
  | some pc =>
      cases pc with
      | beginOp ws' =>
          obtain ⟨-, rfl⟩ := h
          exact .inl ⟨rfl, by simp⟩
      | body ws' => cases hpc
      | logWrite b ws' => cases hpc
      | sync => exact .inr h.2
      | syncWait n => exact .inr h.2
      | evict b => exact .inr h.2
      | commit => exact .inr h.2
      | writeLog tail => exact .inr h.2
      | writeHead => exact .inr h.2
      | install tail => exact .inr h.2
      | clearHead => exact .inr h.2
      | endCommit => exact .inr h.2

theorem Progress.turn (h : Progress ws es (some pc)) (hr : turn start i pc f () = some r)
    (hcalm : r.data.panicked = none) : Progress ws (es ++ r.events) r.thread.pc := by
  cases turns_of_turn hr with
  | full ws' => exact ⟨h.1, by rw [h.2]; rfl⟩
  | began ws' =>
      obtain ⟨rfl, rfl⟩ := h
      exact ⟨rfl, by simp⟩
  | endPanics | logPanics => cases hcalm
  | endedLast =>
      exact ⟨fun q hq => Option.some.inj hq ▸ rfl, (stores_append es [.ended]).trans h.1⟩
  | ended =>
      exact ⟨fun q hq => absurd hq (Option.not_mem_none q), (stores_append es [.ended]).trans h.1⟩
  | stored b v ws' =>
      obtain ⟨hws, hended⟩ := h
      refine ⟨?_, by simpa using hended⟩
      rw [← hws, stores_append, List.append_assoc]
      rfl
  | logged b ws' =>
      rw [List.append_nil]
      exact h
  | syncWaits | syncs | waits | synced | evicted => cases h.1 _ rfl
  | commits | commitsNothing | copied | copiedAll | headWritten => exact h.commit_turn rfl hr
  | installed | installedAll | headCleared | commitEnds => exact h.commit_turn rfl hr

end

/-! ## What has been committed -/

theorem before_of_append {α : Type*} {x y : α} {l es : List α} (h : [x, y].Sublist (l ++ es))
    (hy : y ∉ es) : [x, y].Sublist l := by
  obtain ⟨l₁, l₂, heq, h₁, h₂⟩ := List.sublist_append_iff.mp h
  rcases List.eq_nil_or_concat l₂ with rfl | ⟨m, z, rfl⟩
  · rw [List.append_nil] at heq
    exact heq ▸ h₁
  · have hz : z = y := by
      have hlast := congrArg List.getLast? heq
      simpa [eq_comm] using hlast
    exact absurd (h₂.subset (by simp [hz])) hy

/-- The commit point of a commit lies ahead. -/
def Pc.ahead : Pc → Bool
  | .commit => true
  | .writeLog _ => true
  | .writeHead => true
  | .beginOp _ => false
  | .body _ => false
  | .logWrite _ _ => false
  | .install _ => false
  | .clearHead => false
  | .endCommit => false
  | .sync => false
  | .syncWait _ => false
  | .evict _ => false

theorem Pc.role_of_ahead {pc : Pc} (h : pc.ahead) : pc.role = .committer := by
  cases pc with
  | commit => rfl
  | writeLog tail => rfl
  | writeHead => rfl
  | beginOp ws => cases h
  | body ws => cases h
  | logWrite b ws => cases h
  | install tail => cases h
  | clearHead => cases h
  | endCommit => cases h
  | sync => cases h
  | syncWait n => cases h
  | evict b => cases h

theorem Pc.role_of_nextWrite {pc : Pc} {start : ℕ} {f : Fs} {w : Write}
    (h : nextWrite start f pc = some w) : pc.role = .committer := by
  cases pc with
  | writeLog tail => rfl
  | writeHead => rfl
  | install tail => rfl
  | clearHead => rfl
  | commit => rfl
  | endCommit => rfl
  | beginOp ws => cases h
  | body ws => cases h
  | logWrite b ws => cases h
  | sync => cases h
  | syncWait n => cases h
  | evict b => cases h

/-- Only the call that commits can have the commit point ahead. -/
theorem Invariant.not_ahead {start : ℕ} {d : Disk} {f : Fs} {tr : List (ι × Event)}
    {pcs : ι → Option Pc} {F : Finset ι} {c : Option ι} (hinv : Invariant start d f tr pcs F c)
    (hc : ∀ j q, c = some j → pcs j = some q → q.ahead = false) (j : ι) (q : Pc)
    (hj : pcs j = some q) : q.ahead = false := by
  cases hq : q.ahead with
  | false => rfl
  | true =>
      obtain ⟨hcj, -, -⟩ := hinv.committer hj (Pc.role_of_ahead hq)
      exact hq.symm.trans (hc j q hcj hj)

/-- Whatever ended before `sync` was called is in `kept`. -/
def Safe (tr kept : List (ι × Event)) (j : ι) : Prop :=
  ∀ i, [(i, Event.ended), (j, .syncBegan)].Sublist tr → (i, .ended) ∈ kept

theorem Safe.append {tr kept : List (ι × Event)} {es : List Event} {i j : ι}
    (h : Safe tr kept j) (hes : j = i → .syncBegan ∉ es) :
    Safe (tr ++ es.map fun e => (i, e)) kept j := by
  intro k hk
  refine h k (before_of_append hk ?_)
  simp only [List.mem_map, Prod.mk.injEq, not_exists, not_and]
  rintro e he rfl rfl
  exact hes rfl he

theorem committed_foldl {es : List Event} (hes : .committed ∉ es) (sp : Spec) :
    (es.foldl Spec.apply sp).committed = sp.committed := by
  induction es generalizing sp with
  | nil => rfl
  | cons e es ih =>
      obtain ⟨he, hes⟩ := not_or.mp (mt List.mem_cons.mpr hes)
      rw [List.foldl_cons, ih hes]
      cases e with
      | committed => exact absurd rfl he
      | began => rfl
      | stored b v => rfl
      | ended => rfl
      | syncBegan => rfl
      | synced => rfl

variable [DecidableEq ι] {start : ℕ} {d : Disk} {calls : ι → Call} {s : Logs ι}

theorem progress_of_reach (hs : Reachable start d calls s) (hclean : readHead (d start) = [])
    (hmodest : Modestly start calls) {i : ι} {ws : List (ℕ × Block)} (hi : calls i = .op ws) :
    Progress ws (s.own i) (s.pcs i) := by
  revert ws
  refine thread_invariant (P := fun i th es => ∀ {ws}, calls i = .op ws →
    Progress ws es th.pc) hs ?_ ?_ ?_ i
  · intro i ws hi
    rw [hi]
    exact ⟨rfl, rfl⟩
  · exact fun i chan pc es h => h
  · rintro s i pc ⟨⟩ r hr - h hready hturn ws hi
    obtain ⟨F, c, hinv⟩ := invariant_of_reach hr hclean hmodest
    obtain ⟨F', c', hinv'⟩ := hinv.turn (s.pcs_of_ready i _ hready) hturn
    exact (h hi).turn hturn hinv'.calm

/-- The work of an operation is in a trace as a whole or not at all. -/
def Whole (calls : ι → Call) (tr : List (ι × Event)) : Prop :=
  ∀ i ws, calls i = .op ws →
    stores (eventsOf i tr) = [] ∧ (i, .ended) ∉ tr ∨ stores (eventsOf i tr) = ws

/-- The events `kept` of a trace are those before the last commit point. -/
structure Cut (calls : ι → Call) (d : Disk) (f : Fs) (tr : List (ι × Event))
    (pcs : ι → Option Pc) (kept : List (ι × Event)) : Prop where
  cut : kept <+: tr
  whole : Whole calls kept
  state : (specOf d (tr.map Prod.snd)).committed = (specOf d (kept.map Prod.snd)).pending
  ended : ∀ i, (i, .ended) ∈ tr → (i, .ended) ∈ kept ∨ 0 < f.outstanding ∨
    ∃ j pc, pcs j = some pc ∧ pc.ahead
  waits : ∀ j n, pcs j = some (.syncWait n) → f.ncommit < n ∨ Safe tr kept j
  synced : ∀ j, (j, .synced) ∈ tr → pcs j = none ∧ Safe tr kept j

namespace Cut

variable {f f' : Fs} {tr kept : List (ι × Event)} {pcs : ι → Option Pc} {i : ι} {pc : Pc}
  {pc' : Option Pc} {es : List Event}

/-- What has to be checked for a turn that does not pass the commit point. -/
theorem frame (h : Cut calls d f tr pcs kept) (hi : pcs i = some pc) (hes : .committed ∉ es)
    (hended : ∀ k, (k, .ended) ∈ tr ++ es.map (fun e => (i, e)) → (k, .ended) ∈ kept ∨
      0 < f'.outstanding ∨ ∃ j pc, Function.update pcs i pc' j = some pc ∧ pc.ahead)
    (hwaits : ∀ j n, f.ncommit < n → f'.ncommit < n ∨ Safe tr kept j)
    (hwait : ∀ n, pc' = some (.syncWait n) →
      f'.ncommit < n ∨ Safe (tr ++ es.map fun e => (i, e)) kept i)
    (hsynced : .synced ∈ es → pc' = none ∧ Safe (tr ++ es.map fun e => (i, e)) kept i) :
    Cut calls d f' (tr ++ es.map fun e => (i, e)) (Function.update pcs i pc') kept where
  cut := h.cut.trans (List.prefix_append tr _)
  whole := h.whole
  state := by
    rw [specOf_append, committed_foldl hes, h.state]
  ended := hended
  waits := by
    intro j n hj
    by_cases hji : j = i
    · subst hji
      rw [Function.update_self] at hj
      exact hwait n hj
    · rw [Function.update_of_ne hji] at hj
      rcases h.waits j n hj with hlt | hsafe
      · exact (hwaits j n hlt).imp_right fun hsafe => hsafe.append fun h => absurd h hji
      · exact .inr (hsafe.append fun h => absurd h hji)
  synced := by
    intro j hj
    rcases List.mem_append.mp hj with hj | hj
    · obtain ⟨hnone, hsafe⟩ := h.synced j hj
      have hji : j ≠ i := by
        rintro rfl
        cases hnone.symm.trans hi
      rw [Function.update_of_ne hji]
      exact ⟨hnone, hsafe.append fun h => absurd h hji⟩
    · obtain ⟨e, he, heq⟩ := List.mem_map.mp hj
      cases heq
      rw [Function.update_self]
      exact hsynced he

/-- An operation that has ended stays safe while the commit that it waits for goes on. -/
theorem ended_update (h : Cut calls d f tr pcs kept) (hi : pcs i = some pc)
    (hout : 0 < f.outstanding → 0 < f'.outstanding)
    (hahead : pc.ahead → ∃ q, pc' = some q ∧ q.ahead) {k : ι} (hk : (k, .ended) ∈ tr) :
    (k, .ended) ∈ kept ∨ 0 < f'.outstanding ∨
      ∃ j q, Function.update pcs i pc' j = some q ∧ q.ahead := by
  rcases h.ended k hk with hkept | hpos | ⟨j, q, hj, hq⟩
  · exact .inl hkept
  · exact .inr (.inl (hout hpos))
  · refine .inr (.inr ?_)
    by_cases hji : j = i
    · subst hji
      cases hj.symm.trans hi
      obtain ⟨q', hq', hq''⟩ := hahead hq
      exact ⟨j, q', by rw [Function.update_self, hq'], hq''⟩
    · exact ⟨j, q, by rw [Function.update_of_ne hji, hj], hq⟩

/-- A turn without one of the events that matter here. -/
theorem quiet (h : Cut calls d f tr pcs kept) (hi : pcs i = some pc)
    (hes : ∀ e ∈ es, e = .began ∨ ∃ b v, e = .stored b v)
    (hout : 0 < f.outstanding → 0 < f'.outstanding) (hn : f'.ncommit = f.ncommit)
    (hahead : pc.ahead → ∃ q, pc' = some q ∧ q.ahead)
    (hwait : ∀ n, pc' = some (.syncWait n) → pc = .syncWait n) :
    Cut calls d f' (tr ++ es.map fun e => (i, e)) (Function.update pcs i pc') kept := by
  have hnot : ∀ e ∈ es, e ≠ .committed ∧ e ≠ .ended ∧ e ≠ .synced ∧ e ≠ .syncBegan := by
    intro e he
    rcases hes e he with rfl | ⟨b, v, rfl⟩ <;> simp
  apply h.frame hi
  · exact fun he => (hnot _ he).1 rfl
  · intro k hk
    rcases List.mem_append.mp hk with hk | hk
    · exact h.ended_update hi hout hahead hk
    · obtain ⟨e, he, heq⟩ := List.mem_map.mp hk
      cases heq
      exact absurd rfl (hnot _ he).2.1
  · intro j n hlt
    exact .inl (hn ▸ hlt)
  · intro n hpc'
    rw [hwait n hpc'] at hi
    exact (h.waits i n hi).imp (hn ▸ ·) fun hsafe => hsafe.append fun _ he => (hnot _ he).2.2.2 rfl
  · exact fun he => absurd rfl (hnot _ he).2.2.1

/-- A turn that passes the commit point. -/
theorem committed {q : Pc} (h : Cut calls d f tr pcs kept) (hi : pcs i = some pc)
    (hwhole : Whole calls (tr ++ [(i, .committed)])) :
    Cut calls d f' (tr ++ [(i, .committed)]) (Function.update pcs i (some q))
      (tr ++ [(i, .committed)]) := by
  have hsafe : ∀ j, Safe (tr ++ [(i, .committed)]) (tr ++ [(i, .committed)]) j :=
    fun j k hk => hk.subset List.mem_cons_self
  have hstate : specOf d ((tr ++ [(i, Event.committed)]).map Prod.snd) =
      Spec.apply (specOf d (tr.map Prod.snd)) Event.committed := specOf_append [Event.committed]
  refine ⟨List.prefix_refl _, hwhole, ?_, fun k hk => .inl hk, fun j n _ => .inr (hsafe j), ?_⟩
  · rw [hstate]
    rfl
  · intro j hj
    have hj' : (j, .synced) ∈ tr := by simpa using hj
    obtain ⟨hnone, -⟩ := h.synced j hj'
    have hji : j ≠ i := by
      rintro rfl
      cases hnone.symm.trans hi
    exact ⟨by rw [Function.update_of_ne hji, hnone], hsafe j⟩

/-- If nobody works and no commit point lies ahead, everything has been committed. -/
theorem all_ended (h : Cut calls d f tr pcs kept) (hout : f.outstanding = 0)
    (hahead : ∀ j pc, pcs j = some pc → pc.ahead = false) {k : ι} (hk : (k, .ended) ∈ tr) :
    (k, .ended) ∈ kept := by
  rcases h.ended k hk with hkept | hpos | ⟨j, q, hj, hq⟩
  · exact hkept
  · omega
  · rw [hahead j q hj] at hq
    cases hq

end Cut

section

variable {f : Fs} {tr kept : List (ι × Event)} {pcs : ι → Option Pc} {i : ι} {pc : Pc}
  {F : Finset ι} {c : Option ι}

theorem whole_of_idle (hprog : ∀ j ws, calls j = .op ws → Progress ws (eventsOf j tr) (pcs j))
    (hidle : ∀ j, (roleOf (pcs j)).todo = none) : Whole calls tr := by
  intro j ws hj
  exact ((hprog j ws hj).whole (hidle j)).imp_left fun h => ⟨h.1, mt mem_eventsOf.mpr h.2⟩

theorem Whole.committed (h : Whole calls tr) : Whole calls (tr ++ [(i, .committed)]) := by
  intro j ws hj
  have hlast : stores (eventsOf j [(i, .committed)]) = [] := by
    by_cases hij : i = j <;> simp [eventsOf, stores, hij]
  rw [eventsOf_append, stores_append, hlast, List.append_nil]
  exact (h j ws hj).imp_left fun hnone => ⟨hnone.1, by simpa using hnone.2⟩

theorem Cut.turn {r : LogTurn} (h : Cut calls d f tr pcs kept)
    (hinv : Invariant start d f tr pcs F c)
    (hprog : ∀ j ws, calls j = .op ws → Progress ws (eventsOf j tr) (pcs j))
    (hearly : f.ncommit < toInt (f.ncommit + 1)) (hi : pcs i = some pc)
    (hr : turn start i pc f () = some r) :
    ∃ kept', Cut calls d r.data (tr ++ r.events.map fun e => (i, e))
      (Function.update pcs i r.thread.pc) kept' := by
  have hidle : F = ∅ → ∀ j, (roleOf (pcs j)).todo = none := by
    intro hF j
    have hj := hinv.control.ops j
    rw [hF] at hj
    simpa using hj
  obtain ⟨_, _, hkept⟩ := hinv.turn hi hr
  cases turns_of_turn hr with
  | full | stored | logged | evicted =>
      exact ⟨kept, h.quiet hi (by simp) id rfl (by simp [Pc.ahead]) (by simp [Thread.pc])⟩
  | installed | installedAll | headCleared | waits =>
      exact ⟨kept, h.quiet hi (by simp [clearHead]) id rfl (by simp [Pc.ahead])
        (by simp [clearHead, Thread.pc])⟩
  | began =>
      exact ⟨kept, h.quiet hi (by simp) (fun _ => Nat.succ_pos _) rfl (by simp [Pc.ahead])
        (by simp [Thread.pc])⟩
  | commits | copied | copiedAll =>
      exact ⟨kept, h.quiet hi (by simp) id rfl (fun _ => ⟨_, rfl, rfl⟩) (by simp [Thread.pc])⟩
  | endPanics | logPanics => cases hkept.calm
  | endedLast =>
      refine ⟨kept, h.frame hi (by simp) ?_ (fun _ _ => .inl) (by simp [Thread.pc]) (by simp)⟩
      exact fun k _ => .inr (.inr ⟨i, .commit, Function.update_self .., rfl⟩)
  | ended hmore =>
      refine ⟨kept, h.frame hi (by simp) ?_ (fun _ _ => .inl) (by simp [Thread.pc]) (by simp)⟩
      exact fun k _ => .inr (.inl (Nat.pos_of_ne_zero hmore))
  | commitsNothing | headWritten =>
      obtain ⟨-, hF, -⟩ := hinv.committer hi rfl
      exact ⟨_, h.committed hi (whole_of_idle hprog (hidle hF)).committed⟩
  | commitEnds =>
      obtain ⟨hc, hF, -⟩ := hinv.committer hi rfl
      have hout : f.outstanding = 0 := by rw [← hinv.control.card, hF]; rfl
      have hahead := hinv.not_ahead fun j q hj hq => by
        cases hc.symm.trans hj
        cases hq.symm.trans hi
        rfl
      have hall : ∀ k, (k, .ended) ∈ tr → (k, .ended) ∈ kept := fun k => h.all_ended hout hahead
      refine ⟨kept, h.frame hi (by simp [endCommit]) ?_ ?_ (by simp [endCommit, Thread.pc])
        (by simp [endCommit])⟩
      · intro k hk
        exact .inl (hall k (by simpa [endCommit] using hk))
      · exact fun j n _ => .inr fun k hk => hall k (hk.subset List.mem_cons_self)
  | syncWaits =>
      refine ⟨kept, h.frame hi (by simp) ?_ (fun _ _ => .inl) ?_ (by simp)⟩
      · exact fun k hk => h.ended_update hi id (by simp [Pc.ahead]) (by simpa using hk)
      · rintro n ⟨⟩
        exact .inl hearly
  | syncs hfree =>
      obtain ⟨hcom, hout⟩ := hfree.resolve_right (Int.not_le.mpr hearly)
      have hnone : c = none := by simpa [hinv.control.committing] using hcom
      have hahead := hinv.not_ahead fun j q hj _ => by
        rw [hnone] at hj
        cases hj
      have hall : ∀ k, (k, .ended) ∈ tr ++ [(i, .syncBegan), (i, .synced)] →
          (k, .ended) ∈ kept := by
        intro k hk
        exact h.all_ended hout hahead (by simpa using hk)
      refine ⟨kept, h.frame hi (by simp) (fun k hk => .inl (hall k hk)) (fun _ _ => .inl)
        (by simp [Thread.pc]) ?_⟩
      exact fun _ => ⟨rfl, fun k hk => hall k (hk.subset List.mem_cons_self)⟩
  | synced n hn =>
      have hsafe := (h.waits i n hi).resolve_left (Int.not_lt.mpr hn)
      refine ⟨kept, h.frame hi (by simp) ?_ (fun _ _ => .inl) (by simp [Thread.pc]) ?_⟩
      · exact fun k hk => h.ended_update hi id (by simp [Pc.ahead]) (by simpa using hk)
      · exact fun _ => ⟨rfl, hsafe.append fun _ he => by simp at he⟩

end

theorem cut_of_reach (hs : EarlyReachable start d calls s) (hclean : readHead (d start) = [])
    (hmodest : Modestly start calls) : ∃ kept, Cut calls d s.data s.trace s.pcs kept := by
  apply pc_invariant (P := fun f tr pcs => ∃ kept, Cut calls d f tr pcs kept) hs
  · refine ⟨[], List.prefix_refl _, ?_, rfl, by simp, ?_, by simp⟩
    · exact fun i ws _ => .inl ⟨rfl, by simp⟩
    · intro j n hj
      cases hcall : calls j with
      | op ws => simp [hcall, Call.begin] at hj
      | sync => simp [hcall, Call.begin] at hj
      | evict b => simp [hcall, Call.begin] at hj
  · rintro s i pc ⟨⟩ r hr hearly ⟨kept, hcut⟩ hi hturn
    obtain ⟨F, c, hinv⟩ := invariant_of_reach hr.any hclean hmodest
    exact hcut.turn hinv (fun j ws hj => progress_of_reach hr.any hclean hmodest hj) hearly
      (s.pcs_of_ready i pc hi) hturn

/-! ## The power fails -/

/-- The disks that the power may leave: as they are between two writes, or with one write
of a commit done in part. -/
inductive Crashed (start : ℕ) (s : Logs ι) : Disk → Prop
  | between : Crashed start s s.data.disk
  | torn (i : ι) (pc : Pc) (w : Write) (done : Half → Bool) (hi : s.thread i = .ready pc)
      (hw : nextWrite start s.data pc = some w) : Crashed start s (w.torn done s.data.disk)

/-- The events that a disk stands for after a crash. -/
theorem kept_of_crash (hs : EarlyReachable start d calls s) (hclean : readHead (d start) = [])
    (hmodest : Modestly start calls) {d' : Disk} (hcrash : Crashed start s d') :
    ∃ kept, kept <+: s.trace ∧ Whole calls kept ∧
      (∀ j, (j, .synced) ∈ s.trace → Safe s.trace kept j) ∧ Sound start (readHead (d' start)) ∧
      ∀ b, ¬ InLog start b → meaning start d' b = (specOf d (kept.map Prod.snd)).pending b := by
  obtain ⟨F, c, hinv⟩ := invariant_of_reach hs.reachable hclean hmodest
  obtain ⟨kept, hcut⟩ := cut_of_reach hs hclean hmodest
  have hsafe : ∀ j, (j, .synced) ∈ s.trace → Safe s.trace kept j := fun j hj => (hcut.synced j hj).2
  cases hcrash with
  | between =>
      obtain ⟨hsound, hmeaning⟩ := hinv.data.meaning_eq
      refine ⟨kept, hcut.cut, hcut.whole, hsafe, hsound, fun b hb => ?_⟩
      rw [hmeaning b hb, hcut.state]
  | torn i pc w done hi hw =>
      obtain ⟨-, hF, hdata⟩ :=
        hinv.committer (s.pcs_of_ready i _ hi) (Pc.role_of_nextWrite hw)
      obtain ⟨hsound, hold | ⟨-, hnew⟩⟩ := hdata.torn hw (hinv.control.unlocked hF) done
      · refine ⟨kept, hcut.cut, hcut.whole, hsafe, hsound, fun b hb => ?_⟩
        rw [hold b hb, hcut.state]
      · -- the header reached the disk, so everything so far counts
        have hidle : ∀ j, (roleOf (s.pcs j)).todo = none := by
          intro j
          have hj := hinv.control.ops j
          rw [hF] at hj
          simpa using hj
        have hwhole : Whole calls s.trace :=
          whole_of_idle (fun j ws hj => progress_of_reach hs.reachable hclean hmodest hj) hidle
        refine ⟨s.trace, List.prefix_refl _, hwhole, ?_, hsound, hnew⟩
        exact fun j _ k hk => hk.subset List.mem_cons_self

/-- A crash loses no committed operation and keeps no operation in part, as long as the
counter of commits does not overflow.  After any number of recoveries, of which only the last
has to come to its end, the log is empty and the other blocks hold the changes in a beginning
of the run.  It has all changes of an operation or none of them, and all those of the
operations that ended before a `sync` that returned. -/
theorem crash_atomic (hs : EarlyReachable start d calls s) (hclean : readHead (d start) = [])
    (hmodest : Modestly start calls) {d₁ d₂ : Disk} (hcrash : Crashed start s d₁)
    (hrec : Recoveries start d₁ d₂) :
    ∃ kept, kept <+: s.trace ∧ readHead (recover start d₂ start) = [] ∧
      (∀ b, ¬ InLog start b →
        recover start d₂ b = (specOf d (kept.map Prod.snd)).pending b) ∧
      (∀ i ws, calls i = .op ws →
        stores (eventsOf i kept) = [] ∨ stores (eventsOf i kept) = ws) ∧
      ∀ i ws j, calls i = .op ws → [(i, Event.ended), (j, .syncBegan)].Sublist s.trace →
        (j, .synced) ∈ s.trace → stores (eventsOf i kept) = ws := by
  obtain ⟨kept, hkept, hwhole, hsafe, hsound, hmeaning⟩ := kept_of_crash hs hclean hmodest hcrash
  obtain ⟨hsound', hmeaning'⟩ := recoveries_meaning hsound hrec
  obtain ⟨hempty, hblocks⟩ := recover_complete hsound'
  refine ⟨kept, hkept, hempty, ?_, fun i ws hi => (hwhole i ws hi).imp_left And.left, ?_⟩
  · intro b hb
    rw [hblocks b hb, hmeaning' b hb, hmeaning b hb]
  · intro i ws j hi hbefore hsynced
    refine (hwhole i ws hi).resolve_left fun hnone => ?_
    exact hnone.2 (hsafe j hsynced i hbefore)

/-- Two operations are committed, and `sync`, called after the first of them, has returned.
The power fails while the header for another operation is written. -/
theorem crash_atomic_torn_header : ∃ s : Logs (Fin 5), ∃ d₁ : Disk, Crashed 2 s d₁ ∧
    s.thread 3 = .ready .writeHead ∧
    ∃ kept, kept <+: s.trace ∧ readHead (recover 2 d₁ 2) = [] ∧
      recover 2 d₁ 100 = (specOf blank (kept.map Prod.snd)).pending 100 ∧
      stores (eventsOf 0 kept) = [(100, fun _ _ => 7)] := by
  obtain ⟨s, hs, hi, hbefore, hsynced⟩ : ∃ s : Logs (Fin 5), EarlyReachable 2 blank fiveCalls s ∧
      s.thread 3 = .ready .writeHead ∧
      s.trace.take 5 = [(0, .began), (1, .began), (0, .stored 100 fun _ _ => 7), (0, .ended),
        (4, .syncBegan)] ∧ s.trace[9]? = some (4, .synced) :=
    ⟨_, Run.Reach.of_guarded (turns [0, 1, 0, 0, 0, 4, 1, 1, 1, 1, 1, 1, 1, 1, 1, 1, 1, 1, 1, 1, 1,
      4, 3, 3, 3, 3, 3, 3, 3]) (.start rfl) rfl, rfl, rfl, rfl⟩
  have hcrash := Crashed.torn (s := s) 3 .writeHead (headWrite 2 s.data.lh)
    (fun k => k = .first) hi rfl
  have hsublist : [((0 : Fin 5), Event.ended), (4, .syncBegan)].Sublist s.trace := by
    refine .trans ?_ (List.take_sublist 5 s.trace)
    rw [hbefore]
    exact .cons _ (.cons _ (.cons _ (.refl _)))
  obtain ⟨kept, hkept, hempty, hblocks, -, hsafe⟩ :=
    crash_atomic hs rfl modestly_fiveCalls hcrash (.none _)
  exact ⟨s, _, hcrash, hi, kept, hkept, hempty, hblocks 100 (by decide),
    hsafe 0 _ 4 rfl hsublist (List.mem_of_getElem? hsynced)⟩

end ShellXv6.Xv6.Log
