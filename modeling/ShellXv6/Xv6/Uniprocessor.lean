import ShellXv6.Xv6.ReadyOnce

/-!
# The kernel on one CPU

On one CPU the scheduler's scan and the boost run without interference, so the
queues stay in step with `p->queue`.  The runs are recorded: `arrivals` lists
the waiting processes in the order of their `enqueue`, and a boost lists those
of former level 0, then 1, 2 and 3, each in its own order.
-/

namespace ShellXv6.Xv6.Smp

/-- An `enqueue(level, slot)` that no dispatch has answered yet. -/
structure Arrival where
  slot : Slot
  level : ℤ
  deriving DecidableEq

structure Traced where
  state : State 1
  arrivals : List Arrival

def ofLevel (l : List Arrival) (q : Level) : List Arrival := l.filter fun e => e.level = q

/-- The order after a boost. -/
def boosted (l : List Arrival) : List Arrival :=
  ((List.finRange 4).flatMap (ofLevel l)).map fun e => ⟨e.slot, 0⟩

/-- What the next step from `s` adds to the record. -/
def record (s : State 1) (l : List Arrival) : List Arrival :=
  match (s.cpu 0).ctl with
  | .enqueue p _ => l ++ [⟨p, (s.proc p).queue⟩]
  | .enqueueYield p => l ++ [⟨p, (s.proc p).queue⟩]
  | .crit p (.schedule _) _ => l.filter fun e => e.slot ≠ p
  | .run (.boost k _) => if k < NPROC then l else boosted l
  | _ => l

def tracedStep (x : Traced) (a : Action 1) : Option Traced :=
  (step x.state a).map fun t => ⟨t, record x.state x.arrivals⟩

def TracedReachable (x : Traced) : Prop :=
  Run.Reach (· = ⟨State.boot 1, []⟩) tracedStep Run.Any x

/-! ## The invariant -/

def Cont.plain : Cont → Bool
  | .scan _ => false
  | .boost _ _ => false
  | _ => true

/-- The process that the scheduler has taken from a level and not dispatched yet. -/
def Ctl.taken : Ctl → Level → List (Option Slot)
  | .found i p, q => if i = q then [some p] else []
  | .crit p (.schedule i) _, q => if i = q then [some p] else []
  | _, _ => []

/-- How many levels the scheduler has found empty. -/
def Ctl.scanned : Ctl → ℕ
  | .run (.scan i) => i
  | .found i _ => i
  | .crit _ (.schedule i) _ => i
  | _ => 0

/-- How many slots a boost in progress has reset. -/
def Cont.reset : Cont → Option ℕ
  | .boost k _ => some k
  | _ => none

def Ctl.reset : Ctl → Option ℕ
  | .run k => k.reset
  | .crit p .boost _ => some p
  | .release _ k => k.reset
  | _ => none

theorem Cont.reset_of_plain {k : Cont} (h : k.plain = true) : k.reset = none := by
  cases k <;> first
    | rfl
    | cases h

/-- The scheduler's scan and the boost go on where their sections return to. -/
def Ctl.Shape : Ctl → Prop
  | .crit _ (.schedule i) k => k = .scan i
  | .crit p .boost k => ∃ ft, k = .boost (p + 1) ft
  | .crit _ _ k => k.plain = true
  | .enqueue _ k => k.plain = true
  | .release p k => k.plain = true ∨ ∃ ft, k = .boost (p + 1) ft
  | _ => True

structure Uni (x : Traced) : Prop where
  shape : (x.state.cpu 0).ctl.Shape
  bound : ∀ e ∈ x.arrivals, 0 ≤ e.level ∧ e.level ≤ 3
  order : ∀ q, (ofLevel x.arrivals q).map (fun e => some e.slot) =
    (x.state.cpu 0).ctl.taken q ++ x.state.mlfq.list q
  levels : (x.state.cpu 0).ctl.reset = none →
    ∀ e ∈ x.arrivals, (x.state.proc e.slot).queue = e.level
  reset : ∀ j, (x.state.cpu 0).ctl.reset = some j →
    ∀ p : Slot, p.val < j → (x.state.proc p).queue = 0
  scan : ∀ q : Level, q.val < (x.state.cpu 0).ctl.scanned → x.state.mlfq.list q = []

/-- A step that leaves the queues and the record alone. -/
theorem Uni.frame {x : Traced} (h : Uni x) {t : State 1} (hmlfq : t.mlfq = x.state.mlfq)
    (hshape : (t.cpu 0).ctl.Shape)
    (htaken : ∀ q, (t.cpu 0).ctl.taken q = (x.state.cpu 0).ctl.taken q)
    (hlevels : (t.cpu 0).ctl.reset = none → (x.state.cpu 0).ctl.reset = none ∧
      ∀ e ∈ x.arrivals, (t.proc e.slot).queue = (x.state.proc e.slot).queue)
    (hreset : ∀ j, (t.cpu 0).ctl.reset = some j → ∀ p : Slot, p.val < j → (t.proc p).queue = 0)
    (hscan : (t.cpu 0).ctl.scanned ≤ (x.state.cpu 0).ctl.scanned) : Uni ⟨t, x.arrivals⟩ where
  shape := hshape
  bound := h.bound
  order q := by
    change _ = (t.cpu 0).ctl.taken q ++ t.mlfq.list q
    rw [htaken, hmlfq]
    exact h.order q
  levels hnone := by
    intro e he
    obtain ⟨hold, hsame⟩ := hlevels hnone
    exact (hsame e he).trans (h.levels hold e he)
  reset := hreset
  scan q hq := by
    change t.mlfq.list q = []
    rw [hmlfq]
    exact h.scan q (hq.trans_le hscan)

theorem Uni.taken_or_stored {x : Traced} (h : Uni x) {e : Arrival} (he : e ∈ x.arrivals) :
    ∃ q : Level, e.level = q ∧
      some e.slot ∈ (x.state.cpu 0).ctl.taken q ++ x.state.mlfq.list q := by
  obtain ⟨hlow, hhigh⟩ := h.bound e he
  have hlevel : e.level = ((⟨e.level.toNat, by omega⟩ : Level) : ℤ) :=
    (Int.toNat_of_nonneg hlow).symm
  refine ⟨_, hlevel, ?_⟩
  rw [← h.order]
  exact List.mem_map.mpr ⟨e, List.mem_filter.mpr ⟨he, decide_eq_true hlevel⟩, rfl⟩

theorem Uni.runnable {x : Traced} (h : Uni x) (hinv : Inv x.state) {e : Arrival}
    (he : e ∈ x.arrivals) : (x.state.proc e.slot).state = .RUNNABLE := by
  obtain ⟨q, -, hmem⟩ := h.taken_or_stored he
  rcases List.mem_append.mp hmem with htaken | hlist
  · apply hinv.state_runnable (c := 0)
    cases hctl : (x.state.cpu 0).ctl with
    | crit p sec k => cases sec <;> simp_all [Ctl.taken, Ctl.readyTok]
    | _ => simp_all [Ctl.taken, Ctl.readyTok]
  · exact hinv.runnable_of_mem hlist

/-! ## Steps -/

attribute [local simp] acquire_eq_some_iff State.setCtl State.setCpu State.setProc State.setLock
  State.setForking State.reparent State.body

theorem runStep_plain {n : ℕ} {s t : State n} {c : Fin n} {k : Cont} {ch : Choice}
    (hctl : (s.cpu c).ctl = .run k) (hk : k.plain = true) (ht : runStep s c k ch = some t) :
    t.mlfq = s.mlfq ∧ (t.cpu c).ctl.Shape ∧ (∀ q, (t.cpu c).ctl.taken q = []) ∧
      (t.cpu c).ctl.scanned = 0 ∧
      ((t.cpu c).ctl.reset = none ∨ (t.cpu c).ctl.reset = some 0) := by
  revert ht
  fun_cases runStep s c k ch
  all_goals
    intro ht
    first
    | obtain ⟨-, rfl⟩ := acquire_eq_some_iff.mp ht
    | cases ht
  all_goals simp_all [Cont.plain, Ctl.Shape, Ctl.taken, Ctl.scanned, Ctl.reset, Cont.reset]
  case case42.refl ft _ _ => cases ft <;> simp [back]

theorem Uni.runPlain {x : Traced} (h : Uni x) {t : State 1} {k : Cont} {ch : Choice}
    (hctl : (x.state.cpu 0).ctl = .run k) (hk : k.plain = true)
    (ht : runStep x.state 0 k ch = some t) : Uni ⟨t, x.arrivals⟩ := by
  obtain ⟨hmlfq, hshape, htaken, hscanned, hreset⟩ := runStep_plain hctl hk ht
  have hqueue := (runStep_levels ht).1
  have hold : (x.state.cpu 0).ctl.reset = none := by
    rw [hctl]
    exact Cont.reset_of_plain hk
  refine h.frame hmlfq hshape ?_ ?_ ?_ ?_
  · intro q
    rw [htaken, hctl]
    rfl
  · exact fun _ => ⟨hold, fun e _ => hqueue e.slot⟩
  · intro j hj p hp
    rcases hreset with hreset | hreset
    · rw [hreset] at hj
      cases hj
    · rw [hreset] at hj
      cases hj
      cases hp
  · rw [hscanned]
    exact Nat.zero_le _

theorem critStep_plain {n : ℕ} {s t : State n} {c : Fin n} {p : Slot} {k : Cont} {sec : Section}
    {ch : Choice} (hctl : (s.cpu c).ctl = .crit p sec k) (hk : k.plain = true)
    (hsec : ∀ i, sec ≠ .schedule i) (hboost : sec ≠ .boost)
    (ht : critStep s c p k sec ch = some t) :
    (t.cpu c).ctl.Shape ∧ (∀ q, (t.cpu c).ctl.taken q = []) ∧ (t.cpu c).ctl.scanned = 0 ∧
      (t.cpu c).ctl.reset = none := by
  have hreset := Cont.reset_of_plain hk
  revert ht
  fun_cases critStep s c p k sec ch
  all_goals
    intro ht
    cases ht
  all_goals simp_all [Ctl.Shape, Ctl.taken, Ctl.scanned, Ctl.reset]

theorem Uni.crit {x : Traced} (h : Uni x) (hinv : Inv x.state) {t : State 1} {p : Slot}
    {sec : Section} {k : Cont} {ch : Choice} (hctl : (x.state.cpu 0).ctl = .crit p sec k)
    (hsec : ∀ i, sec ≠ .schedule i) (hboost : sec ≠ .boost)
    (ht : critStep x.state 0 p k sec ch = some t) : Uni ⟨t, x.arrivals⟩ := by
  have hk : k.plain = true := by
    have hshape := h.shape
    rw [hctl] at hshape
    cases sec <;> first
      | exact hshape
      | simp at hsec hboost
  obtain ⟨hshape, htaken, hscanned, hreset⟩ := critStep_plain hctl hk hsec hboost ht
  obtain ⟨hmlfq, hqueue⟩ := critStep_levels hinv hctl ht
  refine h.frame hmlfq hshape ?_ ?_ ?_ ?_
  · intro q
    rw [htaken, hctl]
    cases sec <;> simp_all [Ctl.taken]
  · intro _
    refine ⟨by rw [hctl]; cases sec <;> simp_all [Ctl.reset], fun e he => ?_⟩
    rcases hqueue e.slot with hsame | ⟨heq, hstate | ⟨hb, -⟩⟩
    · exact hsame
    · exact absurd (heq ▸ h.runnable hinv he) hstate
    · exact absurd hb hboost
  · intro j hj
    rw [hreset] at hj
    cases hj
  · rw [hscanned]
    exact Nat.zero_le _

/-! ### The boost -/

theorem Uni.boostAcquire {x : Traced} (h : Uni x) {t : State 1} {k : ℕ} {ft : Bool}
    (hctl : (x.state.cpu 0).ctl = .run (.boost k ft)) (hk : k < NPROC)
    (ht : x.state.acquire 0 ⟨k, hk⟩ .boost (.boost (k + 1) ft) = some t) :
    Uni ⟨t, x.arrivals⟩ := by
  have hreset := h.reset k (by rw [hctl]; rfl)
  obtain ⟨-, rfl⟩ := acquire_eq_some_iff.mp ht
  refine h.frame rfl ?_ ?_ ?_ ?_ ?_
  · exact ⟨ft, rfl⟩
  · intro q
    rw [hctl]
    rfl
  · intro hnone
    cases hnone
  · intro j hj
    cases hj
    exact hreset
  · exact Nat.zero_le _

theorem Uni.boostReset {x : Traced} (h : Uni x) {t : State 1} {p : Slot} {k : Cont} {ch : Choice}
    (hctl : (x.state.cpu 0).ctl = .crit p .boost k)
    (ht : critStep x.state 0 p k .boost ch = some t) : Uni ⟨t, x.arrivals⟩ := by
  have hreset := h.reset p (by rw [hctl]; rfl)
  obtain ⟨ft, rfl⟩ : ∃ ft, k = .boost (p + 1) ft := by
    have hshape := h.shape
    rwa [hctl] at hshape
  cases ch <;> simp only [critStep, reduceCtorEq, Option.some.injEq] at ht
  subst ht
  refine h.frame rfl ?_ ?_ ?_ ?_ ?_
  · exact .inr ⟨ft, rfl⟩
  · intro q
    rw [hctl]
    rfl
  · intro hnone
    cases hnone
  · intro j hj r hr
    cases hj
    by_cases hrp : r = p
    · subst hrp
      simp [Proc.boost]
    · have hlt : r.val < p.val := by
        have hne : r.val ≠ p.val := fun heq => hrp (Fin.ext heq)
        omega
      simpa [hrp] using hreset r hlt
  · exact Nat.zero_le _

theorem map_slot_boosted (l : List Arrival) (m : Queues)
    (h : ∀ q, (ofLevel l q).map (fun e => some e.slot) = m.list q) :
    (boosted l).map (fun e => some e.slot) = m.all := by
  simp only [boosted, List.map_map, List.map_flatMap, Queues.all]
  apply List.flatMap_congr
  intro q _
  exact h q

theorem Uni.rebuild {x : Traced} (h : Uni x) {k : ℕ} {ft : Bool} {m : Queues}
    (hctl : (x.state.cpu 0).ctl = .run (.boost k ft)) (hk : NPROC ≤ k)
    (hm : x.state.mlfq.rebuild = .ok m) :
    Uni ⟨{ x.state with mlfq := m }.setCtl 0 (.run (back ft)), boosted x.arrivals⟩ := by
  obtain ⟨hzero, hrest⟩ := Queues.rebuild_ok hm
  have hlevel : ∀ e ∈ boosted x.arrivals, e.level = 0 := by
    intro e he
    obtain ⟨e', -, rfl⟩ := List.mem_map.mp he
    rfl
  have horder : ∀ q, (ofLevel x.arrivals q).map (fun e => some e.slot) = x.state.mlfq.list q := by
    intro q
    have hq := h.order q
    rwa [hctl] at hq
  have hplain : (back ft).plain = true := by cases ft <;> rfl
  constructor
  · simp [Ctl.Shape]
  · intro e he
    rw [hlevel e he]
    decide
  · intro q
    have htaken : (Ctl.run (back ft)).taken q = [] := rfl
    by_cases hq : q = 0
    · subst hq
      have hall : ofLevel (boosted x.arrivals) 0 = boosted x.arrivals := by
        refine List.filter_eq_self.mpr fun e he => ?_
        simp [hlevel e he]
      rw [hall, map_slot_boosted x.arrivals x.state.mlfq horder]
      simp [htaken, hzero]
    · have hnil : ofLevel (boosted x.arrivals) q = [] := by
        refine List.filter_eq_nil_iff.mpr fun e he hlev => ?_
        rw [hlevel e he] at hlev
        exact hq (Fin.ext (by simpa using (of_decide_eq_true hlev).symm))
      rw [hnil]
      simp [htaken, hrest q hq]
  · intro _ e he
    rw [hlevel e he]
    exact h.reset k (by rw [hctl]; rfl) e.slot (e.slot.isLt.trans_le hk)
  · intro j hj
    simp [Ctl.reset, Cont.reset_of_plain hplain] at hj
  · intro q hq
    cases ft <;> simp [Ctl.scanned, back] at hq

/-! ### The scheduler -/

theorem Uni.scanStep {x : Traced} (h : Uni x) (hinv : Inv x.state) {t : State 1} {i : ℕ}
    {ch : Choice} (hctl : (x.state.cpu 0).ctl = .run (.scan i))
    (ht : runStep x.state 0 (.scan i) ch = some t) : Uni ⟨t, x.arrivals⟩ := by
  have hlevels := h.levels (by rw [hctl]; rfl)
  have hscan : ∀ q : Level, q.val < i → x.state.mlfq.list q = [] := by
    intro q hq
    exact h.scan q (by rw [hctl]; exact hq)
  have horder : ∀ q, (ofLevel x.arrivals q).map (fun e => some e.slot) = x.state.mlfq.list q := by
    intro q
    have hq := h.order q
    rwa [hctl] at hq
  cases ch <;> simp only [runStep, reduceCtorEq] at ht
  by_cases hi : i < 4
  · rw [dif_pos hi] at ht
    by_cases hempty : x.state.mlfq.list ⟨i, hi⟩ = []
    · rw [Queues.dequeue_nil hempty] at ht
      cases ht
      constructor
      · trivial
      · exact h.bound
      · exact horder
      · exact fun _ => hlevels
      · intro j hj
        cases hj
      · intro q hq
        have hlt : q.val < i + 1 := hq
        rcases Nat.lt_succ_iff_lt_or_eq.mp hlt with hlt | heq
        · exact hscan q hlt
        · have hqi : q = ⟨i, hi⟩ := Fin.ext heq
          exact hqi ▸ hempty
    · obtain ⟨y, r, hdeq, hlist⟩ := Queues.dequeue_cons hempty
      rw [hdeq] at ht
      cases y with
      | none => exact absurd (hlist ▸ List.mem_cons_self) (hinv.nonnull ⟨i, hi⟩)
      | some p =>
          cases ht
          constructor
          · trivial
          · exact h.bound
          · intro q
            rw [horder q]
            by_cases hq : q = ⟨i, hi⟩
            · subst hq
              simp [hlist, Ctl.taken]
            · simp [Queues.list_update_of_ne _ _ hq, Ctl.taken, Ne.symm hq]
          · exact fun _ => hlevels
          · intro j hj
            cases hj
          · intro q hq
            have hlt : q.val < i := hq
            have hne : q ≠ ⟨i, hi⟩ := fun heq => hlt.ne (congrArg Fin.val heq)
            change Queues.list (Function.update x.state.mlfq ⟨i, hi⟩ r) q = []
            rw [Queues.list_update_of_ne _ _ hne]
            exact hscan q hlt
  · rw [dif_neg hi] at ht
    cases ht
    refine h.frame rfl trivial ?_ ?_ ?_ (Nat.zero_le _)
    · intro q
      rw [hctl]
      rfl
    · exact fun _ => ⟨by rw [hctl]; rfl, fun _ _ => rfl⟩
    · intro j hj
      cases hj

theorem Uni.foundStep {x : Traced} (h : Uni x) {i : Level} {p : Slot}
    (hctl : (x.state.cpu 0).ctl = .found i p) :
    Uni ⟨(x.state.setLock p (some 0)).setCtl 0 (.crit p (.schedule i) (.scan i)), x.arrivals⟩ := by
  refine h.frame rfl rfl ?_ ?_ ?_ ?_
  · intro q
    rw [hctl]
    rfl
  · exact fun _ => ⟨by rw [hctl]; rfl, fun _ _ => rfl⟩
  · intro j hj
    cases hj
  · rw [hctl]
    exact le_rfl

/-- The process in the hands of the scheduler heads the record of its level. -/
theorem Uni.first {x : Traced} (h : Uni x) {i : Level} {p : Slot} {k : Cont}
    (hctl : (x.state.cpu 0).ctl = .crit p (.schedule i) k) :
    ∃ rest, ofLevel x.arrivals i = ⟨p, i⟩ :: rest ∧
      rest.map (fun e => some e.slot) = x.state.mlfq.list i := by
  have horder := h.order i
  rw [hctl] at horder
  simp only [Ctl.taken, if_true, List.singleton_append] at horder
  obtain ⟨e, rest, hcons, hslot, hrest⟩ := List.map_eq_cons_iff.mp horder
  have hlevel : e ∈ ofLevel x.arrivals i := hcons ▸ List.mem_cons_self
  refine ⟨rest, ?_, hrest⟩
  rw [hcons]
  congr 1
  obtain ⟨slot, level⟩ := e
  simp only [ofLevel, List.mem_filter, decide_eq_true_eq] at hlevel
  cases hslot
  rw [hlevel.2]

theorem Inv.not_mem_of_schedule {x : State 1} (hinv : Inv x) {i : Level} {p : Slot} {k : Cont}
    (hctl : (x.cpu 0).ctl = .crit p (.schedule i) k) (q : Level) : some p ∉ x.mlfq.list q := by
  intro hmem
  have hpos := (Queues.occ_pos_iff x.mlfq p).mpr ⟨q, hmem⟩
  have hready := hinv.ready p
  have hone := x.ind_le_one .RUNNABLE p
  simp [hctl, Ctl.readyTok] at hready
  omega

theorem ofLevel_filter (l : List Arrival) (f : Arrival → Bool) (q : Level) :
    ofLevel (l.filter f) q = (ofLevel l q).filter f := by
  simp only [ofLevel, List.filter_filter, Bool.and_comm]

theorem Uni.dispatch {x : Traced} (h : Uni x) (hinv : Inv x.state) {t : State 1} {p : Slot}
    {i : Level} {k : Cont} {ch : Choice} (hctl : (x.state.cpu 0).ctl = .crit p (.schedule i) k)
    (ht : critStep x.state 0 p k (.schedule i) ch = some t) :
    Uni ⟨t, x.arrivals.filter fun e => e.slot ≠ p⟩ := by
  have hstate := hinv.state_runnable (c := 0) (x := p) (by simp [hctl, Ctl.readyTok])
  cases ch <;> simp only [critStep, reduceCtorEq, if_pos hstate, Option.some.injEq] at ht
  subst ht
  have hkeep : ∀ e ∈ x.arrivals.filter fun e => e.slot ≠ p, e ∈ x.arrivals ∧ e.slot ≠ p := by
    intro e he
    simpa using he
  have hclear : ∀ (l : List Arrival) (q : Level),
      l.map (fun e => some e.slot) = x.state.mlfq.list q → l.filter (fun e => e.slot ≠ p) = l := by
    intro l q hl
    refine List.filter_eq_self.mpr fun e he => ?_
    have hmem : some e.slot ∈ x.state.mlfq.list q := hl ▸ List.mem_map_of_mem he
    have hne : e.slot ≠ p := by
      rintro rfl
      exact hinv.not_mem_of_schedule hctl q hmem
    simpa using hne
  constructor
  · trivial
  · exact fun e he => h.bound e (hkeep e he).1
  · intro q
    change _ = [] ++ x.state.mlfq.list q
    rw [List.nil_append, ofLevel_filter]
    by_cases hq : q = i
    · subst hq
      obtain ⟨rest, hfirst, hrest⟩ := h.first hctl
      rw [hfirst, List.filter_cons_of_neg (by simp), hclear rest q hrest, hrest]
    · have horder := h.order q
      rw [hctl] at horder
      simp only [Ctl.taken, if_neg (Ne.symm hq), List.nil_append] at horder
      rw [hclear _ q horder, horder]
  · intro _ e he
    obtain ⟨hmem, hne⟩ := hkeep e he
    have hlevel := h.levels (by rw [hctl]; rfl) e hmem
    simpa [Function.update_of_ne hne] using hlevel
  · intro j hj
    cases hj
  · intro q hq
    cases hq

/-! ### enqueue -/

theorem Uni.enqueue {x : Traced} (h : Uni x) {t : State 1} {p : Slot} {m : Queues}
    (hm : x.state.mlfq.enqueue (x.state.proc p).queue p = .ok m) (hmlfq : t.mlfq = m)
    (hqueue : ∀ y, (t.proc y).queue = (x.state.proc y).queue)
    (htaken : ∀ q, (x.state.cpu 0).ctl.taken q = []) (hreset : (x.state.cpu 0).ctl.reset = none)
    (hshape : (t.cpu 0).ctl.Shape) (htaken' : ∀ q, (t.cpu 0).ctl.taken q = [])
    (hreset' : (t.cpu 0).ctl.reset = none) (hscanned : (t.cpu 0).ctl.scanned = 0) :
    Uni ⟨t, x.arrivals ++ [⟨p, (x.state.proc p).queue⟩]⟩ := by
  obtain ⟨l, hl, r, rfl, hr⟩ := Queues.enqueue_ok hm
  constructor
  · exact hshape
  · intro e he
    rcases List.mem_append.mp he with he | he
    · exact h.bound e he
    · rw [List.mem_singleton.mp he]
      change 0 ≤ (x.state.proc p).queue ∧ (x.state.proc p).queue ≤ 3
      omega
  · intro q
    have horder := h.order q
    rw [htaken q, List.nil_append] at horder
    have happend : ofLevel (x.arrivals ++ [⟨p, (x.state.proc p).queue⟩]) q =
        ofLevel x.arrivals q ++ ofLevel [⟨p, (x.state.proc p).queue⟩] q := List.filter_append _ _
    change _ = (t.cpu 0).ctl.taken q ++ t.mlfq.list q
    rw [happend, List.map_append, horder, htaken' q, hmlfq, List.nil_append]
    by_cases hq : q = l
    · subst hq
      simp [ofLevel, hl, hr]
    · have hne : ¬ (l : ℤ) = (q : ℤ) := by
        intro heq
        exact hq (Fin.ext (by exact_mod_cast heq.symm))
      simp [ofLevel, hl, hne, Queues.list_update_of_ne _ _ hq]
  · intro _ e he
    change (t.proc e.slot).queue = e.level
    rw [hqueue]
    rcases List.mem_append.mp he with he | he
    · exact h.levels hreset e he
    · rw [List.mem_singleton.mp he]
  · intro j hj
    change (t.cpu 0).ctl.reset = some j at hj
    rw [hreset'] at hj
    cases hj
  · intro q hq
    change q.val < (t.cpu 0).ctl.scanned at hq
    rw [hscanned] at hq
    cases hq

/-! ### All steps -/

theorem Uni.release {x : Traced} (h : Uni x) {p : Slot} {k : Cont}
    (hctl : (x.state.cpu 0).ctl = .release p k) :
    Uni ⟨(x.state.setLock p none).setCtl 0 (.run k), x.arrivals⟩ := by
  have hshape : k.plain = true ∨ ∃ ft, k = .boost (p + 1) ft := by
    have hshape := h.shape
    rwa [hctl] at hshape
  refine h.frame rfl trivial ?_ ?_ ?_ ?_
  · intro q
    rw [hctl]
    rfl
  · intro hnone
    exact ⟨by rw [hctl]; exact hnone, fun _ _ => rfl⟩
  · intro j hj
    exact h.reset j (by rw [hctl]; exact hj)
  · rcases hshape with hplain | ⟨ft, rfl⟩
    · cases k <;> first
        | exact Nat.zero_le _
        | cases hplain
    · exact Nat.zero_le _

/-- The steps in which the CPU leaves a process for the scheduler, or the
scheduler for a process. -/
theorem Uni.switch {x : Traced} (h : Uni x) {t : State 1} {k : Cont}
    (hk : k = .window ∨ k = .thread) (htaken : ∀ q, (x.state.cpu 0).ctl.taken q = [])
    (hreset : (x.state.cpu 0).ctl.reset = none)
    (hmlfq : t.mlfq = x.state.mlfq) (hctl : (t.cpu 0).ctl = .run k)
    (hqueue : ∀ y, (t.proc y).queue = (x.state.proc y).queue) : Uni ⟨t, x.arrivals⟩ := by
  refine h.frame hmlfq ?_ ?_ ?_ ?_ ?_
  · rw [hctl]
    trivial
  · intro q
    rw [hctl, htaken]
    rfl
  · exact fun _ => ⟨hreset, fun e _ => hqueue e.slot⟩
  · intro j hj
    rw [hctl] at hj
    rcases hk with rfl | rfl <;> cases hj
  · rw [hctl]
    rcases hk with rfl | rfl <;> exact Nat.zero_le _

theorem tracedStep_eq_some {x y : Traced} {a : Action 1} (h : tracedStep x a = some y) :
    step x.state a = some y.state ∧ y.arrivals = record x.state x.arrivals := by
  obtain ⟨t, ht, rfl⟩ := Option.map_eq_some_iff.mp h
  exact ⟨ht, rfl⟩

theorem TracedReachable.reachable {x : Traced} (hx : TracedReachable x) : Reachable x.state := by
  refine Run.Reach.invariant (P := fun x : Traced => Reachable x.state) hx ?_ ?_
  · rintro x rfl
    exact .start rfl
  · intro x a y _ hr _ hy
    exact Run.Reach.next hr trivial (tracedStep_eq_some hy).1

theorem uni_boot : Uni ⟨State.boot 1, []⟩ where
  shape := trivial
  bound _ he := nomatch he
  order _ := rfl
  levels _ _ he := nomatch he
  reset _ hj := nomatch hj
  scan _ _ := rfl

theorem uni_run {x : Traced} {t : State 1} {k : Cont} {ch : Choice} (h : Uni x)
    (hinv : Inv x.state) (hctl : (x.state.cpu 0).ctl = .run k)
    (ht : runStep x.state 0 k ch = some t) : Uni ⟨t, record x.state x.arrivals⟩ := by
  cases k with
  | scan i =>
      simp only [record, hctl]
      exact h.scanStep hinv hctl ht
  | boost k ft =>
      simp only [record, hctl]
      cases ch <;> simp only [runStep, reduceCtorEq] at ht
      by_cases hk : k < NPROC
      · rw [dif_pos hk] at ht
        rw [if_pos hk]
        exact h.boostAcquire hctl hk ht
      · obtain ⟨m, hm⟩ := Queues.rebuild_isOk hinv.length_all_le
        rw [dif_neg hk, hm] at ht
        rw [if_neg hk]
        cases ht
        exact h.rebuild hctl (Nat.le_of_not_lt hk) hm
  | _ =>
      simp only [record, hctl]
      exact h.runPlain hctl rfl ht

theorem uni_crit {x : Traced} {t : State 1} {p : Slot} {sec : Section} {k : Cont} {ch : Choice}
    (h : Uni x) (hinv : Inv x.state) (hctl : (x.state.cpu 0).ctl = .crit p sec k)
    (ht : critStep x.state 0 p k sec ch = some t) : Uni ⟨t, record x.state x.arrivals⟩ := by
  cases sec with
  | schedule i =>
      simp only [record, hctl]
      exact h.dispatch hinv hctl ht
  | boost =>
      simp only [record, hctl]
      exact h.boostReset hctl ht
  | _ =>
      simp only [record, hctl]
      exact h.crit hinv hctl (by simp) (by simp) ht

theorem uni_step {x : Traced} {t : State 1} {a : Action 1} (h : Uni x) (hr : Reachable x.state)
    (ht : step x.state a = some t) : Uni ⟨t, record x.state x.arrivals⟩ := by
  obtain ⟨hinv, -, -⟩ := hr.invariants
  obtain ⟨c, ch⟩ := a
  obtain rfl : c = 0 := Subsingleton.elim c 0
  cases (steps_of_step ht).2 with
  | run hctl ht => exact uni_run h hinv hctl ht
  | crit hctl ht => exact uni_crit h hinv hctl ht
  | found hctl =>
      simp only [record, hctl]
      exact h.foundStep hctl
  | enqueue hctl hm =>
      have hplain := h.shape
      rw [hctl] at hplain
      simp only [record, hctl]
      refine h.enqueue hm rfl (fun _ => rfl) ?_ ?_ (.inl hplain) (fun _ => rfl)
        (Cont.reset_of_plain hplain) rfl
      · simp [hctl, Ctl.taken]
      · simp [hctl, Ctl.reset]
  | @enqueueYield p m hctl hm =>
      simp only [record, hctl]
      refine h.enqueue hm rfl ?_ ?_ ?_ trivial (fun _ => rfl) rfl rfl
      · intro y
        by_cases hy : y = p
        · subst hy
          simp [Proc.setContext]
        · simp [Function.update_of_ne hy]
      · simp [hctl, Ctl.taken]
      · simp [hctl, Ctl.reset]
  | enqueueFails hctl hm =>
      obtain ⟨m, hok⟩ := hinv.enqueue_isOk hctl
      cases hm.symm.trans hok
  | release hctl =>
      simp only [record, hctl]
      exact h.release hctl
  | swtch hctl =>
      simp only [record, hctl]
      refine h.switch (k := .window) (.inl rfl) ?_ ?_ rfl rfl fun _ => rfl
      · simp [hctl, Ctl.taken]
      · simp [hctl, Ctl.reset]
  | @resume p hctl =>
      simp only [record, hctl]
      refine h.switch (k := .thread) (.inr rfl) ?_ ?_ rfl rfl fun y => ?_
      · simp [hctl, Ctl.taken]
      · simp [hctl, Ctl.reset]
      · by_cases hy : y = p
        · subst hy
          simp [Proc.resume_queue]
        · simp [Function.update_of_ne hy]

theorem TracedReachable.uni {x : Traced} (hx : TracedReachable x) : Uni x := by
  refine Run.Reach.invariant (P := Uni) hx ?_ ?_
  · rintro x rfl
    exact uni_boot
  · intro x a y hr hu _ hy
    obtain ⟨hstep, harr⟩ := tracedStep_eq_some hy
    have hnext := uni_step hu (TracedReachable.reachable hr) hstep
    rwa [← harr] at hnext

end ShellXv6.Xv6.Smp
