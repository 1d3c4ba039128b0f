import ShellXv6.Xv6.Uniprocessor

/-!
# Which process runs

On one CPU the scheduler dispatches the process that arrived first at the
smallest occupied level, and once a timer interrupt of a process has been
handled no runnable process is at a smaller level than the running one.
-/

namespace ShellXv6.Xv6.Smp

attribute [local simp] acquire_eq_some_iff State.setCtl State.setCpu State.setProc State.setLock
  State.setForking State.reparent State.body Function.update_apply

/-! ## Dispatch -/

theorem critStep_running {n : ℕ} {s t : State n} {c : Fin n} {p y : Slot} {k : Cont}
    {sec : Section} {ch : Choice} (ht : critStep s c p k sec ch = some t)
    (hold : (s.proc y).state ≠ .RUNNING) (hnew : (t.proc y).state = .RUNNING) :
    y = p ∧ ∃ i, sec = .schedule i := by
  revert ht
  fun_cases critStep s c p k sec ch
  all_goals
    intro ht
    cases ht
  all_goals by_cases hy : y = p
  all_goals simp_all +zetaDelta [Proc.setContext, Proc.allocproc, Proc.makeRunnable,
    Proc.freeproc, Proc.boost, Proc.yieldTick, Proc.sleep, Proc.kexit, Proc.setkilled,
    Proc.setParent, Proc.updateTime_state]

theorem runStep_state {n : ℕ} {s t : State n} {c : Fin n} {k : Cont} {ch : Choice}
    (ht : runStep s c k ch = some t) (y : Slot) : (t.proc y).state = (s.proc y).state := by
  revert ht
  fun_cases runStep s c k ch
  all_goals
    intro ht
    first
    | obtain ⟨-, rfl⟩ := acquire_eq_some_iff.mp ht
    | cases ht
  all_goals simp_all
  case case10.refl => split_ifs with hy <;> simp [hy, Proc.setParent]
  case case17 => split_ifs <;> rfl

/-- Only the scheduler makes a process run, and it holds that process. -/
theorem step_running {n : ℕ} {s t : State n} {a : Action n} (ht : step s a = some t) {p : Slot}
    (hold : (s.proc p).state ≠ .RUNNING) (hnew : (t.proc p).state = .RUNNING) :
    ∃ i k, (s.cpu a.cpu).ctl = .crit p (.schedule i) k := by
  cases (steps_of_step ht).2 with
  | run hctl ht => exact absurd ((runStep_state ht p).symm.trans hnew) hold
  | crit hctl ht =>
      obtain ⟨rfl, i, rfl⟩ := critStep_running ht hold hnew
      exact ⟨i, _, hctl⟩
  | @enqueueYield y m hctl hm =>
      by_cases hy : p = y <;> simp_all [Proc.setContext]
  | @resume y hctl =>
      by_cases hy : p = y
      · subst hy
        simp_all [Proc.resume_state]
      · simp_all
  | found | enqueue | enqueueFails | release | swtch => exact absurd hnew hold

theorem Ctl.taken_of_readyTok {ctl : Ctl} {r : Slot} (htok : ctl.readyTok r = 1)
    (henq : ∀ k, ctl ≠ .enqueue r k) (hyield : ctl ≠ .enqueueYield r) :
    ∃ q, ctl.taken q = [some r] := by
  cases ctl with
  | found i p =>
      obtain rfl : p = r := by simpa [Ctl.readyTok] using htok
      exact ⟨i, if_pos rfl⟩
  | crit p sec k =>
      cases sec with
      | schedule i =>
          obtain rfl : p = r := by simpa [Ctl.readyTok] using htok
          exact ⟨i, if_pos rfl⟩
      | _ => simp [Ctl.readyTok] at htok
  | _ => simp_all [Ctl.readyTok]

theorem Uni.mem_arrivals {x : Traced} (h : Uni x) (hinv : Inv x.state) {r : Slot}
    (hr : (x.state.proc r).state = .RUNNABLE)
    (henq : ∀ k, (x.state.cpu 0).ctl ≠ .enqueue r k)
    (hyield : (x.state.cpu 0).ctl ≠ .enqueueYield r) : ∃ e ∈ x.arrivals, e.slot = r := by
  have hready := hinv.ready r
  simp only [Finset.univ_unique, Fin.default_eq_zero, Finset.sum_singleton, State.ind, hr,
    tok_self] at hready
  have hmem : ∃ q, some r ∈ (x.state.cpu 0).ctl.taken q ++ x.state.mlfq.list q := by
    by_cases hocc : 0 < x.state.mlfq.occ r
    · obtain ⟨q, hq⟩ := (Queues.occ_pos_iff _ _).mp hocc
      exact ⟨q, List.mem_append_right _ hq⟩
    · have htok : (x.state.cpu 0).ctl.readyTok r = 1 := by omega
      obtain ⟨q, hq⟩ := Ctl.taken_of_readyTok htok henq hyield
      exact ⟨q, List.mem_append_left _ (hq ▸ List.mem_singleton_self _)⟩
  obtain ⟨q, hq⟩ := hmem
  rw [← h.order q] at hq
  obtain ⟨e, he, hslot⟩ := List.mem_map.mp hq
  exact ⟨e, List.mem_of_mem_filter he, Option.some.inj hslot⟩

/-- The scheduler holds the first arrival of the smallest level on record. -/
theorem Uni.schedule_least {x : Traced} (h : Uni x) {i : Level} {p : Slot} {k : Cont}
    (hctl : (x.state.cpu 0).ctl = .crit p (.schedule i) k) {e : Arrival} (he : e ∈ x.arrivals) :
    (i : ℤ) ≤ e.level := by
  obtain ⟨q, hq, hmem⟩ := h.taken_or_stored he
  rw [hq]
  by_contra hlt
  have hqi : q.val < i.val := by exact_mod_cast Int.not_le.mp hlt
  have hne : i ≠ q := fun heq => hqi.ne (congrArg Fin.val heq.symm)
  have hscan := h.scan q (by rw [hctl]; exact hqi)
  rw [hctl, hscan] at hmem
  simp [Ctl.taken, hne] at hmem

theorem Uni.schedule_level {x : Traced} (h : Uni x) {i : Level} {p : Slot} {k : Cont}
    (hctl : (x.state.cpu 0).ctl = .crit p (.schedule i) k) : (x.state.proc p).queue = i := by
  obtain ⟨rest, hfirst, -⟩ := h.first hctl
  have hmem : (⟨p, i⟩ : Arrival) ∈ ofLevel x.arrivals i := hfirst ▸ List.mem_cons_self
  exact h.levels (by rw [hctl]; rfl) ⟨p, i⟩ (List.mem_of_mem_filter hmem)

theorem Uni.schedule_best {x : Traced} (h : Uni x) (hinv : Inv x.state) {i : Level} {p : Slot}
    {k : Cont} (hctl : (x.state.cpu 0).ctl = .crit p (.schedule i) k) {r : Slot}
    (hr : (x.state.proc r).state = .RUNNABLE) :
    (x.state.proc p).queue ≤ (x.state.proc r).queue := by
  obtain ⟨e, he, rfl⟩ := h.mem_arrivals hinv hr (by simp [hctl]) (by simp [hctl])
  have hleast := h.schedule_least hctl he
  rwa [h.schedule_level hctl, h.levels (by rw [hctl]; rfl) e he]

theorem Uni.schedule_first {x : Traced} (h : Uni x) {i : Level} {p : Slot} {k : Cont}
    (hctl : (x.state.cpu 0).ctl = .crit p (.schedule i) k) :
    (x.arrivals.find? fun e => (x.state.proc e.slot).queue = (x.state.proc p).queue).map
      Arrival.slot = some p := by
  obtain ⟨rest, hfirst, -⟩ := h.first hctl
  have hsame : x.arrivals.filter (fun e => (x.state.proc e.slot).queue = (x.state.proc p).queue) =
      ofLevel x.arrivals i := by
    refine List.filter_congr fun e he => ?_
    rw [h.schedule_level hctl, h.levels (by rw [hctl]; rfl) e he]
  rw [← List.head?_filter, hsame, hfirst]
  rfl

/-! ## After a timer interrupt -/

def AtThread (x : Traced) : Prop := ∀ c, (x.state.cpu c).ctl = .run .thread

instance : DecidablePred AtThread := fun _ => inferInstanceAs (Decidable (∀ _, _))

/-- No runnable process is at a smaller level than the current one. -/
def Best (s : State 1) : Prop :=
  ∀ c me, (s.cpu c).proc = some me → ∀ r, (s.proc r).state = .RUNNABLE →
    (s.proc me).queue ≤ (s.proc r).queue

theorem best_iff {s : State 1} : Best s ↔ ∀ me, (s.cpu 0).proc = some me → ∀ r,
    (s.proc r).state = .RUNNABLE → (s.proc me).queue ≤ (s.proc r).queue :=
  Fin.forall_fin_one

theorem atThread_iff {x : Traced} : AtThread x ↔ (x.state.cpu 0).ctl = .run .thread :=
  Fin.forall_fin_one

theorem Best.congr {s t : State 1} (h : Best s) (hcpu : (t.cpu 0).proc = (s.cpu 0).proc)
    (hproc : ∀ y, (t.proc y).state = (s.proc y).state ∧ (t.proc y).queue = (s.proc y).queue) :
    Best t := by
  rw [best_iff] at h ⊢
  intro me hme r hr
  rw [hcpu] at hme
  rw [(hproc r).1] at hr
  rw [(hproc me).2, (hproc r).2]
  exact h me hme r hr

/-- Code of the scheduler and of interrupts that it takes. -/
def Ctl.Outside : Ctl → Prop
  | .run k => k.inThread = false
  | .crit _ .yield _ => False
  | .crit _ .yieldScan _ => False
  | .crit _ (.yieldDecide _) _ => False
  | .crit _ _ k => k.inThread = false
  | .enqueue _ k => k.inThread = false
  | .release _ k => k.inThread = false
  | .resume _ => False
  | _ => True

/-- Where the CPU can be between the start of `yield` and the next code of a process. -/
inductive Settling (s : State 1) : Prop
  | yield (p : Slot) (h : (s.cpu 0).ctl = .crit p .yield .thread)
  | scan (p : Slot) (h : (s.cpu 0).ctl = .crit p .yieldScan .thread)
  | decide (p : Slot)
      (h : (s.cpu 0).ctl = .crit p (.yieldDecide (s.mlfq.preempt (s.proc p).queue)) .thread)
  | outside (h : (s.cpu 0).ctl.Outside)
  | stay (p : Slot) (h : (s.cpu 0).ctl = .release p .thread) (hbest : Best s)
  | resume (p : Slot) (h : (s.cpu 0).ctl = .resume p) (hbest : Best s)
  | thread (h : (s.cpu 0).ctl = .run .thread) (hbest : Best s)

theorem runStep_outside {s t : State 1} {k : Cont} {ch : Choice} (hctl : (s.cpu 0).ctl = .run k)
    (hk : k.inThread = false) (ht : runStep s 0 k ch = some t) : (t.cpu 0).ctl.Outside := by
  revert ht
  fun_cases runStep s 0 k ch
  all_goals
    intro ht
    first
    | obtain ⟨-, rfl⟩ := acquire_eq_some_iff.mp ht
    | cases ht
  all_goals simp_all [Ctl.Outside, Cont.inThread, back]

theorem critStep_outside {s t : State 1} {p : Slot} {k : Cont} {sec : Section} {ch : Choice}
    (hctl : (s.cpu 0).ctl = .crit p sec k) (hout : (Ctl.crit p sec k).Outside)
    (hsec : ∀ i, sec ≠ .schedule i) (ht : critStep s 0 p k sec ch = some t) :
    (t.cpu 0).ctl.Outside := by
  revert ht
  fun_cases critStep s 0 p k sec ch
  all_goals
    intro ht
    cases ht
  all_goals simp_all [Ctl.Outside]

/-- The scheduler has switched to the best process. -/
theorem best_dispatch {x : Traced} (h : Uni x) (hinv : Inv x.state) {i : Level} {p : Slot}
    {k : Cont} (hctl : (x.state.cpu 0).ctl = .crit p (.schedule i) k) (now : ℕ) :
    Best ((x.state.setProc p ((x.state.proc p).dispatch now)).setCpu 0 ⟨some p, .resume p⟩) := by
  rw [best_iff]
  intro me hme r hr
  obtain rfl : p = me := by simpa using hme
  have hrp : r ≠ p := by
    rintro rfl
    simp [Proc.dispatch] at hr
  have hr' : (x.state.proc r).state = .RUNNABLE := by simpa [hrp] using hr
  simpa [hrp, Proc.dispatch] using h.schedule_best hinv hctl hr'

/-- `yield` keeps the CPU only if no smaller level is occupied. -/
theorem best_of_not_preempt {x : Traced} (h : Uni x) (hinv : Inv x.state) {p : Slot} {b : Bool}
    {k : Cont} (hctl : (x.state.cpu 0).ctl = .crit p (.yieldDecide b) k)
    (hpre : x.state.mlfq.preempt (x.state.proc p).queue = false) : Best x.state := by
  rw [best_iff]
  intro me hme r hr
  obtain ⟨-, hp⟩ := (hinv.wf 0).own hctl rfl
  obtain rfl : p = me := Option.some.inj (hp.symm.trans hme)
  obtain ⟨e, he, rfl⟩ := h.mem_arrivals hinv hr (by simp [hctl]) (by simp [hctl])
  obtain ⟨q, hq, hmem⟩ := h.taken_or_stored he
  have hstored : x.state.mlfq.list q ≠ [] := by
    rw [hctl] at hmem
    exact List.ne_nil_of_mem hmem
  rw [h.levels (by rw [hctl]; rfl) e he, hq]
  by_contra hlt
  have htrue := (Queues.preempt_eq_true_iff _ _).mpr ⟨q, Int.not_le.mp hlt, hstored⟩
  rw [hpre] at htrue
  cases htrue

theorem settling_crit {x : Traced} {ch : Choice} {t : State 1} (h : Uni x) (hinv : Inv x.state)
    {p : Slot} {sec : Section} {k : Cont} (hctl : (x.state.cpu 0).ctl = .crit p sec k)
    (hout : (Ctl.crit p sec k).Outside) (ht : critStep x.state 0 p k sec ch = some t) :
    Settling t := by
  by_cases hsec : ∃ i, sec = .schedule i
  · obtain ⟨i, rfl⟩ := hsec
    have hstate := hinv.state_runnable (c := 0) (x := p) (by simp [hctl, Ctl.readyTok])
    cases ch <;> simp only [critStep, reduceCtorEq, if_pos hstate, Option.some.injEq] at ht
    subst ht
    exact .resume p rfl (best_dispatch h hinv hctl _)
  · exact .outside (critStep_outside hctl hout (by simpa using hsec) ht)

theorem settling_outside {x : Traced} {ch : Choice} {t : State 1} (h : Uni x) (hinv : Inv x.state)
    (hout : (x.state.cpu 0).ctl.Outside) (ht : step x.state ⟨0, ch⟩ = some t) : Settling t := by
  cases (steps_of_step ht).2 with
  | run hctl ht =>
      rw [hctl] at hout
      exact .outside (runStep_outside hctl hout ht)
  | crit hctl ht =>
      rw [hctl] at hout
      exact settling_crit h hinv hctl hout ht
  | found | swtch => exact .outside rfl
  | enqueue hctl | release hctl =>
      rw [hctl] at hout
      exact .outside hout
  | enqueueYield => exact .outside trivial
  | enqueueFails => exact .outside hout
  | resume hctl =>
      rw [hctl] at hout
      exact hout.elim

theorem settling_step {x : Traced} {a : Action 1} {t : State 1} (h : Uni x) (hinv : Inv x.state)
    (hs : Settling x.state) (hrun : ¬ AtThread x) (ht : step x.state a = some t) : Settling t := by
  obtain ⟨c, ch⟩ := a
  obtain rfl : c = 0 := Subsingleton.elim c 0
  have hpanic := (steps_of_step ht).1
  cases hs with
  | yield p hctl =>
      have hcrit := critStep_of_step hctl ht
      cases ch <;> simp only [critStep, reduceCtorEq, Option.some.injEq] at hcrit
      subst hcrit
      exact .scan p rfl
  | scan p hctl =>
      have hcrit := critStep_of_step hctl ht
      cases ch <;> simp only [critStep, reduceCtorEq, Option.some.injEq] at hcrit
      subst hcrit
      exact .decide p rfl
  | decide p hctl =>
      have hcrit := critStep_of_step hctl ht
      cases ch <;> simp only [critStep, reduceCtorEq] at hcrit
      by_cases hgive : (x.state.proc p).givesUp (x.state.mlfq.preempt (x.state.proc p).queue) = true
      · rw [if_pos hgive] at hcrit
        cases hcrit
        exact .outside trivial
      · rw [if_neg hgive] at hcrit
        cases hcrit
        refine .stay p rfl ?_
        have hpre : x.state.mlfq.preempt (x.state.proc p).queue = false := by
          simp only [Proc.givesUp, Bool.or_eq_true, not_or, Bool.not_eq_true] at hgive
          exact hgive.2
        exact (best_of_not_preempt h hinv hctl hpre).congr (by simp) fun _ => ⟨rfl, rfl⟩
  | outside hout => exact settling_outside h hinv hout ht
  | stay p hctl hbest =>
      cases ch <;> simp only [step, hpanic, hctl, reduceCtorEq, ne_eq, not_true_eq_false, if_false,
        Option.some.injEq] at ht
      subst ht
      exact .thread rfl (hbest.congr (by simp) fun _ => ⟨rfl, rfl⟩)
  | resume p hctl hbest =>
      cases ch <;> simp only [step, hpanic, hctl, reduceCtorEq, ne_eq, not_true_eq_false, if_false,
        Option.some.injEq] at ht
      subst ht
      refine .thread rfl (hbest.congr (by simp) fun y => ?_)
      by_cases hy : y = p
      · subst hy
        simp [Proc.resume_state, Proc.resume_queue]
      · simp [hy]
  | thread hctl _ => exact absurd (atThread_iff.mpr hctl) hrun

theorem best_of_settling {x : Traced} (hs : Settling x.state) (hx : AtThread x) :
    Best x.state := by
  have hctl := hx 0
  cases hs with
  | yield p h => simp [hctl] at h
  | scan p h => simp [hctl] at h
  | decide p h => simp [hctl] at h
  | outside h => simp [hctl, Ctl.Outside, Cont.inThread] at h
  | stay p h hbest => exact hbest
  | resume p h hbest => exact hbest
  | thread h hbest => exact hbest

theorem TracedReachable.until {x y : Traced} (hx : TracedReachable x)
    (h : Run.Until tracedStep AtThread x y) : TracedReachable y :=
  h.invariant hx fun _ _ _ hs _ ht => .next hs trivial ht

/-- The end of a `yield` that a process starts, with or without a dispatch. -/
theorem best_after_yield {x x₁ y : Traced} (hx : TracedReachable x) (hat : AtThread x)
    (hyield : tracedStep x ⟨0, .yield⟩ = some x₁)
    (hy : Run.Until tracedStep AtThread x₁ y) : Best y.state := by
  have hx₁ : TracedReachable x₁ := .next hx trivial hyield
  have hstart : Settling x₁.state := by
    obtain ⟨hstep, -⟩ := tracedStep_eq_some hyield
    have hrun := runStep_of_step (hat 0) hstep
    cases hme : (x.state.cpu 0).proc with
    | none => simp [runStep, hme] at hrun
    | some me =>
        simp only [runStep, hme] at hrun
        obtain ⟨-, heq⟩ := acquire_eq_some_iff.mp hrun
        exact .yield me (by simp [heq])
  have hend : TracedReachable y ∧ Settling y.state := by
    refine hy.invariant (P := fun z => TracedReachable z ∧ Settling z.state) ⟨hx₁, hstart⟩ ?_
    rintro s a t ⟨hr, hs⟩ hns ht
    refine ⟨.next hr trivial ht, ?_⟩
    exact settling_step hr.uni hr.reachable.invariants.1 hs hns (tracedStep_eq_some ht).1
  exact best_of_settling hend.2 hy.stop

/-- On one CPU: a dispatch picks the first arrival of the smallest level of any
runnable process; and when a timer interrupt taken from a process has been
handled, clock and `yield`, the running process has a smallest level. -/
theorem dispatch_by_level_and_arrival {x : Traced} (hx : TracedReachable x) :
    (∀ a y p, tracedStep x a = some y → (x.state.proc p).state = .RUNNABLE →
      (y.state.proc p).state = .RUNNING →
      (∀ r, (x.state.proc r).state = .RUNNABLE ↔ ∃ e ∈ x.arrivals, e.slot = r) ∧
      (∀ r, (x.state.proc r).state = .RUNNABLE →
        (x.state.proc p).queue ≤ (x.state.proc r).queue) ∧
      (x.arrivals.find? fun e => (x.state.proc e.slot).queue = (x.state.proc p).queue).map
        Arrival.slot = some p) ∧
    (∀ x₁ x₂ x₃ y, AtThread x → tracedStep x ⟨0, .tick⟩ = some x₁ →
      Run.Until tracedStep AtThread x₁ x₂ → tracedStep x₂ ⟨0, .yield⟩ = some x₃ →
      Run.Until tracedStep AtThread x₃ y →
      ∃ p, (y.state.cpu 0).proc = some p ∧ (y.state.proc p).state = .RUNNING ∧
        ∀ r, (y.state.proc r).state = .RUNNABLE →
          (y.state.proc p).queue ≤ (y.state.proc r).queue) := by
  have hinv := hx.reachable.invariants.1
  have huni := hx.uni
  constructor
  · intro a y p hy hold hnew
    obtain ⟨i, k, hctl⟩ := step_running (tracedStep_eq_some hy).1 (by simp [hold]) hnew
    rw [Subsingleton.elim a.cpu 0] at hctl
    refine ⟨?_, fun r hr => huni.schedule_best hinv hctl hr, huni.schedule_first hctl⟩
    intro r
    constructor
    · intro hr
      exact huni.mem_arrivals hinv hr (by simp [hctl]) (by simp [hctl])
    · rintro ⟨e, he, rfl⟩
      exact huni.runnable hinv he
  · intro x₁ x₂ x₃ y hat htick hclock hyield hend
    have hx₁ : TracedReachable x₁ := .next hx trivial htick
    have hx₂ := hx₁.until hclock
    have hx₃ : TracedReachable x₃ := .next hx₂ trivial hyield
    have hbest := best_after_yield hx₂ hclock.stop hyield hend
    have hinv' := (hx₃.until hend).reachable.invariants.1
    have hctl := hend.stop 0
    have hwf := hinv'.wf 0
    simp only [Cpu.Wf, hctl, Cont.inThread] at hwf
    obtain ⟨p, hp⟩ := Option.isSome_iff_exists.mp hwf
    refine ⟨p, hp, hinv'.state_running hp (by simp [hctl, Ctl.leaving]), ?_⟩
    exact fun r hr => hbest 0 p hp r hr

/-- Process 1 has forked and takes a timer interrupt: its slice at level 0 is over, so that
it waits at level 1 when the scheduler picks its child, which waits at level 0. -/
theorem dispatch_by_level_and_arrival_tick :
    ∃ x x₁ x₂ x₃ d d' y : Traced,
      (Run.exec tracedStep (firstDispatch 0 0 ++ forks 0 1) ⟨State.boot 1, []⟩ = some x ∧
        tracedStep x ⟨0, .tick⟩ = some x₁ ∧ Run.Until tracedStep AtThread x₁ x₂ ∧
        tracedStep x₂ ⟨0, .yield⟩ = some x₃ ∧ Run.exec tracedStep (goes 0 8) x₃ = some d ∧
        tracedStep d ⟨0, .go⟩ = some d' ∧ Run.Until tracedStep AtThread x₃ y) ∧
      ((d.state.proc 0).state = .RUNNABLE ∧ (d.state.proc 0).queue = 1) ∧
      ((d.state.proc 1).state = .RUNNABLE ∧ (d.state.proc 1).queue = 0) ∧
      ((d'.state.proc 1).state = .RUNNING ∧ ∀ r, (d.state.proc r).state = .RUNNABLE →
        (d.state.proc 1).queue ≤ (d.state.proc r).queue) ∧
      ∃ p, (y.state.cpu 0).proc = some p ∧ (y.state.proc p).state = .RUNNING ∧
        ∀ r, (y.state.proc r).state = .RUNNABLE →
          (y.state.proc p).queue ≤ (y.state.proc r).queue := by
  have hrun : ((Run.exec tracedStep (firstDispatch 0 0 ++ forks 0 1) ⟨State.boot 1, []⟩).bind
      fun x => (tracedStep x ⟨0, .tick⟩).bind fun x₁ =>
      (Run.execUntil tracedStep AtThread (goes 0 384) x₁).bind fun x₂ =>
      (tracedStep x₂ ⟨0, .yield⟩).bind fun x₃ => (Run.exec tracedStep (goes 0 8) x₃).bind fun d =>
      (tracedStep d ⟨0, .go⟩).bind fun d' =>
      (Run.execUntil tracedStep AtThread (goes 0 10) x₃).map fun _ => decide (AtThread x ∧
        ((d.state.proc 0).state = .RUNNABLE ∧ (d.state.proc 0).queue = 1) ∧
        ((d.state.proc 1).state = .RUNNABLE ∧ (d.state.proc 1).queue = 0) ∧
        (d'.state.proc 1).state = .RUNNING)) = some true := by decide +kernel
  obtain ⟨x, hx, hrun⟩ := Option.bind_eq_some_iff.mp hrun
  obtain ⟨x₁, hx₁, hrun⟩ := Option.bind_eq_some_iff.mp hrun
  obtain ⟨x₂, hx₂, hrun⟩ := Option.bind_eq_some_iff.mp hrun
  obtain ⟨x₃, hx₃, hrun⟩ := Option.bind_eq_some_iff.mp hrun
  obtain ⟨d, hd, hrun⟩ := Option.bind_eq_some_iff.mp hrun
  obtain ⟨d', hd', hrun⟩ := Option.bind_eq_some_iff.mp hrun
  obtain ⟨y, hy, hobs⟩ := Option.map_eq_some_iff.mp hrun
  obtain ⟨hat, hlow, hhigh, hrunning⟩ := of_decide_eq_true hobs
  have hclock := Run.Until.of_exec _ hx₂
  have hend := Run.Until.of_exec _ hy
  have hreach : TracedReachable x := Run.Reach.exec _ (.start rfl) hx
  have hreach₃ : TracedReachable x₃ := .next (TracedReachable.until (.next hreach trivial hx₁)
    hclock) trivial hx₃
  refine ⟨x, x₁, x₂, x₃, d, d', y, ⟨hx, hx₁, hclock, hx₃, hd, hd', hend⟩, hlow, hhigh,
    ⟨hrunning, ?_⟩, ?_⟩
  · have hreachd : TracedReachable d := Run.Reach.exec _ hreach₃ hd
    exact ((dispatch_by_level_and_arrival hreachd).1 ⟨0, .go⟩ d' 1 hd' hhigh.1 hrunning).2.1
  · exact (dispatch_by_level_and_arrival hreach).2 x₁ x₂ x₃ y hat hx₁ hclock hx₃ hend

end ShellXv6.Xv6.Smp
