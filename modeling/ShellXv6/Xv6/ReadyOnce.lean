import ShellXv6.Xv6.Occupancy

/-!
# Every runnable process waits in exactly one place

The ledger holds in every state the kernel reaches from power-on, for any
number of CPUs.  A runnable process whose lock is free is therefore stored once
in the queues or has just been dequeued by one CPU, and none of the panics of
`enqueue` and `boost_priority` can occur.
-/

namespace ShellXv6.Xv6.Smp

variable {n : ℕ}

attribute [local simp] acquire_eq_some_iff State.setCtl State.setCpu State.setProc State.setLock
  State.setForking State.reparent State.body Ctl.allocating Ctl.leaving Function.update_apply

/-! ## Pending forks -/

/-- What a step of CPU `c` can do to the pending forks. -/
structure ForkFrame (s t : State n) (c : Fin n) : Prop where
  others : ∀ c', c' ≠ c → t.cpu c' = s.cpu c'
  pending : ∀ me, (some me = (s.cpu c).proc → (s.cpu c).ctl.leaving = true) →
    t.forking me = s.forking me
  alloc : ∀ me, (t.cpu c).proc = some me → (t.cpu c).ctl.allocating = true → t.forking me = none

theorem forkFrame_critStep {s t : State n} {c : Fin n} {p : Slot} {k : Cont} {sec : Section}
    {ch : Choice} (hfresh : Fresh s) (hctl : (s.cpu c).ctl = .crit p sec k)
    (ht : critStep s c p k sec ch = some t) : ForkFrame s t c := by
  have hnone := hfresh c
  revert ht
  fun_cases critStep s c p k sec ch
  all_goals
    intro ht
    cases ht
  all_goals constructor <;> simp_all

theorem forkFrame_runStep {s t : State n} {c : Fin n} {k : Cont} {ch : Choice}
    (hctl : (s.cpu c).ctl = .run k) (ht : runStep s c k ch = some t) : ForkFrame s t c := by
  revert ht
  fun_cases runStep s c k ch
  all_goals
    intro ht
    first
    | obtain ⟨-, rfl⟩ := acquire_eq_some_iff.mp ht
    | cases ht
  all_goals constructor <;> simp_all

theorem forkFrame_step {s t : State n} {a : Action n} (hfresh : Fresh s)
    (ht : step s a = some t) : ForkFrame s t a.cpu := by
  cases (steps_of_step ht).2 with
  | run hctl ht => exact forkFrame_runStep hctl ht
  | crit hctl ht => exact forkFrame_critStep hfresh hctl ht
  | enqueueFails hctl =>
      rcases hctl with ⟨k, hctl⟩ | hctl
      all_goals constructor <;> simp_all
  | found hctl | enqueue hctl | enqueueYield hctl | release hctl | swtch hctl | resume hctl =>
      constructor <;> simp_all

theorem leaving_of_allocating {ctl : Ctl} (h : ctl.allocating = true) : ctl.leaving = false := by
  cases ctl <;> first
    | rfl
    | cases h

theorem fresh_step {s t : State n} {a : Action n} (h : Inv s) (hfresh : Fresh s)
    (ht : step s a = some t) : Fresh t := by
  have hframe := forkFrame_step hfresh ht
  intro c me hme halloc
  by_cases hc : c = a.cpu
  · subst hc
    exact hframe.alloc me hme halloc
  · rw [hframe.others c hc] at hme halloc
    have hnone := hfresh c me hme halloc
    rw [hframe.pending me ?_]
    · exact hnone
    · intro hown
      by_contra hstay
      have hleave := leaving_of_allocating halloc
      exact hc (h.runs_unique hme hleave hown.symm (by simpa using hstay))

/-! ## No panic in the queue code -/

/-- A CPU that holds the token of a runnable slot finds room in every queue. -/
theorem Inv.qcount_lt {s : State n} (h : Inv s) {c : Fin n} {p : Slot}
    (ht : 0 < (s.cpu c).ctl.readyTok p) (l : Level) : s.mlfq.qcount l < NPROC := by
  have htotal := h.total_le
  have hcpu := Finset.single_le_sum (f := fun c => (s.cpu c).ctl.readyTok p)
    (fun _ _ => Nat.zero_le _) (Finset.mem_univ c)
  have hslot := Finset.single_le_sum (f := fun x => ∑ c, (s.cpu c).ctl.readyTok x)
    (fun _ _ => Nat.zero_le _) (Finset.mem_univ p)
  have hlevel := s.mlfq.qcount_le_length_all l
  omega

theorem panicked_critStep {s t : State n} {c : Fin n} {p : Slot} {k : Cont} {sec : Section}
    {ch : Choice} (hs : s.panicked = none) (ht : critStep s c p k sec ch = some t) :
    t.panicked = none ∨ t.panicked = some .kerneltrap := by
  revert ht
  fun_cases critStep s c p k sec ch
  all_goals
    intro ht
    cases ht
  all_goals simp [hs]

theorem panicked_runStep {s t : State n} {c : Fin n} {k : Cont} {ch : Choice} (h : Inv s)
    (hs : s.panicked = none) (ht : runStep s c k ch = some t) : t.panicked = none := by
  obtain ⟨m', hm'⟩ := Queues.rebuild_isOk h.length_all_le
  revert ht
  fun_cases runStep s c k ch
  all_goals
    intro ht
    first
    | obtain ⟨-, rfl⟩ := acquire_eq_some_iff.mp ht
    | cases ht
  all_goals simp_all

theorem Inv.enqueue_isOk {s : State n} (h : Inv s) {c : Fin n} {p : Slot}
    (hctl : (∃ k, (s.cpu c).ctl = .enqueue p k) ∨ (s.cpu c).ctl = .enqueueYield p) :
    ∃ m, s.mlfq.enqueue (s.proc p).queue p = .ok m := by
  apply Queues.enqueue_isOk p (h.level p)
  apply h.qcount_lt (c := c) (p := p)
  rcases hctl with ⟨k, hctl⟩ | hctl <;> simp [hctl, Ctl.readyTok]

theorem panicked_step {s t : State n} {a : Action n} (h : Inv s) (ht : step s a = some t) :
    t.panicked = none ∨ t.panicked = some .kerneltrap := by
  obtain ⟨hpanic, hsteps⟩ := steps_of_step ht
  cases hsteps with
  | run hctl ht => exact .inl (panicked_runStep h hpanic ht)
  | crit hctl ht => exact panicked_critStep hpanic ht
  | enqueueFails hctl hm =>
      obtain ⟨m, hok⟩ := h.enqueue_isOk hctl
      cases hm.symm.trans hok
  | found | enqueue | enqueueYield | release | swtch | resume => exact .inl hpanic

/-! ## Every reachable state -/

theorem inv_boot (n : ℕ) : Inv (State.boot n) where
  ready x := by simp [State.boot, Queues.occ, Ctl.readyTok, State.ind, Proc.zero]
  running x := by simp [State.boot, Cpu.runTok, State.ind, Proc.zero]
  used x := by simp [State.boot, forkTok, Ctl.usedTok, State.ind, Proc.zero]
  level x := by simp [State.boot, Proc.zero]
  nonnull q := by simp [State.boot]
  wf c := rfl
  locked c p hp := by cases hp

theorem fresh_boot (n : ℕ) : Fresh (State.boot n) := by
  intro c me hme
  cases hme

theorem Reachable.invariants {s : State n} (hs : Reachable s) :
    Inv s ∧ Fresh s ∧ (s.panicked = none ∨ s.panicked = some .kerneltrap) := by
  refine Run.Reach.invariant
    (P := fun s => Inv s ∧ Fresh s ∧ (s.panicked = none ∨ s.panicked = some .kerneltrap)) hs ?_ ?_
  · rintro s rfl
    exact ⟨inv_boot n, fresh_boot n, .inl rfl⟩
  · rintro s a t - ⟨hinv, hfresh, -⟩ - ht
    exact ⟨inv_step hinv hfresh ht, fresh_step hinv hfresh ht, panicked_step hinv ht⟩

/-- The pointer that a CPU has dequeued and not locked yet. -/
def Ctl.dequeued : Ctl → Option Slot
  | .found _ p => some p
  | _ => none

/-- How many CPUs have dequeued `p` and not locked it yet. -/
def State.inFlight (s : State n) (p : Slot) : ℕ :=
  (Finset.univ.filter fun c => (s.cpu c).ctl.dequeued = some p).card

theorem State.inFlight_eq (s : State n) (p : Slot) :
    s.inFlight p = ∑ c, if (s.cpu c).ctl.dequeued = some p then 1 else 0 :=
  Finset.card_filter _ _

theorem Ctl.dequeued_le_readyTok (ctl : Ctl) (p : Slot) :
    (if ctl.dequeued = some p then 1 else 0) ≤ ctl.readyTok p := by
  cases ctl <;> simp [Ctl.dequeued, Ctl.readyTok]

theorem Ctl.readyTok_eq_dequeued {ctl : Ctl} {p : Slot} (h : ctl.holds ≠ some p) :
    ctl.readyTok p = if ctl.dequeued = some p then 1 else 0 := by
  cases ctl with
  | crit q sec k => cases sec <;> simp_all [Ctl.holds, Ctl.dequeued, Ctl.readyTok]
  | _ => simp_all [Ctl.holds, Ctl.dequeued, Ctl.readyTok]

theorem State.inFlight_le (s : State n) (p : Slot) :
    s.inFlight p ≤ ∑ c, (s.cpu c).ctl.readyTok p := by
  rw [s.inFlight_eq]
  exact Finset.sum_le_sum fun c _ => (s.cpu c).ctl.dequeued_le_readyTok p

/-- A CPU that is about to enqueue a slot, or to dispatch it, holds its lock. -/
theorem Inv.inFlight_of_unlocked {s : State n} (h : Inv s) {p : Slot} (hfree : s.lock p = none) :
    s.inFlight p = ∑ c, (s.cpu c).ctl.readyTok p := by
  rw [s.inFlight_eq]
  refine Finset.sum_congr rfl fun c _ => (Ctl.readyTok_eq_dequeued ?_).symm
  intro hholds
  have hlock := h.locked c p hholds
  rw [hfree] at hlock
  cases hlock

/-- For any number of CPUs and any interleaving: a runnable slot whose lock is
free is stored exactly once in the queues or the CPUs' dequeued pointers, and no
other slot is; so the queues never overflow and nothing is dropped from them. -/
theorem Reachable.runnable_once {s : State n} (hs : Reachable s) :
    (∀ p, s.lock p = none → (s.proc p).state = .RUNNABLE → s.mlfq.occ p + s.inFlight p = 1) ∧
    (∀ p, 0 < s.mlfq.occ p + s.inFlight p → (s.proc p).state = .RUNNABLE) ∧
    s.mlfq.all.length + ∑ p, s.inFlight p ≤ NPROC ∧
    s.panicked ∉ [some .invalidQueueNumber, some .queueFull, some .tempOverflow] ∧
    ∀ c p i k, (s.cpu c).ctl = .crit p (.schedule i) k → (s.proc p).state = .RUNNABLE := by
  obtain ⟨hinv, -, hpanic⟩ := hs.invariants
  refine ⟨?_, ?_, ?_, ?_, ?_⟩
  · intro p hfree hstate
    have hready := hinv.ready p
    rw [← hinv.inFlight_of_unlocked hfree] at hready
    simpa [State.ind, hstate] using hready
  · intro p hpos
    have hready := hinv.ready p
    have hle := s.inFlight_le p
    exact State.eq_of_ind_pos (by omega)
  · have hle := Finset.sum_le_sum fun p (_ : p ∈ Finset.univ) => s.inFlight_le p
    have htotal := hinv.total_le
    omega
  · rcases hpanic with hpanic | hpanic <;> simp [hpanic]
  · intro c p i k hctl
    exact hinv.state_runnable (c := c) (by simp [hctl, Ctl.readyTok])

/-- Process 1 on CPU 0 has forked twice, and the scheduler of CPU 1 has dequeued the
first child and not locked it yet: it is in no queue, and its sibling is in one. -/
theorem Reachable.runnable_once_dequeued :
    ∃ s : State 2,
      Run.exec step (firstDispatch 0 0 ++ forks 0 1 ++ forks 0 2 ++ goes 1 3) (State.boot 2) =
        some s ∧
      (s.cpu 1).ctl = .found 0 1 ∧ s.mlfq.occ 1 = 0 ∧ s.mlfq.occ 2 = 1 ∧
      s.mlfq.occ 1 + s.inFlight 1 = 1 ∧ s.mlfq.occ 2 + s.inFlight 2 = 1 := by
  have hrun : (Run.exec step (firstDispatch 0 0 ++ forks 0 1 ++ forks 0 2 ++ goes 1 3)
      (State.boot 2)).map (fun s => decide ((s.cpu 1).ctl = .found 0 1 ∧
        (s.lock 1 = none ∧ (s.proc 1).state = .RUNNABLE ∧ s.mlfq.occ 1 = 0) ∧
        (s.lock 2 = none ∧ (s.proc 2).state = .RUNNABLE ∧ s.mlfq.occ 2 = 1))) = some true := by
    decide +kernel
  obtain ⟨s, hs, hobs⟩ := Option.map_eq_some_iff.mp hrun
  obtain ⟨hctl, ⟨hfree, hready, hnone⟩, hfree', hready', hone⟩ := of_decide_eq_true hobs
  have honce := (Reachable.runnable_once (Run.Reach.exec _ (.start rfl) hs)).1
  exact ⟨s, hs, hctl, hnone, hone, honce 1 hfree hready, honce 2 hfree' hready'⟩

/-! ## Which steps change a level

`p->queue` changes while `p` is not runnable, or in the reset loop of
`boost_priority`; the queues change by `enqueue`, by `dequeue` and by the
rebuild, and only outside the critical sections of the process locks.
-/

theorem Inv.runnable_of_mem {s : State n} (h : Inv s) {p : Slot} {q : Level}
    (hp : some p ∈ s.mlfq.list q) : (s.proc p).state = .RUNNABLE := by
  have hpos := (Queues.occ_pos_iff s.mlfq p).mpr ⟨q, hp⟩
  exact State.eq_of_ind_pos (hpos.trans_le (h.occ_le p))

theorem critStep_levels {s t : State n} (h : Inv s) {c : Fin n} {p : Slot} {k : Cont}
    {sec : Section} {ch : Choice} (hctl : (s.cpu c).ctl = .crit p sec k)
    (ht : critStep s c p k sec ch = some t) :
    t.mlfq = s.mlfq ∧ ∀ x, (t.proc x).queue = (s.proc x).queue ∨
      x = p ∧ ((s.proc p).state ≠ .RUNNABLE ∨ sec = .boost ∧ (t.proc x).queue = 0) := by
  have hrunning : sec.own = true → (s.proc p).state = .RUNNING := by
    intro hown
    obtain ⟨-, hme⟩ := (h.wf c).own hctl hown
    exact h.state_running hme (by simp [hctl, Ctl.leaving])
  revert ht
  fun_cases critStep s c p k sec ch
  all_goals
    intro ht
    cases ht
  all_goals
    refine ⟨rfl, fun x => ?_⟩
    by_cases hx : x = p
  all_goals simp_all [Section.own, Proc.makeRunnable, Proc.freeproc, Proc.boost,
    Proc.yieldTick, Proc.sleep, Proc.kexit, Proc.setkilled, Proc.setParent, Proc.dispatch,
    Proc.updateTime_queue]

theorem runStep_levels {s t : State n} {c : Fin n} {k : Cont} {ch : Choice}
    (ht : runStep s c k ch = some t) :
    (∀ x, (t.proc x).queue = (s.proc x).queue) ∧
      (t.mlfq = s.mlfq ∨ (∃ l, t.mlfq = (s.mlfq.dequeue l).2) ∨
        s.mlfq.rebuild = .ok t.mlfq ∧ ∃ j ft, k = .boost j ft ∧ NPROC ≤ j) := by
  revert ht
  fun_cases runStep s c k ch
  all_goals
    intro ht
    first
    | obtain ⟨-, rfl⟩ := acquire_eq_some_iff.mp ht
    | cases ht
  all_goals simp_all
  case case10.refl =>
    intro x
    split_ifs with hx <;> simp [hx, Proc.setParent]
  case case17 =>
    intro x
    split_ifs <;> rfl
  case case34.refl hm => exact .inr ⟨_, by rw [hm]⟩
  case case35.refl hm => exact .inr ⟨_, by rw [hm]⟩

end ShellXv6.Xv6.Smp
