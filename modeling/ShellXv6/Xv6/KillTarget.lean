import ShellXv6.Xv6.BuildSteps

/-!
# Whom `kkill` hits

`kkill(pid)` compares the pid of every slot of the table, free ones included.
`freeproc` leaves 0 in a free slot, so `kkill(0)` finds one, marks it as killed
and reports success; `allocproc` does not clear the mark.  No other pid can
meet a free slot.
-/

namespace ShellXv6.Xv6

/-! ## Free slots carry no mark -/

namespace Lifecycle

variable {n : ℕ}

def Table.Unmarked (v : Table n) : Prop :=
  ∀ p, (v.life p).state = .UNUSED → (v.life p).killed = false

theorem Table.Unmarked.setLife {v : Table n} (h : v.Unmarked) {p : Slot} {x : Life}
    (hx : x.state = .UNUSED → x.killed = false) : (v.setLife p x).Unmarked := by
  intro q hq
  rw [setLife_life] at hq ⊢
  by_cases hqp : q = p
  · rw [if_pos hqp] at hq ⊢
    exact hx hq
  · rw [if_neg hqp] at hq ⊢
    exact h q hq

theorem Table.Unmarked.step {v w : Table n} {c : Fin n} {e : Mark} (h : v.Unmarked) (hv : v.Inv)
    (hstep : Step v c e w) (he : ∀ p, e ≠ .kill p 0) : w.Unmarked := by
  cases hstep with
  | silent | tick | sampled | fork | adopt => exact h
  | @sample p _ =>
      refine Unmarked.setLife (v := v.setCpu c _) h fun hx => ?_
      rw [Life.sample_state] at hx
      rw [Life.sample_killed]
      exact h p hx
  | alloc | userinit => exact Unmarked.setLife (v := { v with nextpid := v.nextpid + 1 }) h nofun
  | allocFails =>
      exact Unmarked.setLife (v := { v with nextpid := v.nextpid + 1 }) h fun _ => rfl
  | forkFails => exact Unmarked.setLife (v := v.setCpu c _) h fun _ => rfl
  | wakeChild => exact Unmarked.setLife (v := v.setCpu c _) h nofun
  | @leave p state _ hidle =>
      refine Unmarked.setLife (v := v.setCpu c _) h fun hx => ?_
      change state = _ at hx
      rw [hx] at hidle
      rcases hidle with hidle | hidle | hidle <;> cases hidle
  | dispatch | wake | killWake => exact Unmarked.setLife h nofun
  | @kill p pid hpid _ =>
      refine Unmarked.setLife h fun hx => ?_
      -- a free slot has pid 0
      have hzero := hv.pid_free p hx
      rw [hpid] at hzero
      exact absurd (hzero ▸ rfl) (he p)
  | @setkilled p hcur =>
      refine Unmarked.setLife h fun hx => ?_
      change (v.life p).state = _ at hx
      rw [hv.cur c p hcur] at hx
      cases hx
  | free => exact Unmarked.setLife h fun _ => rfl

theorem Step.alloc_unmarked {v w : Table n} {c : Fin n} {p : Slot} (hstep : Step v c (.alloc p) w)
    (h : v.Unmarked) : (w.life p).killed = false := by
  cases hstep with
  | alloc _ hfree | userinit _ hfree =>
      change (Function.update v.life p _ p).killed = _
      rw [Function.update_self]
      exact h p hfree
  | allocFails =>
      change (Function.update v.life p _ p).killed = _
      rw [Function.update_self]
      rfl

end Lifecycle

/-! ## The loop of `kkill` -/

namespace Kernel

open Smp (Action Choice Ctl Cont firstDispatch)

variable {n : ℕ} {b : Build}

/-- `kkill` with the slots that its loop has not compared yet. -/
def kkillFrom (pid : ℤ) : List Slot → (Slot → Proc) → (Slot → Proc) × ℤ
  | [], proc => (proc, -1)
  | p :: rest, proc =>
      if (proc p).pid = pid then
        let x := (proc p).setkilled
        (Function.update proc p (if x.state = .SLEEPING then x.makeRunnable else x), 0)
      else kkillFrom pid rest proc

def kkill (pid : ℤ) (proc : Slot → Proc) : (Slot → Proc) × ℤ :=
  kkillFrom pid (List.finRange NPROC) proc

/-- One section of `kkill` is one turn of its loop. -/
theorem critStep_kkill {s t : Smp.State n} {c : Fin n} {p : Slot} {k : Cont} {pid : ℤ}
    (ht : Smp.critStep s c p k (.kkill pid) .go = some t) :
    t.proc = (kkillFrom pid [p] s.proc).1 := by
  simp only [Smp.critStep] at ht
  by_cases hpid : (s.proc p).pid = pid
  · by_cases hsleep : (s.proc p).state = .SLEEPING
    · simp only [hpid, hsleep, if_true, Option.some.injEq] at ht
      subst ht
      simp [kkillFrom, hpid, Proc.setkilled, hsleep, Smp.State.body, Smp.State.setCtl,
        Smp.State.setCpu, Smp.State.setProc]
    · simp only [hpid, hsleep, if_true, if_false, Option.some.injEq] at ht
      subst ht
      simp [kkillFrom, hpid, Proc.setkilled, hsleep, Smp.State.body, Smp.State.setCtl,
        Smp.State.setCpu, Smp.State.setProc]
  · simp only [hpid, if_false, Option.some.injEq] at ht
    subst ht
    simp [kkillFrom, hpid, Smp.State.setCtl, Smp.State.setCpu]

theorem kkillFrom_snd (pid : ℤ) (l : List Slot) (proc : Slot → Proc) :
    (kkillFrom pid l proc).2 = 0 ↔ ∃ p ∈ l, (proc p).pid = pid := by
  induction l with
  | nil => simp [kkillFrom]
  | cons p rest ih =>
      by_cases hp : (proc p).pid = pid
      · simp [kkillFrom, hp]
      · simp [kkillFrom, hp, ih]

theorem kkillFrom_fst (pid : ℤ) (l : List Slot) (proc : Slot → Proc) {p : Slot}
    (hp : (proc p).pid ≠ pid) : (kkillFrom pid l proc).1 p = proc p := by
  induction l with
  | nil => rfl
  | cons q rest ih =>
      by_cases hq : (proc q).pid = pid
      · have hne : p ≠ q := by
          rintro rfl
          exact hp hq
        simp [kkillFrom, hq, hne]
      · simpa [kkillFrom, hq] using ih

/-- `kkill(pid)` marks only processes with that pid, and returns 0 exactly when
there is one. -/
def HitsTarget (proc : Slot → Proc) (pid : ℤ) : Prop :=
  (∀ p, ((kkill pid proc).1 p).killed ≠ (proc p).killed →
    (proc p).state ≠ .UNUSED ∧ (proc p).pid = pid) ∧
  ((kkill pid proc).2 = 0 ↔ ∃ p, (proc p).state ≠ .UNUSED ∧ (proc p).pid = pid)

theorem hitsTarget_of_used {proc : Slot → Proc} {pid : ℤ}
    (h : ∀ p, (proc p).pid = pid → (proc p).state ≠ .UNUSED) : HitsTarget proc pid := by
  constructor
  · intro p hp
    have hpid : (proc p).pid = pid := by
      by_contra hne
      exact hp (congrArg Proc.killed (kkillFrom_fst pid _ proc hne))
    exact ⟨h p hpid, hpid⟩
  · rw [kkill, kkillFrom_snd]
    constructor
    · rintro ⟨p, _, hp⟩
      exact ⟨p, h p hp, hp⟩
    · rintro ⟨p, _, hp⟩
      exact ⟨p, List.mem_finRange p, hp⟩

theorem Reachable.hitsTarget_iff {s : State n} (hs : Reachable b s) (pid : ℤ) :
    HitsTarget s.core.proc pid ↔ pid ≠ 0 ∨ ∀ p, (s.core.proc p).state ≠ .UNUSED := by
  have htable := hs.table
  constructor
  · intro h
    by_contra hno
    push Not at hno
    obtain ⟨rfl, p, hp⟩ := hno
    have hfound : (kkill 0 s.core.proc).2 = 0 :=
      (kkillFrom_snd 0 _ _).mpr ⟨p, List.mem_finRange p, htable.pid_free p hp⟩
    obtain ⟨q, hq, hzero⟩ := h.2.mp hfound
    have hpos := (htable.pid_range q hq).1
    change 0 < (s.core.proc q).pid at hpos
    omega
  · intro h
    apply hitsTarget_of_used
    intro p hp hfree
    have hzero : (s.core.proc p).pid = 0 := htable.pid_free p hfree
    rcases h with hpid | hused
    · exact hpid (hp.symm.trans hzero)
    · exact hused p hfree

/-! ## Runs without `kkill(0)` -/

/-- No process calls `kill(0)`. -/
def NoKillZero (_ : State n) (a : Action n) : Prop := ∀ p, a.choice ≠ .kkill p 0

theorem kkill_of_runStep {s t : Smp.State n} {c : Fin n} {j k : Cont} {ch : Choice} {p : Slot}
    {pid : ℤ} (hctl : (s.cpu c).ctl = .run j) (ht : Smp.runStep s c j ch = some t)
    (hk : (t.cpu c).ctl = .crit p (.kkill pid) k) : ch = .kkill p pid := by
  revert ht
  fun_cases Smp.runStep s c j ch
  all_goals
    intro ht
    first
    | obtain ⟨-, rfl⟩ := Smp.acquire_eq_some_iff.mp ht
    | cases ht
  all_goals simp_all [Smp.State.setCtl, Smp.State.setCpu, Smp.State.setProc, Smp.State.setForking]

theorem kkill_of_critStep {s t : Smp.State n} {c : Fin n} {j k : Cont} {ch : Choice} {p q : Slot}
    {sec : Smp.Section} {pid : ℤ} (hctl : (s.cpu c).ctl = .crit q sec j)
    (ht : Smp.critStep s c q j sec ch = some t) :
    (t.cpu c).ctl ≠ .crit p (.kkill pid) k := by
  revert ht
  fun_cases Smp.critStep s c q j sec ch
  all_goals
    intro ht
    cases ht
  all_goals simp_all [Smp.State.body, Smp.State.setCtl, Smp.State.setCpu, Smp.State.setProc]

theorem kkill_of_coreSteps {s t : Smp.State n} {c : Fin n} {k : Cont} {ch : Choice} {p : Slot}
    {pid : ℤ} (ht : CoreSteps s c ch t) (hk : (t.cpu c).ctl = .crit p (.kkill pid) k) :
    ch = .kkill p pid := by
  cases ht with
  | same ht =>
      cases (Smp.steps_of_step ht).2 with
      | run hctl ht => exact kkill_of_runStep hctl ht hk
      | crit hctl ht => exact absurd hk (kkill_of_critStep hctl ht)
      | enqueueFails hctl =>
          rcases hctl with ⟨k, hctl⟩ | hctl
          all_goals
            rw [hctl] at hk
            cases hk
      | found | enqueue | enqueueYield | release | swtch | resume =>
          simp [Smp.State.body, Smp.State.setCtl, Smp.State.setCpu] at hk
  | noBoost | yield | noEnqueue =>
      simp [Smp.State.body, Smp.State.setCtl, Smp.State.setCpu] at hk

theorem mark_kill {s : State n} {a : Action n} {p : Slot} {pid : ℤ}
    (h : mark b s a = .kill p pid) : ∃ k, (s.core.cpu a.cpu).ctl = .crit p (.kkill pid) k := by
  rcases mark_cases b s a with hcore | hsilent | ⟨q, hdispatch, -⟩
  · exact Smp.ctl_of_mark_kill (hcore.symm.trans h)
  · cases hsilent.symm.trans h
  · cases hdispatch.symm.trans h

/-- No CPU is in a section of `kkill(0)`. -/
def NoZeroSection (s : State n) : Prop :=
  ∀ c p k, (s.core.cpu c).ctl ≠ .crit p (.kkill 0) k

theorem NoZeroSection.step {s t : State n} {a : Action n} (h : NoZeroSection s)
    (ha : NoKillZero s a) (ht : step b s a = some t) : NoZeroSection t := by
  intro c p k hctl
  have hsteps := steps_of_step ht
  by_cases hc : c = a.cpu
  · subst hc
    rcases hsteps.own with ⟨hcore, -⟩ | hsame | ⟨q, hnew⟩
    · exact ha p (kkill_of_coreSteps hcore hctl)
    · rw [hsame] at hctl
      exact h _ p k hctl
    · rw [hnew] at hctl
      cases hctl
  · rw [hsteps.others hc] at hctl
    exact h c p k hctl

theorem unmarked_of_noKillZero {s : State n}
    (hs : Run.Reach (· = State.boot n) (step b) NoKillZero s) :
    NoZeroSection s ∧ s.view.Unmarked := by
  apply hs.invariant
  · rintro _ rfl
    exact ⟨nofun, fun _ _ => rfl⟩
  · rintro s a t hs ⟨hsec, hunmarked⟩ ha ht
    refine ⟨hsec.step ha ht, ?_⟩
    apply hunmarked.step (Reachable.table hs.any) (refines (Reachable.inv hs.any) ht)
    intro p hmark
    obtain ⟨k, hctl⟩ := mark_kill hmark
    exact hsec _ p k hctl

/-- `kkill` hits its target exactly when it is not asked for pid 0 while a slot
is free, and no process is born killed as long as nobody calls `kill(0)`. -/
theorem kkill_hits_target_iff {s : State n} (hs : Reachable b s) :
    (∀ pid, HitsTarget s.core.proc pid ↔ pid ≠ 0 ∨ ∀ p, (s.core.proc p).state ≠ .UNUSED) ∧
    (Run.Reach (· = State.boot n) (step b) NoKillZero s → ∀ a t p, step b s a = some t →
      mark b s a = .alloc p → (t.core.proc p).killed = false) := by
  refine ⟨hs.hitsTarget_iff, ?_⟩
  intro hquiet a t p ht hmark
  have hstep := refines hs.inv ht
  rw [hmark] at hstep
  exact hstep.alloc_unmarked (unmarked_of_noKillZero hquiet).2

def firstFork (c : Fin n) (p q : Slot) : List (Action n) :=
  firstDispatch c p ++ [⟨c, .allocproc q⟩]

theorem kkill_hits_target_first_fork :
    ∃ s t : State 1, Run.exec (step .MLFQ) (firstFork 0 0 1) (State.boot 1) = some s ∧
      HitsTarget s.core.proc 1 ∧ step .MLFQ s ⟨0, .go⟩ = some t ∧
      (t.core.proc 1).killed = false := by
  have hstart : Run.Reach (· = State.boot 1) (step .MLFQ) NoKillZero (State.boot 1) := .start rfl
  have hchoice : ∀ a ∈ firstFork (0 : Fin 1) 0 1, ∀ p, a.choice ≠ .kkill p 0 := by decide
  have hquiet {s : State 1}
      (hs : Run.exec (step .MLFQ) (firstFork 0 0 1) (State.boot 1) = some s) :=
    hstart.script (firstFork 0 0 1) (fun a ha _ => hchoice a ha) hs
  refine ⟨_, _, rfl, ?_, rfl, ?_⟩
  · exact ((kkill_hits_target_iff (hquiet rfl).any).1 1).mpr (.inl (by decide))
  · exact (kkill_hits_target_iff (hquiet rfl).any).2 (hquiet rfl) ⟨0, .go⟩ _ 1 rfl rfl

/-- The first process calls `kill(0)`, which marks the free slot `q` and returns 0,
and forks: its child is born killed. -/
def bornKilled (c : Fin n) (p q : Slot) : List (Action n) :=
  firstDispatch c p ++ [⟨c, .kkill q 0⟩, ⟨c, .go⟩, ⟨c, .go⟩, ⟨c, .allocproc q⟩]

theorem kkill_zero_marks_free_slot :
    ∃ r s t : State 1, Run.exec (step .MLFQ) (firstDispatch 0 0) (State.boot 1) = some r ∧
      ¬HitsTarget r.core.proc 0 ∧ (kkill 0 r.core.proc).2 = 0 ∧
      ((kkill 0 r.core.proc).1 1).killed = true ∧ (r.core.proc 1).state = .UNUSED ∧
      Run.exec (step .MLFQ) (bornKilled 0 0 1) (State.boot 1) = some s ∧
      mark .MLFQ s ⟨0, .go⟩ = .alloc 1 ∧ step .MLFQ s ⟨0, .go⟩ = some t ∧
      (t.core.proc 1).killed = true := by
  have hstart : Reachable .MLFQ (State.boot 1) := .start rfl
  have hreach {r : State 1}
      (hr : Run.exec (step .MLFQ) (firstDispatch 0 0) (State.boot 1) = some r) :
      Reachable .MLFQ r := Run.Reach.exec (firstDispatch 0 0) hstart hr
  refine ⟨_, _, _, rfl, ?_, rfl, rfl, rfl, rfl, rfl, rfl, rfl⟩
  intro h
  rcases ((hreach rfl).hitsTarget_iff 0).mp h with hne | hall
  · exact hne rfl
  · exact hall 1 rfl

end Kernel

end ShellXv6.Xv6
