import Mathlib.Data.List.Induction
import ShellXv6.Xv6.ReadyOnce

/-!
# Slices and demotion

`p->queue` and `p->ticks` are written by `allocproc`, `yield`, `sleep` and
`boost_priority`. The runs of the kernel are recorded with the events of every slot
since its allocation, and the pair of the two fields is what the events alone make
of it: no other process has a part in it, however the CPUs interleave.
-/

namespace ShellXv6.Xv6.Smp

variable {n : ℕ}

attribute [local simp] acquire_eq_some_iff State.setCtl State.setCpu State.setProc State.setLock
  State.setForking State.reparent State.body Function.update_apply

/-- What happens to `queue` and `ticks` of a process after its allocation. -/
inductive Event
  | yield
  | sleep
  | boost
  deriving DecidableEq

/-- The pair of `queue` and `ticks`. -/
abbrev Standing := ℤ × ℤ

/-- `p->ticks++` at the start of `yield`. -/
def Standing.bump (x : Standing) : Standing := (x.1, x.2 + 1)

/-- The demotion of `yield` when the slice is used up. -/
def Standing.settle (x : Standing) : Standing :=
  if Proc.slice x.1 ≤ x.2 then (if x.1 < 3 then x.1 + 1 else x.1, 0) else x

def Standing.after (x : Standing) : Event → Standing
  | .yield => x.bump.settle
  | .sleep => (x.1, 0)
  | .boost => (0, 0)

/-- The pair that the events since the allocation lead to. -/
def standing (events : List Event) : Standing := events.foldl Standing.after (0, 0)

def standingOf (p : Proc) : Standing := (p.queue, p.ticks)

/-- The process that a control point has between the increment and the decision of
`yield`. -/
def Ctl.inYield : Ctl → Option Slot
  | .crit p .yieldScan _ => some p
  | .crit p (.yieldDecide _) _ => some p
  | _ => none

def State.InYield (s : State n) (p : Slot) : Prop := ∃ c, (s.cpu c).ctl.inYield = some p

/-- What the next step of a CPU adds to the events of the slots; `allocproc` starts
a new list. -/
def noteEvent (s : State n) (a : Action n) (events : Slot → List Event) : Slot → List Event :=
  match (s.cpu a.cpu).ctl, a.choice with
  | .crit p .userinit _, .go =>
      if (s.proc p).state = .UNUSED then Function.update events p [] else events
  | .crit p .allocproc _, _ =>
      if (s.proc p).state = .UNUSED then Function.update events p [] else events
  | .crit p (.yieldDecide _) _, _ => Function.update events p (events p ++ [.yield])
  | .crit p (.sleep _) _, _ => Function.update events p (events p ++ [.sleep])
  | .crit p .boost _, _ => Function.update events p (events p ++ [.boost])
  | _, _ => events

/-- The runs of the kernel with the events of every slot. -/
def EventsReachable (x : State n × (Slot → List Event)) : Prop :=
  Run.Reach (fun y => y.1 = State.boot n ∧ y.2 = fun _ => [])
    (Run.recorded step noteEvent) Run.Any x

/-! ### The pair as a function of the events -/

theorem standing_concat (events : List Event) (e : Event) :
    standing (events ++ [e]) = (standing events).after e := by
  simp [standing]

/-- Within the four levels and below the slice. -/
def Standing.InSlice (x : Standing) : Prop :=
  0 ≤ x.1 ∧ x.1 ≤ 3 ∧ 0 ≤ x.2 ∧ x.2 < Proc.slice x.1

theorem slice_pos (q : ℤ) : 0 < Proc.slice q := by
  unfold Proc.slice
  split_ifs <;> decide

theorem Standing.InSlice.after {x : Standing} (h : x.InSlice) (e : Event) :
    (x.after e).InSlice := by
  obtain ⟨hq, hq', ht, ht'⟩ := h
  cases e with
  | yield =>
      unfold Standing.after Standing.settle Standing.bump Standing.InSlice
      simp only
      split_ifs with hexpired hlow
      · exact ⟨by omega, by omega, le_rfl, slice_pos _⟩
      · exact ⟨hq, hq', le_rfl, slice_pos _⟩
      · exact ⟨hq, hq', by omega, Int.not_le.mp hexpired⟩
  | sleep => exact ⟨hq, hq', le_rfl, slice_pos _⟩
  | boost => exact ⟨le_rfl, (by decide : (0 : ℤ) ≤ 3), le_rfl, slice_pos _⟩

theorem inSlice_standing (events : List Event) : (standing events).InSlice := by
  induction events using List.reverseRecOn with
  | nil => exact ⟨le_rfl, by decide, le_rfl, slice_pos _⟩
  | append_singleton events e ih =>
      rw [standing_concat]
      exact ih.after e

theorem after_yield_of_lt {queue ticks : ℤ} (h : ticks + 1 < Proc.slice queue) :
    Standing.after (queue, ticks) .yield = (queue, ticks + 1) :=
  if_neg (not_le.mpr h)

theorem after_yield_of_le {queue ticks : ℤ} (h : Proc.slice queue ≤ ticks + 1) :
    Standing.after (queue, ticks) .yield = (if queue < 3 then queue + 1 else queue, 0) :=
  if_pos h

/-- The descent through the levels: 1, 4, 8 and 16 calls of `yield`. -/
theorem standing_yields (m : ℕ) :
    standing (List.replicate m .yield) =
      if m < 1 then ((0, 0) : Standing)
      else if m < 5 then (1, (m : ℤ) - 1)
      else if m < 13 then (2, (m : ℤ) - 5)
      else (3, ((m : ℤ) - 13) % 16) := by
  have hone : Proc.slice 1 = 4 := rfl
  have htwo : Proc.slice 2 = 8 := rfl
  have hthree : Proc.slice 3 = 16 := rfl
  induction m with
  | zero => rfl
  | succ m ih =>
      rw [List.replicate_succ', standing_concat, ih, if_neg (Nat.not_lt.mpr (Nat.le_add_left 1 m))]
      push_cast
      -- the slice of the level of `m` calls is used up by one more, or it is not
      by_cases h₀ : m < 1
      · rw [if_pos h₀, if_pos (by omega), Nat.lt_one_iff.mp h₀]
        rfl
      rw [if_neg h₀]
      by_cases h₁ : m < 5
      · rw [if_pos h₁]
        by_cases hlast : m + 1 < 5
        · rw [if_pos hlast, after_yield_of_lt (by omega), Prod.mk.injEq]
          omega
        · rw [if_neg hlast, if_pos (by omega), after_yield_of_le (by omega), Prod.mk.injEq]
          omega
      rw [if_neg h₁, if_neg (by omega : ¬m + 1 < 5)]
      by_cases h₂ : m < 13
      · rw [if_pos h₂]
        by_cases hlast : m + 1 < 13
        · rw [if_pos hlast, after_yield_of_lt (by omega), Prod.mk.injEq]
          omega
        · rw [if_neg hlast, after_yield_of_le (by omega), Prod.mk.injEq]
          omega
      rw [if_neg h₂, if_neg (by omega : ¬m + 1 < 13)]
      by_cases hlast : ((m : ℤ) - 13) % 16 + 1 < 16
      · rw [after_yield_of_lt (by omega), Prod.mk.injEq]
        omega
      · rw [after_yield_of_le (by omega), Prod.mk.injEq]
        omega

/-! ### What a step does to the pair -/

/-- The part of a step of CPU `c` in the standing of one slot. -/
inductive Moves (s t : State n) (c : Fin n) (old new : List Event) (p : Slot) : Prop
  | stays (hsame : standingOf (t.proc p) = standingOf (s.proc p)) (hnote : new = old)
      (hyield : (t.cpu c).ctl.inYield = some p ↔ (s.cpu c).ctl.inYield = some p)
  | bumps (hholds : (s.cpu c).ctl.holds = some p) (hbefore : (s.cpu c).ctl.inYield = none)
      (hafter : (t.cpu c).ctl.inYield = some p)
      (hbump : standingOf (t.proc p) = (standingOf (s.proc p)).bump) (hnote : new = old)
  | settles (hbefore : (s.cpu c).ctl.inYield = some p) (hafter : (t.cpu c).ctl.inYield = none)
      (hsettle : standingOf (t.proc p) = (standingOf (s.proc p)).settle)
      (hnote : new = old ++ [.yield])
  | notes {e : Event} (hholds : (s.cpu c).ctl.holds = some p)
      (hbefore : (s.cpu c).ctl.inYield = none) (hafter : (t.cpu c).ctl.inYield = none)
      (hstep : standingOf (t.proc p) = (standingOf (s.proc p)).after e) (hnote : new = old ++ [e])
  | starts (hholds : (s.cpu c).ctl.holds = some p) (hbefore : (s.cpu c).ctl.inYield = none)
      (hafter : (t.cpu c).ctl.inYield = none) (hzero : standingOf (t.proc p) = (0, 0))
      (hnote : new = [])

theorem Moves.of_outside {s t : State n} {c : Fin n} {old new : List Event} {p : Slot}
    (hsame : standingOf (t.proc p) = standingOf (s.proc p)) (hnote : new = old)
    (hbefore : (s.cpu c).ctl.inYield = none) (hafter : (t.cpu c).ctl.inYield = none) :
    Moves s t c old new p := by
  refine .stays hsame hnote ?_
  rw [hbefore, hafter]

theorem settle_eq_demote (p : Proc) : standingOf p.demote = (standingOf p).settle := by
  unfold Proc.demote standingOf Standing.settle
  split_ifs <;> rfl

theorem settle_of_not_givesUp {p : Proc} {preempt : Bool} (h : ¬p.givesUp preempt = true) :
    (standingOf p).settle = standingOf p := by
  unfold Standing.settle
  rw [if_neg]
  intro hexpired
  apply h
  unfold Proc.givesUp
  rw [Bool.or_eq_true, decide_eq_true_eq]
  exact Or.inl hexpired

/-- A section writes one slot, and is in `yield` with that slot alone. -/
theorem critStep_other {s t : State n} {c : Fin n} {p q : Slot} {sec : Section} {k : Cont}
    {ch : Choice} (hq : q ≠ p) (hctl : (s.cpu c).ctl = .crit p sec k)
    (ht : critStep s c p k sec ch = some t) :
    t.proc q = s.proc q ∧ (t.cpu c).ctl.inYield ≠ some q := by
  revert ht
  fun_cases critStep s c p k sec ch
  all_goals
    intro ht
    cases ht
  all_goals simp_all [Ctl.inYield, Ne.symm hq]

/-- The slot whose events the next step may change. -/
def Ctl.noted : Ctl → Option Slot
  | .crit p .userinit _ | .crit p .allocproc _ | .crit p (.yieldDecide _) _ => some p
  | .crit p (.sleep _) _ | .crit p .boost _ => some p
  | _ => none

theorem noteEvent_other {s : State n} {a : Action n} {q : Slot} (events : Slot → List Event)
    (hq : (s.cpu a.cpu).ctl.noted ≠ some q) : noteEvent s a events q = events q := by
  have hupdate {p : Slot} (hp : (s.cpu a.cpu).ctl.noted = some p) (l : List Event) :
      Function.update events p l q = events q := by
    apply Function.update_of_ne
    rintro rfl
    exact hq hp
  fun_cases noteEvent s a events
  case case1 hctl _ | case3 hctl _ =>
    apply hupdate
    rw [hctl]
    rfl
  case case5 hctl | case6 hctl | case7 hctl =>
    apply hupdate
    rw [hctl]
    rfl
  all_goals rfl

/-- Sections that write neither `queue` nor `ticks`. -/
def Section.quiet : Section → Bool
  | .kfork | .kforkWake | .kexit _ | .wakeup _ | .kkill _ | .setkilled | .killed | .kwait => true
  | .updateTime | .schedule _ => true
  | _ => false

theorem critStep_quiet {s t : State n} {c : Fin n} {p : Slot} {sec : Section} {k : Cont}
    {ch : Choice} (hquiet : sec.quiet = true) (ht : critStep s c p k sec ch = some t) :
    standingOf (t.proc p) = standingOf (s.proc p) ∧ (t.cpu c).ctl.inYield = none := by
  revert ht
  fun_cases critStep s c p k sec ch
  all_goals
    intro ht
    cases ht
  all_goals simp_all [Section.quiet, Ctl.inYield, standingOf, Proc.makeRunnable, Proc.freeproc,
    Proc.kexit, Proc.setkilled, Proc.setParent, Proc.dispatch, Proc.updateTime_queue,
    Proc.updateTime_ticks]

theorem moves_crit {s t : State n} {c : Fin n} {p : Slot} {sec : Section} {k : Cont}
    {ch : Choice} (events : Slot → List Event) (hctl : (s.cpu c).ctl = .crit p sec k)
    (ht : critStep s c p k sec ch = some t) (q : Slot) :
    Moves s t c (events q) (noteEvent s ⟨c, ch⟩ events q) q := by
  by_cases hq : q = p
  · subst hq
    cases sec with
    | yield =>
        cases ch <;> simp only [critStep, reduceCtorEq, Option.some.injEq] at ht
        subst ht
        refine .bumps ?_ ?_ ?_ ?_ ?_ <;>
          simp [hctl, Ctl.holds, Ctl.inYield, noteEvent, standingOf, Standing.bump, Proc.yieldTick]
    | yieldScan =>
        cases ch <;> simp only [critStep, reduceCtorEq, Option.some.injEq] at ht
        subst ht
        refine .stays ?_ ?_ ?_ <;> simp [hctl, Ctl.inYield, noteEvent]
    | yieldDecide preempt =>
        cases ch <;> simp only [critStep, reduceCtorEq] at ht
        split_ifs at ht with hgives <;> cases ht
        · refine .settles ?_ ?_ ?_ ?_
          · simp [hctl, Ctl.inYield]
          · simp [Ctl.inYield]
          · rw [← settle_eq_demote]
            simp [standingOf, Proc.makeRunnable]
          · simp [hctl, noteEvent]
        · refine .settles ?_ ?_ ?_ ?_
          · simp [hctl, Ctl.inYield]
          · simp [Ctl.inYield]
          · rw [settle_of_not_givesUp hgives]
            simp
          · simp [hctl, noteEvent]
    | sleep chan =>
        cases ch <;> simp only [critStep, reduceCtorEq, Option.some.injEq] at ht
        subst ht
        refine .notes (e := .sleep) ?_ ?_ ?_ ?_ ?_ <;>
          simp [hctl, Ctl.holds, Ctl.inYield, noteEvent, standingOf, Standing.after, Proc.sleep]
    | boost =>
        cases ch <;> simp only [critStep, reduceCtorEq, Option.some.injEq] at ht
        subst ht
        refine .notes (e := .boost) ?_ ?_ ?_ ?_ ?_ <;>
          simp [hctl, Ctl.holds, Ctl.inYield, noteEvent, standingOf, Standing.after, Proc.boost]
    | userinit =>
        cases ch <;> simp only [critStep, reduceCtorEq] at ht <;> split_ifs at ht with hunused <;>
          cases ht
        · refine .starts ?_ ?_ ?_ ?_ ?_ <;>
            simp [hctl, hunused, Ctl.holds, Ctl.inYield, noteEvent, standingOf, Proc.makeRunnable,
              Proc.setContext, Proc.allocproc]
        all_goals refine .stays ?_ ?_ ?_ <;> simp [hctl, hunused, Ctl.inYield, noteEvent]
    | allocproc =>
        cases ch <;> simp only [critStep, reduceCtorEq] at ht <;> split_ifs at ht with hunused <;>
          cases ht
        · refine .starts ?_ ?_ ?_ ?_ ?_ <;>
            simp [hctl, hunused, Ctl.holds, Ctl.inYield, noteEvent, standingOf, Proc.setContext,
              Proc.allocproc]
        · refine .stays ?_ ?_ ?_ <;> simp [hctl, hunused, Ctl.inYield, noteEvent]
        · refine .starts ?_ ?_ ?_ ?_ ?_ <;>
            simp [hctl, hunused, Ctl.holds, Ctl.inYield, noteEvent, standingOf, Proc.freeproc,
              Proc.allocproc]
    | kfork | kforkWake | kexit status | wakeup chan | kkill pid | setkilled | killed | kwait
    | updateTime | schedule i =>
        obtain ⟨hsame, hafter⟩ := critStep_quiet rfl ht
        refine .of_outside hsame ?_ ?_ hafter <;> simp [hctl, Ctl.inYield, noteEvent]
  · obtain ⟨hproc, hafter⟩ := critStep_other hq hctl ht
    have hbefore : (s.cpu c).ctl.inYield ≠ some q := by
      rw [hctl]
      cases sec <;> simp [Ctl.inYield, Ne.symm hq]
    refine .stays (congrArg standingOf hproc) (noteEvent_other events ?_) ?_
    · rw [hctl]
      cases sec <;> simp [Ctl.noted, Ne.symm hq]
    · exact iff_of_false hafter hbefore

theorem moves_run {s t : State n} {c : Fin n} {k : Cont} {ch : Choice}
    (events : Slot → List Event) (hctl : (s.cpu c).ctl = .run k)
    (ht : runStep s c k ch = some t) (q : Slot) :
    Moves s t c (events q) (noteEvent s ⟨c, ch⟩ events q) q := by
  have hsame : standingOf (t.proc q) = standingOf (s.proc q) ∧ (t.cpu c).ctl.inYield = none := by
    revert ht
    fun_cases runStep s c k ch
    all_goals
      intro ht
      first
      | obtain ⟨-, rfl⟩ := acquire_eq_some_iff.mp ht
      | cases ht
    all_goals simp_all [Ctl.inYield, standingOf]
    case case10.refl => split_ifs with hnp <;> simp [hnp, Proc.setParent]
    case case17 => split_ifs <;> simp [Proc.setParent]
  refine .of_outside hsame.1 ?_ ?_ hsame.2 <;> simp [hctl, Ctl.inYield, noteEvent]

theorem moves_step {s t : State n} {a : Action n} (events : Slot → List Event)
    (ht : step s a = some t) (q : Slot) :
    Moves s t a.cpu (events q) (noteEvent s a events q) q := by
  cases (steps_of_step ht).2 with
  | run hctl ht => exact moves_run events hctl ht q
  | crit hctl ht => exact moves_crit events hctl ht q
  | enqueueFails hctl =>
      rcases hctl with ⟨k, hctl⟩ | hctl <;>
        refine .stays ?_ ?_ ?_ <;> simp [hctl, noteEvent]
  | enqueueYield hctl =>
      refine .stays ?_ ?_ ?_
      · simp only [State.body, State.setProc, State.setCtl, State.setCpu, Function.update_apply]
        split_ifs with hq <;> simp [hq, standingOf, Proc.setContext]
      · simp [hctl, noteEvent]
      · simp [hctl, Ctl.inYield]
  | resume hctl =>
      refine .stays ?_ ?_ ?_
      · simp only [State.setProc, State.setLock, State.setCtl, State.setCpu,
          Function.update_apply]
        split_ifs with hq
        · rw [hq, standingOf, standingOf, Proc.resume_queue, Proc.resume_ticks]
        · rfl
      · simp [hctl, noteEvent]
      · simp [hctl, Ctl.inYield]
  | found hctl | enqueue hctl | release hctl | swtch hctl =>
      refine .stays ?_ ?_ ?_ <;> simp [hctl, noteEvent, Ctl.inYield]

/-! ### Every run -/

/-- The pair of every slot is explained by its events; between the increment and the
decision of `yield` it is one tick ahead of them. -/
structure Accounted (s : State n) (events : Slot → List Event) : Prop where
  outside : ∀ p, ¬s.InYield p → standingOf (s.proc p) = standing (events p)
  inside : ∀ p, s.InYield p → standingOf (s.proc p) = (standing (events p)).bump

theorem holds_of_inYield {ctl : Ctl} {p : Slot} (h : ctl.inYield = some p) :
    ctl.holds = some p := by
  cases ctl with
  | crit q sec k => cases sec <;> simp_all [Ctl.inYield, Ctl.holds]
  | _ => cases h

theorem Inv.inYield_unique {s : State n} (h : Inv s) {c c' : Fin n} {p : Slot}
    (hc : (s.cpu c).ctl.holds = some p) (hc' : (s.cpu c').ctl.inYield = some p) : c' = c := by
  have hlock := h.locked c p hc
  have hlock' := h.locked c' p (holds_of_inYield hc')
  exact Option.some.inj (hlock'.symm.trans hlock)

theorem inYield_step {s t : State n} {a : Action n} (hfresh : Fresh s) (ht : step s a = some t)
    (p : Slot) : t.InYield p ↔ (t.cpu a.cpu).ctl.inYield = some p ∨
      ∃ c, c ≠ a.cpu ∧ (s.cpu c).ctl.inYield = some p := by
  have hothers := (forkFrame_step hfresh ht).others
  constructor
  · rintro ⟨c, hc⟩
    by_cases hca : c = a.cpu
    · exact Or.inl (hca ▸ hc)
    · exact Or.inr ⟨c, hca, hothers c hca ▸ hc⟩
  · rintro (hc | ⟨c, hca, hc⟩)
    · exact ⟨a.cpu, hc⟩
    · exact ⟨c, (hothers c hca).symm ▸ hc⟩

/-- The holder of a lock decides alone whether its slot is in `yield`. -/
theorem inYield_of_holds {s t : State n} {a : Action n} {p : Slot} (hinv : Inv s)
    (hfresh : Fresh s) (ht : step s a = some t) (hholds : (s.cpu a.cpu).ctl.holds = some p) :
    (t.InYield p ↔ (t.cpu a.cpu).ctl.inYield = some p) ∧
      (s.InYield p ↔ (s.cpu a.cpu).ctl.inYield = some p) := by
  refine ⟨?_, ?_⟩
  · rw [inYield_step hfresh ht, or_iff_left]
    rintro ⟨c, hca, hc⟩
    exact hca (hinv.inYield_unique hholds hc)
  · constructor
    · rintro ⟨c, hc⟩
      exact hinv.inYield_unique hholds hc ▸ hc
    · exact fun hc => ⟨a.cpu, hc⟩

theorem accounted_step {s t : State n} {a : Action n} {events : Slot → List Event} (hinv : Inv s)
    (hfresh : Fresh s) (h : Accounted s events) (ht : step s a = some t) :
    Accounted t (noteEvent s a events) := by
  have hslot : ∀ p, (¬t.InYield p → standingOf (t.proc p) = standing (noteEvent s a events p)) ∧
      (t.InYield p → standingOf (t.proc p) = (standing (noteEvent s a events p)).bump) := by
    intro p
    cases moves_step events ht p with
    | stays hsame hnote hyield =>
        have hiff : t.InYield p ↔ s.InYield p := by
          rw [inYield_step hfresh ht, hyield]
          constructor
          · rintro (hc | ⟨c, _, hc⟩)
            · exact ⟨a.cpu, hc⟩
            · exact ⟨c, hc⟩
          · rintro ⟨c, hc⟩
            by_cases hca : c = a.cpu
            · exact Or.inl (hca ▸ hc)
            · exact Or.inr ⟨c, hca, hc⟩
        rw [hsame, hnote, hiff]
        exact ⟨h.outside p, h.inside p⟩
    | bumps hholds hbefore hafter hbump hnote =>
        obtain ⟨hnew, hold⟩ := inYield_of_holds hinv hfresh ht hholds
        have hout : ¬s.InYield p := by
          rw [hold, hbefore]
          exact nofun
        refine ⟨fun hne => absurd (hnew.mpr hafter) hne, fun _ => ?_⟩
        rw [hbump, h.outside p hout, hnote]
    | settles hbefore hafter hsettle hnote =>
        obtain ⟨hnew, hold⟩ := inYield_of_holds hinv hfresh ht (holds_of_inYield hbefore)
        have hout : ¬t.InYield p := by
          rw [hnew, hafter]
          exact nofun
        refine ⟨fun _ => ?_, fun hin => absurd hin hout⟩
        rw [hsettle, h.inside p (hold.mpr hbefore), hnote, standing_concat]
        rfl
    | notes hholds hbefore hafter hstep hnote =>
        obtain ⟨hnew, hold⟩ := inYield_of_holds hinv hfresh ht hholds
        have hout : ¬t.InYield p := by
          rw [hnew, hafter]
          exact nofun
        have hout' : ¬s.InYield p := by
          rw [hold, hbefore]
          exact nofun
        refine ⟨fun _ => ?_, fun hin => absurd hin hout⟩
        rw [hstep, h.outside p hout', hnote, standing_concat]
    | starts hholds hbefore hafter hzero hnote =>
        obtain ⟨hnew, -⟩ := inYield_of_holds hinv hfresh ht hholds
        have hout : ¬t.InYield p := by
          rw [hnew, hafter]
          exact nofun
        refine ⟨fun _ => ?_, fun hin => absurd hin hout⟩
        rw [hzero, hnote]
        rfl
  exact ⟨fun p => (hslot p).1, fun p => (hslot p).2⟩

theorem EventsReachable.reachable {x : State n × (Slot → List Event)} (hx : EventsReachable x) :
    Reachable x.1 :=
  Run.Reach.of_recorded hx

theorem Reachable.exists_events {s : State n} (hs : Reachable s) :
    ∃ events, EventsReachable (s, events) := by
  obtain ⟨events, h⟩ := Run.Reach.exists_recorded noteEvent (fun _ => []) hs
  exact ⟨events, h⟩

theorem EventsReachable.accounted {x : State n × (Slot → List Event)} (hx : EventsReachable x) :
    Accounted x.1 x.2 := by
  refine Run.Reach.invariant (P := fun x => Accounted x.1 x.2) hx ?_ ?_
  · rintro ⟨s, events⟩ ⟨hs, hevents⟩
    subst hs hevents
    refine ⟨fun p _ => rfl, ?_⟩
    rintro p ⟨c, hc⟩
    cases hc
  · rintro x a y hx h - hy
    obtain ⟨hstep, hnote⟩ := Run.recorded_eq_some_iff.mp hy
    obtain ⟨hinv, hfresh, -⟩ := EventsReachable.reachable hx |>.invariants
    rw [hnote]
    exact accounted_step hinv hfresh h hstep

/-- Outside the critical section of `yield`, the level and the used ticks of a process
are what its own calls of `yield` and `sleep` and the boosts have made of them. -/
theorem slice_accounting {x : State n × (Slot → List Event)} (hx : EventsReachable x) (p : Slot)
    (hp : ¬x.1.InYield p) :
    (0 ≤ (x.1.proc p).queue ∧ (x.1.proc p).queue ≤ 3 ∧ 0 ≤ (x.1.proc p).ticks ∧
      (x.1.proc p).ticks < Proc.slice (x.1.proc p).queue) ∧
    ((x.1.proc p).queue, (x.1.proc p).ticks) = standing (x.2 p) ∧
    (∀ m, x.2 p = List.replicate m .yield → (x.1.proc p).queue =
      if m < 1 then 0 else if m < 5 then 1 else if m < 13 then 2 else 3) ∧
    (∀ events, standing (events ++ [.sleep]) = ((standing events).1, 0)) ∧
    (∀ events, standing (events ++ [.boost]) = (0, 0)) ∧
    ∀ a y, Run.recorded step noteEvent x a = some y → ¬y.1.InYield p → y.2 p = x.2 p →
      (y.1.proc p).queue = (x.1.proc p).queue ∧ (y.1.proc p).ticks = (x.1.proc p).ticks := by
  have hstanding : ((x.1.proc p).queue, (x.1.proc p).ticks) = standing (x.2 p) :=
    hx.accounted.outside p hp
  refine ⟨?_, hstanding, ?_, ?_, ?_, ?_⟩
  · have hslice := inSlice_standing (x.2 p)
    rw [← hstanding] at hslice
    exact hslice
  · intro m hm
    have hqueue : (x.1.proc p).queue = (standing (x.2 p)).1 := congrArg Prod.fst hstanding
    rw [hqueue, hm, standing_yields]
    split_ifs <;> rfl
  · intro events
    rw [standing_concat]
    rfl
  · intro events
    rw [standing_concat]
    rfl
  · intro a y hy hp' hsame
    have hnext : ((y.1.proc p).queue, (y.1.proc p).ticks) = standing (y.2 p) :=
      (EventsReachable.accounted (.next hx trivial hy)).outside p hp'
    rw [hsame, ← hstanding] at hnext
    exact Prod.mk.inj hnext

/-- The first process after its first `yield`: one level down. -/
def firstYield (c : Fin n) (p : Slot) : List (Action n) :=
  ⟨c, .allocproc p⟩ :: List.replicate 9 ⟨c, .go⟩ ++ ⟨c, .yield⟩ :: List.replicate 3 ⟨c, .go⟩

theorem slice_accounting_first_yield :
    ∃ x : State 1 × (Slot → List Event),
      Run.exec (Run.recorded step noteEvent) (firstYield 0 0) (State.boot 1, fun _ => []) = some x ∧
      x.2 0 = [.yield] ∧ (x.1.proc 0).queue = 1 := by
  have hstart : EventsReachable (State.boot 1, fun _ => []) := .start ⟨rfl, rfl⟩
  refine ⟨_, rfl, rfl, (slice_accounting ?_ 0 ?_).2.2.1 1 rfl⟩
  · exact Run.Reach.exec (firstYield 0 0) hstart rfl
  · rintro ⟨c, hc⟩
    have hzero : c = 0 := Subsingleton.elim _ _
    subst hzero
    cases hc

end ShellXv6.Xv6.Smp
