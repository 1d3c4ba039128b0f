import ShellXv6.Lib.Run
import Mathlib.Logic.Function.Basic

/-!
# Monitors

Threads that work on shared data under one lock.  A turn is what a thread does from
the moment it gets the lock to the moment it gives it back, because it leaves, goes on
elsewhere or sleeps on a channel.  A turn may wake the sleepers of some channels; a
sleeper may also be roused from outside.  Which thread is next, and what it finds
outside the shared data, is the choice of the environment.
-/

namespace ShellXv6.Monitor

/-- A thread between two turns. -/
inductive Thread (χ L ρ : Type*)
  | ready (pc : L)
  | asleep (chan : χ) (pc : L)
  | left (result : ρ)
  deriving DecidableEq

/-- What a turn does: the data it leaves, the channels it wakes, the events that
others may see and the thread after it. -/
structure Turn (σ χ L ρ ε : Type*) where
  data : σ
  woken : List χ
  events : List ε
  thread : Thread χ L ρ

/-- Where a thread goes on, awake or asleep. -/
def Thread.pc {χ L ρ : Type*} : Thread χ L ρ → Option L
  | .ready pc => some pc
  | .asleep _ pc => some pc
  | .left _ => none

instance {χ L ρ : Type*} [DecidableEq χ] (th : Thread χ L ρ) (chan : χ) :
    Decidable (∃ pc, th = .asleep chan pc) :=
  match th with
  | .asleep chan' pc =>
      if h : chan' = chan then .isTrue ⟨pc, h ▸ rfl⟩
      else .isFalse fun ⟨_, hpc⟩ => h (Thread.asleep.inj hpc).1
  | .ready _ => .isFalse fun ⟨_, hpc⟩ => nomatch hpc
  | .left _ => .isFalse fun ⟨_, hpc⟩ => nomatch hpc

instance {χ L ρ : Type*} [DecidableEq ρ] (th : Thread χ L ρ) (result : ρ) :
    Decidable (th = .left result) :=
  match th with
  | .left result' => decidable_of_iff (result' = result) (Thread.left.injEq ..).to_iff.symm
  | .ready _ => .isFalse nofun
  | .asleep _ _ => .isFalse nofun

structure State (ι σ χ L ρ ε : Type*) where
  data : σ
  thread : ι → Thread χ L ρ
  /-- All events so far, with the threads they belong to. -/
  trace : List (ι × ε)

inductive Action (ι γ : Type*)
  | turn (i : ι) (choice : γ)
  | rouse (i : ι)

variable {ι σ χ L ρ ε γ : Type*}

/-- Where the threads are, awake or asleep. -/
def State.pcs (s : State ι σ χ L ρ ε) (j : ι) : Option L := (s.thread j).pc

theorem State.pcs_of_ready (s : State ι σ χ L ρ ε) (i : ι) (pc : L)
    (hi : s.thread i = .ready pc) : s.pcs i = some pc := by
  rw [pcs, hi]
  rfl

variable [DecidableEq ι]

/-- The events of one thread. -/
def eventsOf (i : ι) (tr : List (ι × ε)) : List ε :=
  tr.filterMap fun e => if e.1 = i then some e.2 else none

theorem eventsOf_append (i : ι) (tr tr' : List (ι × ε)) :
    eventsOf i (tr ++ tr') = eventsOf i tr ++ eventsOf i tr' := List.filterMap_append

theorem mem_eventsOf {i : ι} {tr : List (ι × ε)} {e : ε} : e ∈ eventsOf i tr ↔ (i, e) ∈ tr := by
  simp [eventsOf]

/-! ## A thread roused from outside -/

namespace State

variable (s : State ι σ χ L ρ ε) (i : ι) (pc : L)

def roused : State ι σ χ L ρ ε :=
  { s with thread := Function.update s.thread i (.ready pc) }

def own : List ε := eventsOf i s.trace

@[simp] theorem roused_own (j : ι) : (s.roused i pc).own j = s.own j := rfl

@[simp] theorem roused_thread_self : (s.roused i pc).thread i = .ready pc := by
  simp [roused]

theorem roused_thread_of_ne {j : ι} (h : j ≠ i) :
    (s.roused i pc).thread j = s.thread j := by
  simp [roused, h]

theorem roused_pcs {chan : χ} (hi : s.thread i = .asleep chan pc) :
    (s.roused i pc).pcs = s.pcs := by
  funext j
  by_cases hji : j = i
  · subst hji
    simp [pcs, hi, Thread.pc]
  · rw [pcs, roused_thread_of_ne s i pc hji, pcs]

end State

/-! ## A turn -/

variable [DecidableEq χ]

def Thread.wake (chans : List χ) : Thread χ L ρ → Thread χ L ρ
  | .asleep chan pc => if chan ∈ chans then .ready pc else .asleep chan pc
  | .ready pc => .ready pc
  | .left r => .left r

namespace State

/-- The state after a turn of thread `i`. -/
def after (s : State ι σ χ L ρ ε) (i : ι) (r : Turn σ χ L ρ ε) : State ι σ χ L ρ ε where
  data := r.data
  thread := Function.update (fun j => (s.thread j).wake r.woken) i r.thread
  trace := s.trace ++ r.events.map fun e => (i, e)

end State

/-- `turn i pc d c` is the turn of thread `i` at `pc` on the data `d`, if the choice `c`
is possible there. -/
def step (turn : ι → L → σ → γ → Option (Turn σ χ L ρ ε)) (s : State ι σ χ L ρ ε) :
    Action ι γ → Option (State ι σ χ L ρ ε)
  | .turn i c =>
      match s.thread i with
      | .ready pc => (turn i pc s.data c).map (s.after i)
      | .asleep _ _ => none
      | .left _ => none
  | .rouse i =>
      match s.thread i with
      | .asleep _ pc => some (s.roused i pc)
      | .ready _ => none
      | .left _ => none

/-- All threads are about to begin, and nothing has happened. -/
def Start (d : σ) (begins : ι → L) (s : State ι σ χ L ρ ε) : Prop :=
  s = ⟨d, fun i => .ready (begins i), []⟩

variable {turn : ι → L → σ → γ → Option (Turn σ χ L ρ ε)} {s t : State ι σ χ L ρ ε}
  {a : Action ι γ}

theorem step_cases (h : step turn s a = some t) :
    (∃ i c pc r, a = .turn i c ∧ s.thread i = .ready pc ∧ turn i pc s.data c = some r ∧
      t = s.after i r) ∨
    ∃ i chan pc, a = .rouse i ∧ s.thread i = .asleep chan pc ∧ t = s.roused i pc := by
  cases a with
  | turn i c =>
      cases hi : s.thread i with
      | ready pc =>
          simp only [step, hi, Option.map_eq_some_iff] at h
          obtain ⟨r, hr, rfl⟩ := h
          exact .inl ⟨i, c, pc, r, rfl, hi, hr, rfl⟩
      | asleep chan pc => simp [step, hi] at h
      | left r => simp [step, hi] at h
  | rouse i =>
      cases hi : s.thread i with
      | ready pc => simp [step, hi] at h
      | asleep chan pc =>
          simp only [step, hi, Option.some.injEq] at h
          exact .inr ⟨i, chan, pc, rfl, hi, h.symm⟩
      | left r => simp [step, hi] at h

/-! ## What a turn leaves to the others -/

@[simp] theorem after_data (i : ι) (r : Turn σ χ L ρ ε) : (s.after i r).data = r.data := rfl

@[simp] theorem after_trace (i : ι) (r : Turn σ χ L ρ ε) :
    (s.after i r).trace = s.trace ++ r.events.map fun e => (i, e) := rfl

@[simp] theorem after_thread_self (i : ι) (r : Turn σ χ L ρ ε) :
    (s.after i r).thread i = r.thread := by
  simp [State.after]

theorem after_thread_of_ne {i j : ι} (h : j ≠ i) (r : Turn σ χ L ρ ε) :
    (s.after i r).thread j = (s.thread j).wake r.woken := by
  simp [State.after, h]

theorem after_own_self (i : ι) (r : Turn σ χ L ρ ε) :
    (s.after i r).own i = s.own i ++ r.events := by
  have hself : ((fun e : ι × ε => if e.1 = i then some e.2 else none) ∘ fun e => (i, e)) = some :=
    funext fun _ => if_pos rfl
  rw [State.own, after_trace, eventsOf, List.filterMap_append, List.filterMap_map, hself,
    List.filterMap_some]
  rfl

theorem after_own_of_ne {i j : ι} (h : j ≠ i) (r : Turn σ χ L ρ ε) :
    (s.after i r).own j = s.own j := by
  have hother : ((fun e : ι × ε => if e.1 = j then some e.2 else none) ∘ fun e => (i, e)) =
      fun _ => none := funext fun _ => if_neg h.symm
  rw [State.own, after_trace, eventsOf, List.filterMap_append, List.filterMap_map, hother]
  simp [State.own, eventsOf]

theorem wake_of_mem {chans : List χ} {chan : χ} (h : chan ∈ chans) (pc : L) :
    (Thread.asleep chan pc : Thread χ L ρ).wake chans = .ready pc := if_pos h

theorem wake_of_not_mem {chans : List χ} {chan : χ} (h : chan ∉ chans) (pc : L) :
    (Thread.asleep chan pc : Thread χ L ρ).wake chans = .asleep chan pc := if_neg h

theorem wake_eq_asleep {chans : List χ} {th : Thread χ L ρ} {chan : χ} {pc : L}
    (h : th.wake chans = .asleep chan pc) : th = .asleep chan pc ∧ chan ∉ chans := by
  cases th with
  | ready pc' => cases h
  | left r => cases h
  | asleep chan' pc' =>
      by_cases hmem : chan' ∈ chans
      · rw [wake_of_mem hmem] at h
        cases h
      · rw [wake_of_not_mem hmem] at h
        cases h
        exact ⟨rfl, hmem⟩

theorem wake_eq_left {chans : List χ} {th : Thread χ L ρ} {res : ρ}
    (h : th.wake chans = .left res) : th = .left res := by
  cases th with
  | ready pc => cases h
  | left res' => exact h
  | asleep chan pc =>
      by_cases hmem : chan ∈ chans
      · rw [wake_of_mem hmem] at h
        cases h
      · rw [wake_of_not_mem hmem] at h
        cases h

@[simp] theorem wake_pc (chans : List χ) (th : Thread χ L ρ) : (th.wake chans).pc = th.pc := by
  cases th with
  | ready pc => rfl
  | left res => rfl
  | asleep chan pc =>
      by_cases hmem : chan ∈ chans
      · rw [wake_of_mem hmem]
        rfl
      · rw [wake_of_not_mem hmem]

/-- A turn moves its own thread only. -/
theorem after_pcs (i : ι) (r : Turn σ χ L ρ ε) :
    (s.after i r).pcs = Function.update s.pcs i r.thread.pc := by
  funext j
  by_cases hji : j = i
  · subst hji
    simp [State.pcs]
  · simp [State.pcs, after_thread_of_ne hji, hji]

/-! ## Rules -/

section

variable {d : σ} {begins : ι → L} {ok : State ι σ χ L ρ ε → Action ι γ → Prop}

/-- A property of the data and the trace that every turn keeps. -/
theorem data_invariant {P : σ → List (ι × ε) → Prop}
    (hs : Run.Reach (Start d begins) (step turn) ok s) (hinit : P d [])
    (hturn : ∀ s i pc c r, Run.Reach (Start d begins) (step turn) ok s → ok s (.turn i c) →
      P s.data s.trace → s.thread i = .ready pc → turn i pc s.data c = some r →
      P r.data (s.trace ++ r.events.map fun e => (i, e))) :
    P s.data s.trace := by
  apply hs.invariant (P := fun s => P s.data s.trace)
  · rintro _ rfl
    exact hinit
  · intro s a t hr hP hok hstep
    rcases step_cases hstep with ⟨i, c, pc, r, rfl, hi, hturn', rfl⟩ | ⟨i, chan, pc, rfl, hi, rfl⟩
    · exact hturn s i pc c r hr hok hP hi hturn'
    · exact hP

/-- A property of the data, the trace and the places of the threads that every turn keeps. -/
theorem pc_invariant {P : σ → List (ι × ε) → (ι → Option L) → Prop}
    (hs : Run.Reach (Start d begins) (step turn) ok s) (hinit : P d [] fun i => some (begins i))
    (hturn : ∀ s i pc c r, Run.Reach (Start d begins) (step turn) ok s → ok s (.turn i c) →
      P s.data s.trace s.pcs → s.thread i = .ready pc → turn i pc s.data c = some r →
      P r.data (s.trace ++ r.events.map fun e => (i, e))
        (Function.update s.pcs i r.thread.pc)) :
    P s.data s.trace s.pcs := by
  apply hs.invariant (P := fun s => P s.data s.trace s.pcs)
  · rintro _ rfl
    exact hinit
  · intro s a t hr hP hok hstep
    rcases step_cases hstep with ⟨i, c, pc, r, rfl, hi, hturn', rfl⟩ | ⟨i, chan, pc, rfl, hi, rfl⟩
    · rw [after_pcs]
      exact hturn s i pc c r hr hok hP hi hturn'
    · rw [State.roused_pcs s i pc hi]
      exact hP

/-- A property of each thread and of its own events, which survives its own turns and
being woken. -/
theorem thread_invariant {P : ι → Thread χ L ρ → List ε → Prop}
    (hs : Run.Reach (Start d begins) (step turn) ok s) (hinit : ∀ i, P i (.ready (begins i)) [])
    (hwake : ∀ i chan pc es, P i (.asleep chan pc) es → P i (.ready pc) es)
    (hturn : ∀ s i pc c r, Run.Reach (Start d begins) (step turn) ok s → ok s (.turn i c) →
      P i (.ready pc) (s.own i) → s.thread i = .ready pc → turn i pc s.data c = some r →
      P i r.thread (s.own i ++ r.events)) (i : ι) :
    P i (s.thread i) (s.own i) := by
  revert i
  apply hs.invariant (P := fun s => ∀ i, P i (s.thread i) (s.own i))
  · rintro _ rfl i
    exact hinit i
  · intro s a t hr hP hok hstep j
    rcases step_cases hstep with ⟨i, c, pc, r, rfl, hi, hturn', rfl⟩ | ⟨i, chan, pc, rfl, hi, rfl⟩
    · by_cases hji : j = i
      · subst hji
        rw [after_thread_self, after_own_self]
        exact hturn s j pc c r hr hok (hi ▸ hP j) hi hturn'
      · rw [after_thread_of_ne hji, after_own_of_ne hji]
        have hPj := hP j
        cases hj : s.thread j with
        | ready pc' =>
            rw [hj] at hPj
            exact hPj
        | left r' =>
            rw [hj] at hPj
            exact hPj
        | asleep chan' pc' =>
            rw [hj] at hPj
            by_cases hmem : chan' ∈ r.woken
            · rw [wake_of_mem hmem]
              exact hwake j chan' pc' _ hPj
            · rw [wake_of_not_mem hmem]
              exact hPj
    · by_cases hji : j = i
      · subst hji
        rw [State.roused_thread_self, State.roused_own]
        exact hwake j chan pc _ (hi ▸ hP j)
      · rw [State.roused_thread_of_ne s i pc hji, State.roused_own]
        exact hP j

/-- What a thread makes true of the data when it leaves, and no turn makes false again. -/
theorem left_settled {P : ι → ρ → σ → Prop}
    (hs : Run.Reach (Start d begins) (step turn) ok s)
    (hleave : ∀ s i pc c r res, Run.Reach (Start d begins) (step turn) ok s →
      ok s (.turn i c) → s.thread i = .ready pc → turn i pc s.data c = some r →
      r.thread = .left res → P i res r.data)
    (hkeep : ∀ s i pc c r j res, Run.Reach (Start d begins) (step turn) ok s →
      ok s (.turn i c) → s.thread i = .ready pc → turn i pc s.data c = some r →
      P j res s.data → P j res r.data)
    {i : ι} {res : ρ} (hi : s.thread i = .left res) : P i res s.data := by
  revert i res
  apply hs.invariant
    (P := fun s => ∀ {i : ι} {res : ρ}, s.thread i = .left res → P i res s.data)
  · rintro _ rfl i res h
    cases h
  · intro s a t hr ih hok hstep j res hj
    rcases step_cases hstep with ⟨i, c, pc, r, rfl, hi, hturn, rfl⟩ | ⟨i, chan, pc, rfl, hi, rfl⟩
    · by_cases hji : j = i
      · subst hji
        rw [after_thread_self] at hj
        exact hleave s j pc c r res hr hok hi hturn hj
      · rw [after_thread_of_ne hji] at hj
        exact hkeep s i pc c r j res hr hok hi hturn (ih (wake_eq_left hj))
    · by_cases hji : j = i
      · subst hji
        rw [State.roused_thread_self] at hj
        cases hj
      · rw [State.roused_thread_of_ne s i pc hji] at hj
        exact ih hj

/-- No thread sleeps without need: whoever sleeps on a channel has found its need, and
whoever ends the need wakes the channel. -/
theorem asleep_needed {P : χ → L → State ι σ χ L ρ ε → Prop}
    (hs : Run.Reach (Start d begins) (step turn) ok s)
    (hsleep : ∀ s i pc c r chan pc', Run.Reach (Start d begins) (step turn) ok s →
      ok s (.turn i c) → s.thread i = .ready pc → turn i pc s.data c = some r →
      r.thread = .asleep chan pc' → P chan pc' (s.after i r))
    (hkeep : ∀ s i pc c r chan pc', Run.Reach (Start d begins) (step turn) ok s →
      ok s (.turn i c) → s.thread i = .ready pc → turn i pc s.data c = some r →
      chan ∉ r.woken → P chan pc' s → P chan pc' (s.after i r))
    (hrouse : ∀ s i chan pc chan' pc', s.thread i = .asleep chan' pc' → P chan pc s →
      P chan pc (s.roused i pc'))
    {i : ι} {chan : χ} {pc : L} (hi : s.thread i = .asleep chan pc) : P chan pc s := by
  revert i chan pc
  apply hs.invariant
    (P := fun s => ∀ {i : ι} {chan : χ} {pc : L}, s.thread i = .asleep chan pc →
      P chan pc s)
  · rintro _ rfl i chan pc h
    cases h
  · intro s a t hr ih hok hstep j chan pc' hj
    rcases step_cases hstep with ⟨i, c, pc, r, rfl, hi, hturn', rfl⟩ | ⟨i, chan', pc, rfl, hi, rfl⟩
    · by_cases hji : j = i
      · subst hji
        rw [after_thread_self] at hj
        exact hsleep s j pc c r chan pc' hr hok hi hturn' hj
      · rw [after_thread_of_ne hji] at hj
        obtain ⟨hj', hmem⟩ := wake_eq_asleep hj
        exact hkeep s i pc c r chan pc' hr hok hi hturn' hmem (ih hj')
    · by_cases hji : j = i
      · subst hji
        rw [State.roused_thread_self] at hj
        cases hj
      · rw [State.roused_thread_of_ne s i pc hji] at hj
        exact hrouse s i chan pc' chan' pc hi (ih hj)

end

end ShellXv6.Monitor
