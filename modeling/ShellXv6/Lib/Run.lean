import Mathlib.Init

/-!
# Runs of an action-labelled machine

A machine is a partial step function `step : σ → α → Option σ`: the action
resolves every choice of the environment, and `none` means that the action is
not enabled.  `Reach` collects the states of the runs whose actions all meet a
side condition, so that unrestricted and restricted runs share their rules.
-/

namespace ShellXv6.Run

variable {σ α : Type*}

/-- States reached from an initial state by enabled actions that meet `ok`. -/
inductive Reach (init : σ → Prop) (step : σ → α → Option σ) (ok : σ → α → Prop) : σ → Prop
  | start {s : σ} : init s → Reach init step ok s
  | next {s t : σ} {a : α} : Reach init step ok s → ok s a → step s a = some t →
      Reach init step ok t

/-- The side condition of an unrestricted run. -/
def Any (_ : σ) (_ : α) : Prop := True

variable {init : σ → Prop} {step : σ → α → Option σ} {ok ok' : σ → α → Prop}

/-- A property that holds initially and survives every admissible action of a
reached state holds in every reached state. -/
theorem Reach.invariant {P : σ → Prop} {s : σ} (hs : Reach init step ok s)
    (hinit : ∀ s, init s → P s)
    (hstep : ∀ s a t, Reach init step ok s → P s → ok s a → step s a = some t → P t) :
    P s := by
  induction hs with
  | start h => exact hinit _ h
  | next hr hok ht ih => exact hstep _ _ _ hr ih hok ht

/-- Restricting the actions of a run only removes reached states. -/
theorem Reach.mono {s : σ} (hs : Reach init step ok s)
    (hok : ∀ s a, ok s a → ok' s a) : Reach init step ok' s := by
  induction hs with
  | start h => exact .start h
  | next _ h ht ih => exact .next ih (hok _ _ h) ht

theorem Reach.any {s : σ} (hs : Reach init step ok s) : Reach init step Any s :=
  hs.mono fun _ _ _ => trivial

/-- Carry out a list of actions, failing at the first one that is not enabled. -/
def exec (step : σ → α → Option σ) : List α → σ → Option σ
  | [], s => some s
  | a :: as, s => (step s a).bind (exec step as)

@[simp] theorem exec_nil (s : σ) : exec step [] s = some s := rfl

@[simp] theorem exec_cons (a : α) (as : List α) (s : σ) :
    exec step (a :: as) s = (step s a).bind (exec step as) := rfl

/-- A script that runs to its end from a reached state ends in a reached state,
if its actions are admissible wherever they happen. -/
theorem Reach.script {s t : σ} (as : List α) (hs : Reach init step ok s)
    (hok : ∀ a ∈ as, ∀ s, ok s a) (h : exec step as s = some t) : Reach init step ok t := by
  induction as generalizing s with
  | nil =>
      cases h
      exact hs
  | cons a as ih =>
      obtain ⟨u, hu, hrest⟩ := Option.bind_eq_some_iff.mp h
      obtain ⟨ha, has⟩ := List.forall_mem_cons.mp hok
      exact ih (.next hs (ha s) hu) has hrest

theorem Reach.exec {s t : σ} (as : List α) (hs : Reach init step Any s)
    (h : exec step as s = some t) : Reach init step Any t :=
  hs.script as (fun _ _ _ => trivial) h

/-- The machine whose inadmissible actions are not enabled. -/
def guarded (step : σ → α → Option σ) (ok : σ → α → Prop) [∀ s a, Decidable (ok s a)] (s : σ)
    (a : α) : Option σ :=
  if ok s a then step s a else none

section Guarded

variable [∀ s a, Decidable (ok s a)]

theorem guarded_eq_some_iff {s t : σ} {a : α} :
    guarded step ok s a = some t ↔ ok s a ∧ step s a = some t := by
  by_cases h : ok s a <;> simp [guarded, h]

theorem exec_of_guarded {s t : σ} (as : List α) (h : exec (guarded step ok) as s = some t) :
    exec step as s = some t := by
  induction as generalizing s with
  | nil => exact h
  | cons a as ih =>
      obtain ⟨u, hu, hrest⟩ := Option.bind_eq_some_iff.mp h
      rw [exec_cons, (guarded_eq_some_iff.mp hu).2]
      exact ih hrest

/-- A script whose actions are checked on the way. -/
theorem Reach.of_guarded {s t : σ} (as : List α) (hs : Reach init step ok s)
    (h : Run.exec (guarded step ok) as s = some t) : Reach init step ok t := by
  induction as generalizing s with
  | nil =>
      cases h
      exact hs
  | cons a as ih =>
      obtain ⟨u, hu, hrest⟩ := Option.bind_eq_some_iff.mp h
      obtain ⟨hok, hu⟩ := guarded_eq_some_iff.mp hu
      exact ih (.next hs hok hu) hrest

end Guarded

/-- The machine with a record beside it, which `note` extends at every step. -/
def recorded {ρ : Type*} (step : σ → α → Option σ) (note : σ → α → ρ → ρ) (x : σ × ρ) (a : α) :
    Option (σ × ρ) :=
  (step x.1 a).map fun t => (t, note x.1 a x.2)

theorem recorded_eq_some_iff {ρ : Type*} {note : σ → α → ρ → ρ} {x y : σ × ρ} {a : α} :
    recorded step note x a = some y ↔ step x.1 a = some y.1 ∧ y.2 = note x.1 a x.2 := by
  unfold recorded
  constructor
  · intro h
    obtain ⟨t, ht, rfl⟩ := Option.map_eq_some_iff.mp h
    exact ⟨ht, rfl⟩
  · rintro ⟨ht, hy⟩
    rw [ht, Option.map_some, ← hy]

/-- A recorded run is a run. -/
theorem Reach.of_recorded {ρ : Type*} {note : σ → α → ρ → ρ} {r : ρ} {x : σ × ρ}
    (hx : Reach (fun y => init y.1 ∧ y.2 = r) (recorded step note) (fun y a => ok y.1 a) x) :
    Reach init step ok x.1 := by
  induction hx with
  | start h => exact .start h.1
  | next _ hok ht ih => exact .next ih hok (recorded_eq_some_iff.mp ht).1

theorem Reach.exists_recorded {ρ : Type*} (note : σ → α → ρ → ρ) (r : ρ) {s : σ}
    (hs : Reach init step ok s) :
    ∃ rec, Reach (fun y => init y.1 ∧ y.2 = r) (recorded step note) (fun y a => ok y.1 a)
      (s, rec) := by
  induction hs with
  | start h => exact ⟨r, .start ⟨h, rfl⟩⟩
  | next _ hok ht ih =>
      obtain ⟨rec, hrec⟩ := ih
      exact ⟨_, .next hrec hok (recorded_eq_some_iff.mpr ⟨ht, rfl⟩)⟩

/-- A run from its first state to the first one in which `stop` holds. -/
inductive Until (step : σ → α → Option σ) (stop : σ → Prop) : σ → σ → Prop
  | done {s : σ} : stop s → Until step stop s s
  | next {s t u : σ} {a : α} : ¬ stop s → step s a = some t → Until step stop t u →
      Until step stop s u

/-- Carry out actions up to the first state in which `stop` holds, which is the last. -/
def execUntil (step : σ → α → Option σ) (stop : σ → Prop) [DecidablePred stop] :
    List α → σ → Option σ
  | [], s => if stop s then some s else none
  | a :: as, s => if stop s then none else (step s a).bind (execUntil step stop as)

theorem Until.of_exec {stop : σ → Prop} [DecidablePred stop] {s u : σ} (as : List α)
    (h : execUntil step stop as s = some u) : Until step stop s u := by
  induction as generalizing s with
  | nil =>
      obtain ⟨hstop, h⟩ := Option.ite_none_right_eq_some.mp h
      cases h
      exact .done hstop
  | cons a as ih =>
      obtain ⟨hstop, h⟩ := Option.ite_none_left_eq_some.mp h
      obtain ⟨t, ht, hrest⟩ := Option.bind_eq_some_iff.mp h
      exact .next hstop ht (ih hrest)

theorem Until.stop {stop : σ → Prop} {s u : σ} (h : Until step stop s u) : stop u := by
  induction h with
  | done h => exact h
  | next _ _ _ ih => exact ih

/-- What holds at the start of such a run and survives every step before its
end holds at its end. -/
theorem Until.invariant {stop P : σ → Prop} {s u : σ} (h : Until step stop s u) (hs : P s)
    (hstep : ∀ s a t, P s → ¬ stop s → step s a = some t → P t) : P u := by
  induction h with
  | done _ => exact hs
  | next hns ht _ ih => exact ih (hstep _ _ _ hs hns ht)

end ShellXv6.Run
