import Mathlib.Init

/-!
# Data refinement with results

A concrete type is used through operations that return something and may fail, an
abstract one through total operations.  If each operation keeps the relation between
the two and returns the same, so does every sequence of operations.
-/

namespace ShellXv6.Simulation

variable {σ τ α ρ ε : Type*}

/-- The operations one after the other, with what they return. -/
def run (step : σ → α → Except ε (ρ × σ)) : List α → σ → Except ε (List ρ × σ)
  | [], s => .ok ([], s)
  | a :: as, s =>
      match step s a with
      | .error e => .error e
      | .ok (r, t) =>
          match run step as t with
          | .error e => .error e
          | .ok (rs, u) => .ok (r :: rs, u)

def totalRun (step : τ → α → ρ × τ) : List α → τ → List ρ × τ
  | [], t => ([], t)
  | a :: as, t => ((step t a).1 :: (totalRun step as (step t a).2).1,
      (totalRun step as (step t a).2).2)

/-- A property of all states that a sequence of operations goes through. -/
def Always (ok : τ → Prop) (step : τ → α → ρ × τ) : List α → τ → Prop
  | [], t => ok t
  | a :: as, t => ok t ∧ Always ok step as (step t a).2

instance Always.decidable (ok : τ → Prop) [DecidablePred ok] (step : τ → α → ρ × τ) :
    ∀ (as : List α) (t : τ), Decidable (Always ok step as t)
  | [], t => inferInstanceAs (Decidable (ok t))
  | a :: as, t =>
      have := Always.decidable ok step as (step t a).2
      inferInstanceAs (Decidable (ok t ∧ Always ok step as (step t a).2))

variable {rel : σ → τ → Prop} {ok : τ → Prop} {cstep : σ → α → Except ε (ρ × σ)}
  {astep : τ → α → ρ × τ}

theorem Always.head {as : List α} {t : τ} (h : Always ok astep as t) : ok t := by
  cases as with
  | nil => exact h
  | cons a as => exact h.1

theorem run_of_step
    (hstep : ∀ s t a, rel s t → ok t → ok (astep t a).2 →
      ∃ s', cstep s a = .ok ((astep t a).1, s') ∧ rel s' (astep t a).2)
    (as : List α) {s : σ} {t : τ} (hrel : rel s t) (hok : Always ok astep as t) :
    ∃ s', run cstep as s = .ok ((totalRun astep as t).1, s') ∧
      rel s' (totalRun astep as t).2 := by
  induction as generalizing s t with
  | nil => exact ⟨s, rfl, hrel⟩
  | cons a as ih =>
      obtain ⟨hhere, hrest⟩ := hok
      obtain ⟨u, hu, hrel'⟩ := hstep s t a hrel hhere hrest.head
      obtain ⟨s', hs', hend⟩ := ih hrel' hrest
      refine ⟨s', ?_, hend⟩
      rw [run, hu]
      simp only [hs', totalRun]

end ShellXv6.Simulation
