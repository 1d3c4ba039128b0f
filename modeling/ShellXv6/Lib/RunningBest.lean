import Mathlib.Data.List.Induction
import Mathlib.Order.Lattice

/-!
# The running best of a list

A loop keeps the best element that it has seen and replaces it only by one that is
strictly better.  What it ends with is the first of the elements with the best score.
-/

namespace ShellXv6.RunningBest

variable {α β : Type*} [LinearOrder β] {score : α → β} {l : List α} {w x : α}

/-- All elements in front of `w` are worse, and none behind it is better. -/
def FirstMax (score : α → β) (l : List α) (w : α) : Prop :=
  ∃ before after, l = before ++ w :: after ∧ (∀ x ∈ before, score x < score w) ∧
    ∀ x ∈ after, score x ≤ score w

/-- One round of the loop. -/
def keep (score : α → β) : Option α → α → Option α
  | none, x => some x
  | some w, x => if score w < score x then some x else some w

theorem FirstMax.mem (h : FirstMax score l w) : w ∈ l := by
  obtain ⟨before, after, rfl, -, -⟩ := h
  exact List.mem_append_right _ List.mem_cons_self

theorem FirstMax.le (h : FirstMax score l w) (hx : x ∈ l) : score x ≤ score w := by
  obtain ⟨before, after, rfl, hbefore, hafter⟩ := h
  rcases List.mem_append.mp hx with hx | hx
  · exact (hbefore x hx).le
  · rcases List.mem_cons.mp hx with rfl | hx
    · exact le_rfl
    · exact hafter x hx

/-- Among elements of the same score the first one is taken. -/
theorem FirstMax.first {r : α → α → Prop} (h : FirstMax score l w) (hl : l.Pairwise r)
    (hx : x ∈ l) (heq : score x = score w) : x = w ∨ r w x := by
  obtain ⟨before, after, rfl, hbefore, -⟩ := h
  rcases List.mem_append.mp hx with hx | hx
  · exact absurd heq (hbefore x hx).ne
  · rcases List.mem_cons.mp hx with rfl | hx
    · exact .inl rfl
    · exact .inr ((List.pairwise_cons.mp (List.pairwise_append.mp hl).2.1).1 x hx)

theorem FirstMax.concat_of_le (h : FirstMax score l w) (hx : score x ≤ score w) :
    FirstMax score (l ++ [x]) w := by
  obtain ⟨before, after, rfl, hbefore, hafter⟩ := h
  refine ⟨before, after ++ [x], by rw [List.append_assoc, List.cons_append], hbefore, ?_⟩
  intro y hy
  rcases List.mem_append.mp hy with hy | hy
  · exact hafter y hy
  · rw [List.mem_singleton.mp hy]
    exact hx

theorem FirstMax.concat_of_lt (h : FirstMax score l w) (hx : score w < score x) :
    FirstMax score (l ++ [x]) x :=
  ⟨l, [], rfl, fun _ hy => (h.le hy).trans_lt hx, fun _ hy => absurd hy List.not_mem_nil⟩

theorem FirstMax.concat_keep (h : FirstMax score l w) (x : α) :
    ∃ v, keep score (some w) x = some v ∧ FirstMax score (l ++ [x]) v := by
  by_cases hlt : score w < score x
  · exact ⟨x, if_pos hlt, h.concat_of_lt hlt⟩
  · exact ⟨w, if_neg hlt, h.concat_of_le (not_lt.mp hlt)⟩

theorem firstMax_singleton (score : α → β) (x : α) : FirstMax score [x] x :=
  ⟨[], [], rfl, fun _ hy => absurd hy List.not_mem_nil, fun _ hy => absurd hy List.not_mem_nil⟩

theorem foldl_keep (score : α → β) (l : List α) (hl : l ≠ []) :
    ∃ w, l.foldl (keep score) none = some w ∧ FirstMax score l w := by
  induction l using List.reverseRecOn with
  | nil => exact absurd rfl hl
  | append_singleton l x ih =>
      rw [List.foldl_append]
      by_cases hnil : l = []
      · subst hnil
        exact ⟨x, rfl, firstMax_singleton score x⟩
      · obtain ⟨w, hw, hmax⟩ := ih hnil
        rw [hw]
        exact hmax.concat_keep x

/-- The first best among the elements with a property, in terms of the whole list. -/
theorem FirstMax.of_filter {p : α → Bool} (h : FirstMax score (l.filter p) w) :
    ∃ before after, l = before ++ w :: after ∧ p w = true ∧
      (∀ x ∈ before, p x = true → score x < score w) ∧
      ∀ x ∈ after, p x = true → score x ≤ score w := by
  obtain ⟨before, after, hl, hbefore, hafter⟩ := h
  obtain ⟨front, rest, rfl, hfront, hrest⟩ := List.filter_eq_append_iff.mp hl
  obtain ⟨skipped, back, rfl, hskipped, hw, hback⟩ := List.filter_eq_cons_iff.mp hrest
  refine ⟨front ++ skipped, back, by rw [List.append_assoc], hw, ?_, ?_⟩
  · intro x hx hpx
    rcases List.mem_append.mp hx with hx | hx
    · exact hbefore x (hfront ▸ List.mem_filter.mpr ⟨hx, hpx⟩)
    · exact absurd hpx (hskipped x hx)
  · intro x hx hpx
    exact hafter x (hback ▸ List.mem_filter.mpr ⟨hx, hpx⟩)

end ShellXv6.RunningBest
