import Mathlib.Data.List.Basic

/-!
# Lists cut at separators

How `List.splitOnP` distributes the elements of a list over its pieces: a piece
holds no separator, every other element lies in a piece, and there is one piece
more than there are separators.  `List.takeWhile` and `List.dropWhile` cut a list where
a property ends.
-/

namespace ShellXv6.Split

variable {α : Type*} {p : α → Bool}

theorem splitOnP_eq_cons (p : α → Bool) (l : List α) : ∃ x xs, l.splitOnP p = x :: xs :=
  List.exists_cons_of_ne_nil (List.splitOnP_ne_nil p l)

/-- Elements in front that are no separators belong to the first piece. -/
theorem splitOnP_append_of_forall {l : List α} (hl : ∀ x ∈ l, p x = false) (rest : List α) :
    (l ++ rest).splitOnP p = (rest.splitOnP p).modifyHead (l ++ ·) := by
  obtain ⟨x, xs, hx⟩ := splitOnP_eq_cons p rest
  induction l with
  | nil => simp [hx]
  | cons y l ih =>
      obtain ⟨hy, hl⟩ := List.forall_mem_cons.mp hl
      rw [List.cons_append, List.splitOnP_cons_eq_if_modifyHead, ih hl, hy, hx]
      rfl

theorem sublist_of_mem_splitOnP {l piece : List α} (h : piece ∈ l.splitOnP p) :
    piece.Sublist l := by
  induction l generalizing piece with
  | nil =>
      rw [List.splitOnP_nil, List.mem_singleton] at h
      exact h ▸ List.Sublist.refl _
  | cons y l ih =>
      obtain ⟨x, xs, hx⟩ := splitOnP_eq_cons p l
      rw [hx] at ih
      rw [List.splitOnP_cons_eq_if_modifyHead, hx] at h
      split_ifs at h
      · rcases List.mem_cons.mp h with rfl | h
        · exact List.nil_sublist _
        · exact (ih h).cons y
      · rcases List.mem_cons.mp h with rfl | h
        · exact (ih List.mem_cons_self).cons_cons y
        · exact (ih (List.mem_cons_of_mem _ h)).cons y

theorem mem_of_mem_splitOnP {l piece : List α} (h : piece ∈ l.splitOnP p) :
    ∀ x ∈ piece, p x = false ∧ x ∈ l := by
  induction l generalizing piece with
  | nil =>
      rw [List.splitOnP_nil, List.mem_singleton] at h
      simp [h]
  | cons y l ih =>
      obtain ⟨x, xs, hx⟩ := splitOnP_eq_cons p l
      rw [hx] at ih
      rw [List.splitOnP_cons_eq_if_modifyHead, hx] at h
      have hcons : ∀ {piece}, piece ∈ x :: xs → ∀ z ∈ piece, p z = false ∧ z ∈ y :: l :=
        fun h z hz => (ih h z hz).imp_right (List.mem_cons_of_mem y)
      by_cases hy : p y = true
      · rw [if_pos hy] at h
        rcases List.mem_cons.mp h with rfl | h
        · exact List.forall_mem_nil _
        · exact hcons h
      · rw [if_neg hy] at h
        rcases List.mem_cons.mp h with rfl | h
        · exact List.forall_mem_cons.mpr
            ⟨⟨Bool.eq_false_iff.mpr hy, List.mem_cons_self⟩, hcons List.mem_cons_self⟩
        · exact hcons (List.mem_cons_of_mem _ h)

theorem exists_mem_splitOnP {l : List α} {x : α} (hx : x ∈ l) (hp : p x = false) :
    ∃ piece ∈ l.splitOnP p, x ∈ piece := by
  induction l with
  | nil => cases hx
  | cons y l ih =>
      obtain ⟨z, zs, hz⟩ := splitOnP_eq_cons p l
      rw [hz] at ih
      rw [List.splitOnP_cons_eq_if_modifyHead, hz]
      rcases List.mem_cons.mp hx with rfl | hx
      · rw [if_neg (Bool.eq_false_iff.mp hp)]
        exact ⟨x :: z, List.mem_cons_self, List.mem_cons_self⟩
      · obtain ⟨piece, hpiece, hmem⟩ := ih hx
        by_cases hy : p y = true
        · rw [if_pos hy]
          exact ⟨piece, List.mem_cons_of_mem _ hpiece, hmem⟩
        · rw [if_neg hy]
          rcases List.mem_cons.mp hpiece with rfl | hpiece
          · exact ⟨y :: piece, List.mem_cons_self, List.mem_cons_of_mem _ hmem⟩
          · exact ⟨piece, List.mem_cons_of_mem _ hpiece, hmem⟩

theorem length_splitOnP (p : α → Bool) (l : List α) : (l.splitOnP p).length = l.countP p + 1 := by
  induction l with
  | nil => simp
  | cons y l ih =>
      obtain ⟨x, xs, hx⟩ := splitOnP_eq_cons p l
      rw [List.splitOnP_cons_eq_if_modifyHead, List.countP_cons]
      rw [hx] at ih ⊢
      by_cases hy : p y = true
      · simp [hy, ih]
      · simpa [hy] using ih

/-! ## One cut -/

theorem takeWhile_append_stop {x : α} (h : p x = false) (l rest : List α) :
    (l ++ x :: rest).takeWhile p = l.takeWhile p := by
  rw [List.takeWhile_append]
  split_ifs with hall
  · rw [List.takeWhile_cons_of_neg (Bool.eq_false_iff.mp h), List.append_nil]
    exact ((List.takeWhile_sublist p).eq_of_length hall).symm
  · rfl

section

variable {l rest : List α} (hl : ∀ x ∈ l, p x = true) (hrest : ∀ x ∈ rest.head?, p x = false)
include hl hrest

theorem takeWhile_append_eq : (l ++ rest).takeWhile p = l := by
  rw [List.takeWhile_append_of_pos hl]
  cases rest with
  | nil => exact List.append_nil l
  | cons x rest => rw [List.takeWhile_cons_of_neg (by simp [hrest x rfl]), List.append_nil]

theorem dropWhile_append_eq : (l ++ rest).dropWhile p = rest := by
  rw [List.dropWhile_append_of_pos hl]
  cases rest with
  | nil => rfl
  | cons x rest => exact List.dropWhile_cons_of_neg (by simp [hrest x rfl])

end

section

variable [BEq α] [LawfulBEq α] {a : α} {l : List α} (h : a ∉ l) (rest : List α)
include h

theorem takeWhile_ne : (l ++ a :: rest).takeWhile (· != a) = l :=
  takeWhile_append_eq (fun _ hx => bne_iff_ne.mpr fun heq => h (heq ▸ hx)) (by simp)

theorem dropWhile_ne : (l ++ a :: rest).dropWhile (· != a) = a :: rest :=
  dropWhile_append_eq (fun _ hx => bne_iff_ne.mpr fun heq => h (heq ▸ hx)) (by simp)

end

end ShellXv6.Split
