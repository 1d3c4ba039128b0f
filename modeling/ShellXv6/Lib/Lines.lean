import ShellXv6.Lib.Split

/-!
# Lines with their terminator

`lines` cuts a list behind every separator, as a reader of lines does, and
`List.splitOn` cuts it at the separators. The two differ in the separators they
keep and in an empty last piece, which is no line.
-/

namespace ShellXv6.Lines

variable {α : Type*}

/-- The pieces that are lines: all but an empty last one. -/
def rows : List (List α) → List (List α)
  | [] => []
  | [last] => if last = [] then [] else [last]
  | piece :: next :: rest => piece :: rows (next :: rest)

/-- The pieces from the end of the list, without an empty first one. -/
def upwards : List (List α) → List (List α)
  | [] => []
  | first :: rest => rest.reverse ++ if first = [] then [] else [first]

theorem rows_concat (init : List (List α)) (last : List α) :
    rows (init ++ [last]) = init ++ if last = [] then [] else [last] := by
  induction init with
  | nil => rfl
  | cons first rest ih =>
      rw [List.cons_append, List.cons_append, ← ih]
      cases rest with
      | nil => rfl
      | cons next rest => rfl

/-- The pieces that a reader of lines reverses. -/
theorem reverse_rows_ends (first last : List α) (mid : List (List α)) :
    (rows (first :: (mid ++ [last]))).reverse =
      (if last = [] then [] else [last]) ++ (mid.reverse ++ [first]) := by
  rw [← List.cons_append, rows_concat, List.reverse_append, List.reverse_cons]
  split_ifs <;> rfl

theorem upwards_ends (first last : List α) (mid : List (List α)) :
    upwards (first :: (mid ++ [last])) =
      last :: (mid.reverse ++ if first = [] then [] else [first]) := by
  simp [upwards]

theorem upwards_singleton (piece : List α) : upwards [piece] = (rows [piece]).reverse := by
  by_cases h : piece = []
  · simp [upwards, rows, h]
  · simp [upwards, rows, h]

theorem mem_upwards {pieces : List (List α)} {piece : List α} (h : piece ∈ upwards pieces) :
    piece ∈ pieces := by
  cases pieces with
  | nil => exact h
  | cons first rest =>
      unfold upwards at h
      rcases List.mem_append.mp h with h | h
      · exact List.mem_cons_of_mem _ (List.mem_reverse.mp h)
      · split_ifs at h
        · cases h
        · exact List.mem_cons.mpr (Or.inl (List.mem_singleton.mp h))

/-- Only empty pieces set the two ways to read a text apart. -/
theorem filter_upwards_eq {q : List α → Bool} (hq : q [] = false) (pieces : List (List α)) :
    (upwards pieces).filter q = ((rows pieces).filter q).reverse := by
  have hrows : (rows pieces).filter q = pieces.filter q := by
    induction pieces with
    | nil => rfl
    | cons first rest ih =>
        cases rest with
        | nil =>
            unfold rows
            split_ifs with hfirst
            · simp [hfirst, hq]
            · rfl
        | cons next rest =>
            unfold rows
            rw [List.filter_cons, ih]
            exact List.filter_cons.symm
  rw [hrows]
  cases pieces with
  | nil => rfl
  | cons first rest =>
      unfold upwards
      rw [List.filter_append, List.filter_reverse]
      by_cases hfirst : first = []
      · simp [hfirst, hq]
      · by_cases hqf : q first = true
        · simp [hfirst, hqf]
        · simp [hfirst, hqf]

variable [DecidableEq α] {sep x : α} {l : List α}

/-- The lines of a list, each with the separator that ends it. -/
def lines (sep : α) : List α → List (List α)
  | [] => []
  | x :: l =>
      if x = sep then [x] :: lines sep l
      else
        match lines sep l with
        | [] => [[x]]
        | line :: rest => (x :: line) :: rest

/-- A line with a separator at its end, also when the text ended without one. -/
def complete (sep : α) (line : List α) : List α :=
  if line.getLast? = some sep then line else line ++ [sep]

theorem flatten_lines (sep : α) (l : List α) : (lines sep l).flatten = l := by
  induction l with
  | nil => rfl
  | cons x l ih =>
      unfold lines
      split_ifs with hx
      · rw [List.flatten_cons, ih]
        rfl
      · cases hl : lines sep l with
        | nil =>
            rw [hl] at ih
            rw [← ih]
            rfl
        | cons line rest =>
            rw [hl] at ih
            rw [← ih]
            rfl

theorem lines_append_of_not_mem {piece : List α} (h : sep ∉ piece) (rest : List α) :
    lines sep (piece ++ [sep] ++ rest) = (piece ++ [sep]) :: lines sep rest := by
  induction piece with
  | nil => simp [lines]
  | cons x piece ih =>
      rw [List.mem_cons, not_or] at h
      obtain ⟨hx, hpiece⟩ := h
      have htail := ih hpiece
      rw [List.cons_append, List.cons_append, lines, if_neg (Ne.symm hx), htail]

theorem ne_nil_of_mem_lines {line : List α} (h : line ∈ lines sep l) : line ≠ [] := by
  induction l generalizing line with
  | nil => cases h
  | cons x l ih =>
      unfold lines at h
      split_ifs at h with hx
      · rcases List.mem_cons.mp h with rfl | h
        · exact List.cons_ne_nil _ _
        · exact ih h
      · cases hl : lines sep l with
        | nil =>
            rw [hl, List.mem_singleton] at h
            rw [h]
            exact List.cons_ne_nil _ _
        | cons first rest =>
            rw [hl] at h ih
            rcases List.mem_cons.mp h with rfl | h
            · exact List.cons_ne_nil _ _
            · exact ih (List.mem_cons_of_mem _ h)

theorem mem_of_mem_lines {line : List α} (h : line ∈ lines sep l) : ∀ x ∈ line, x ∈ l := by
  intro x hx
  rw [← flatten_lines sep l]
  exact List.mem_flatten.mpr ⟨line, h, hx⟩

theorem exists_splitOn (sep : α) (l : List α) : ∃ x xs, l.splitOn sep = x :: xs :=
  List.exists_cons_of_ne_nil (List.splitOn_ne_nil sep l)

theorem splitOn_cons_self (sep : α) (l : List α) :
    (sep :: l).splitOn sep = [] :: l.splitOn sep := by
  rw [List.splitOn_cons_eq_if_modifyHead, if_pos (beq_self_eq_true sep)]

theorem splitOn_cons_of_ne (h : x ≠ sep) (l : List α) :
    (x :: l).splitOn sep = (l.splitOn sep).modifyHead (x :: ·) := by
  rw [List.splitOn_cons_eq_if_modifyHead, if_neg (by simpa using h)]

theorem not_mem_of_mem_splitOn {piece : List α} (h : piece ∈ l.splitOn sep) : sep ∉ piece := by
  rw [List.splitOn_eq_splitOnP] at h
  intro hsep
  simpa using (Split.mem_of_mem_splitOnP h sep hsep).1

theorem mem_of_mem_splitOn {piece : List α} (h : piece ∈ l.splitOn sep) : ∀ x ∈ piece, x ∈ l := by
  rw [List.splitOn_eq_splitOnP] at h
  exact fun x hx => (Split.mem_of_mem_splitOnP h x hx).2

theorem exists_mem_splitOn (hx : x ∈ l) (h : x ≠ sep) : ∃ piece ∈ l.splitOn sep, x ∈ piece := by
  rw [List.splitOn_eq_splitOnP]
  exact Split.exists_mem_splitOnP hx (by simpa using h)

theorem complete_cons (x : α) (hl : l ≠ []) : complete sep (x :: l) = x :: complete sep l := by
  obtain ⟨y, ys, rfl⟩ := List.exists_cons_of_ne_nil hl
  unfold complete
  rw [List.getLast?_cons_cons]
  split_ifs
  · rfl
  · rfl

/-- A text with a separator at its end, unless it is empty. -/
def closed (sep : α) (l : List α) : List α :=
  l ++ if l = [] ∨ l.getLast? = some sep then [] else [sep]

theorem closed_cons {x : α} (hl : l ≠ []) : closed sep (x :: l) = x :: closed sep l := by
  obtain ⟨y, ys, rfl⟩ := List.exists_cons_of_ne_nil hl
  simp [closed]

theorem flatten_map_complete (sep : α) (l : List α) :
    ((lines sep l).map (complete sep)).flatten = closed sep l := by
  induction l with
  | nil => rfl
  | cons x l ih =>
      unfold lines
      split_ifs with hx
      · subst hx
        rw [List.map_cons, List.flatten_cons, ih]
        by_cases hl : l = []
        · simp [hl, complete, closed]
        · rw [closed_cons hl]
          simp [complete]
      · cases hl : lines sep l with
        | nil =>
            have hnil : l = [] := by rw [← flatten_lines sep l, hl]; rfl
            simp [hnil, complete, closed, hx]
        | cons line rest =>
            have hline : line ≠ [] := ne_nil_of_mem_lines (by rw [hl]; exact List.mem_cons_self)
            have hne : l ≠ [] := by
              rintro rfl
              cases hl
            rw [closed_cons hne, ← ih, hl, List.map_cons, complete_cons x hline]
            rfl

/-- What a reader of lines sees, told by the pieces between the separators. -/
theorem map_complete_lines (sep : α) (l : List α) :
    (lines sep l).map (complete sep) = (rows (l.splitOn sep)).map (· ++ [sep]) := by
  induction l with
  | nil => simp [lines, rows]
  | cons x l ih =>
      obtain ⟨first, rest, hsplit⟩ := exists_splitOn sep l
      rw [hsplit] at ih
      unfold lines
      split_ifs with hx
      · subst hx
        rw [splitOn_cons_self, hsplit, List.map_cons, ih]
        simp [rows, complete]
      · rw [splitOn_cons_of_ne hx, hsplit]
        cases hl : lines sep l with
        | nil =>
            -- No line is left: the pieces of the rest are one empty piece.
            rw [hl] at ih
            cases rest with
            | nil =>
                have hfirst : first = [] := by
                  by_contra hne
                  simp [rows, hne] at ih
                simp [rows, hfirst, complete, hx]
            | cons next rest => simp [rows] at ih
        | cons line others =>
            have hline : line ≠ [] := ne_nil_of_mem_lines (by rw [hl]; exact List.mem_cons_self)
            rw [hl] at ih
            rw [List.map_cons, complete_cons x hline]
            cases rest with
            | nil =>
                by_cases hfirst : first = []
                · simp [rows, hfirst] at ih
                · simp only [rows, hfirst, if_false, List.map_cons, List.map_nil] at ih
                  obtain ⟨hhead, htail⟩ := List.cons.inj ih
                  simp [rows, hhead, htail]
            | cons next rest =>
                simp only [rows, List.map_cons] at ih
                obtain ⟨hhead, htail⟩ := List.cons.inj ih
                simp [rows, hhead, htail]

theorem splitOn_head_eq_nil_iff (sep : α) (l : List α) :
    (l.splitOn sep).head? = some [] ↔ l = [] ∨ l.head? = some sep := by
  cases l with
  | nil => simp
  | cons x l =>
      by_cases hx : x = sep
      · subst hx
        simp [splitOn_cons_self]
      · obtain ⟨first, rest, hsplit⟩ := exists_splitOn sep l
        rw [splitOn_cons_of_ne hx, hsplit]
        simp [hx]

theorem splitOn_getLast_eq_nil_iff (sep : α) (l : List α) :
    (l.splitOn sep).getLast? = some [] ↔ l = [] ∨ l.getLast? = some sep := by
  induction l with
  | nil => simp
  | cons x l ih =>
      obtain ⟨first, rest, hsplit⟩ := exists_splitOn sep l
      rw [hsplit] at ih
      by_cases hx : x = sep
      · subst hx
        rw [splitOn_cons_self, hsplit, List.getLast?_cons_cons, ih]
        cases l with
        | nil => simp
        | cons y l => simp
      · rw [splitOn_cons_of_ne hx, hsplit]
        cases rest with
        | nil =>
            cases l with
            | nil => simp [hx]
            | cons y l =>
                have hfirst : first ≠ [] := by
                  rintro rfl
                  have hhead := (splitOn_head_eq_nil_iff sep (y :: l)).mp (by rw [hsplit]; rfl)
                  simp only [reduceCtorEq, List.head?_cons, Option.some.injEq, false_or] at hhead
                  subst hhead
                  rw [splitOn_cons_self] at hsplit
                  exact List.splitOn_ne_nil _ _ (List.cons.inj hsplit).2
                simp only [List.getLast?_singleton, Option.some.injEq, hfirst, reduceCtorEq,
                  false_or, false_iff] at ih
                simpa using ih
        | cons next rest =>
            rw [List.modifyHead_cons, List.getLast?_cons_cons]
            rw [List.getLast?_cons_cons] at ih
            cases l with
            | nil => simp at hsplit
            | cons y l => simpa using ih

end ShellXv6.Lines
