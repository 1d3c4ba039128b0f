import Mathlib.Data.Nat.Find
import Mathlib.Logic.Function.Basic

/-!
# Tables of open descriptors

A process holds finitely many open descriptors, numbers that stand for files. A new
descriptor is the lowest free number. Closing the descriptors that a sequence of
calls has opened gives back the table from before the calls.
-/

namespace ShellXv6.DescriptorTable

variable {F : Type*}

/-- The file behind each descriptor; only finitely many are open. -/
structure Table (F : Type*) where
  file : ℕ → Option F
  bounded : ∃ n, ∀ fd, n ≤ fd → file fd = none

namespace Table

@[ext] theorem ext {t u : Table F} (h : ∀ fd, t.file fd = u.file fd) : t = u := by
  obtain ⟨f, hf⟩ := t
  obtain ⟨g, hg⟩ := u
  have hfg : f = g := funext h
  subst hfg
  rfl

theorem exists_free (t : Table F) : ∃ fd, t.file fd = none := by
  obtain ⟨n, hn⟩ := t.bounded
  exact ⟨n, hn n le_rfl⟩

def isOpen (t : Table F) (fd : ℕ) : Prop := t.file fd ≠ none

/-- The descriptor that the next call gets. -/
def lowest (t : Table F) : ℕ :=
  Nat.find (p := fun fd => (t.file fd).isNone = true) (by simpa using t.exists_free)

theorem file_lowest (t : Table F) : t.file t.lowest = none := by
  have h : (t.file t.lowest).isNone = true :=
    Nat.find_spec (p := fun fd => (t.file fd).isNone = true) _
  simpa using h

def assign (t : Table F) (fd : ℕ) (f : Option F) : Table F where
  file := Function.update t.file fd f
  bounded := by
    obtain ⟨n, hn⟩ := t.bounded
    refine ⟨max n (fd + 1), fun m hm => ?_⟩
    rw [Function.update_of_ne (by omega)]
    exact hn m (by omega)

@[simp] theorem file_assign (t : Table F) (fd : ℕ) (f : Option F) (m : ℕ) :
    (t.assign fd f).file m = if m = fd then f else t.file m :=
  Function.update_apply _ _ _ _

def close (t : Table F) (fd : ℕ) : Table F := t.assign fd none

/-- `dup2`, which fails when the first descriptor is not open. -/
def dup2 (t : Table F) (old new : ℕ) : Option (Table F) :=
  (t.file old).map fun f => t.assign new (some f)

/-- A call that opens a file: the table with the new descriptor, and the descriptor. -/
def openNew (t : Table F) (f : F) : Table F × ℕ := (t.assign t.lowest (some f), t.lowest)

theorem assign_assign (t : Table F) (fd : ℕ) (f g : Option F) :
    (t.assign fd f).assign fd g = t.assign fd g := by
  ext1 m
  simp only [file_assign]
  split_ifs <;> rfl

theorem assign_comm (t : Table F) {fd m : ℕ} (h : fd ≠ m) (f g : Option F) :
    (t.assign fd f).assign m g = (t.assign m g).assign fd f := by
  ext1 k
  simp only [file_assign]
  split_ifs with h₁ h₂
  · exact absurd (h₂.symm.trans h₁) h
  · rfl
  · rfl
  · rfl

theorem close_comm (t : Table F) {fd m : ℕ} (h : fd ≠ m) :
    (t.close fd).close m = (t.close m).close fd :=
  t.assign_comm h none none

theorem assign_self (t : Table F) (fd : ℕ) : t.assign fd (t.file fd) = t := by
  ext1 m
  rw [file_assign]
  split_ifs with h
  · rw [h]
  · rfl

/-- Closing what was opened last gives back the table. -/
@[simp] theorem close_openNew (t : Table F) (f : F) :
    (t.openNew f).1.close (t.openNew f).2 = t := by
  rw [openNew, close, assign_assign, ← t.file_lowest, assign_self]

theorem lowest_ne (t : Table F) {fd : ℕ} (h : t.file fd ≠ none) : t.lowest ≠ fd := by
  rintro rfl
  exact h t.file_lowest

/-- The same descriptors, with the files under other names. -/
def map {G : Type*} (g : F → G) (t : Table F) : Table G where
  file := fun fd => (t.file fd).map g
  bounded := by
    obtain ⟨n, hn⟩ := t.bounded
    exact ⟨n, fun fd hfd => by rw [hn fd hfd]; rfl⟩

/-- Two descriptors for the two ends of a pipe. -/
def pipe (t : Table F) (r w : F) : Table F × (ℕ × ℕ) :=
  let t₁ := t.assign t.lowest (some r)
  (t₁.assign t₁.lowest (some w), (t.lowest, t₁.lowest))

def closeAll (t : Table F) (pipes : List (ℕ × ℕ)) : Table F :=
  pipes.foldl (fun t p => (t.close p.1).close p.2) t

/-- The descriptors of a list of pipes. -/
def ends (pipes : List (ℕ × ℕ)) : List ℕ := pipes.flatMap fun p => [p.1, p.2]

theorem mem_ends {pipes : List (ℕ × ℕ)} {fd : ℕ} :
    fd ∈ ends pipes ↔ ∃ p ∈ pipes, fd = p.1 ∨ fd = p.2 := by
  simp [ends]

@[simp] theorem file_closeAll (t : Table F) (pipes : List (ℕ × ℕ)) (fd : ℕ) :
    (t.closeAll pipes).file fd = if fd ∈ ends pipes then none else t.file fd := by
  induction pipes generalizing t with
  | nil => simp [closeAll, ends]
  | cons p rest ih =>
      have hstep : t.closeAll (p :: rest) = ((t.close p.1).close p.2).closeAll rest := rfl
      rw [hstep, ih]
      simp only [close, file_assign, ends, List.flatMap_cons, List.mem_append, List.mem_cons,
        List.not_mem_nil, or_false]
      by_cases hrest : fd ∈ rest.flatMap fun p => [p.1, p.2]
      · simp [hrest]
      · by_cases h₁ : fd = p.1
        · simp [h₁]
        · by_cases h₂ : fd = p.2
          · simp [h₂]
          · simp [hrest, h₁, h₂]

/-- The table `u` is `t` with the pipes open besides: the `j`-th of them has the ends
`r j` and `w j`. -/
structure Opened (r w : ℕ → F) (t u : Table F) (pipes : List (ℕ × ℕ)) : Prop where
  fresh : ∀ fd ∈ ends pipes, t.file fd = none
  same : ∀ fd, fd ∉ ends pipes → u.file fd = t.file fd
  files : ∀ j p, pipes[j]? = some p → u.file p.1 = some (r j) ∧ u.file p.2 = some (w j)

variable {r w : ℕ → F} {t u : Table F} {pipes : List (ℕ × ℕ)}

theorem Opened.refl (r w : ℕ → F) (t : Table F) : Opened r w t t [] where
  fresh := fun fd hfd => absurd hfd List.not_mem_nil
  same := fun _ _ => rfl
  files := fun j p hp => by simp at hp

theorem Opened.isOpen (h : Opened r w t u pipes) {fd : ℕ} (hfd : fd ∈ ends pipes) :
    u.isOpen fd := by
  obtain ⟨p, hp, hends⟩ := mem_ends.mp hfd
  obtain ⟨j, hj⟩ := List.mem_iff_getElem?.mp hp
  obtain ⟨hr, hw⟩ := h.files j p hj
  unfold Table.isOpen
  rcases hends with rfl | rfl
  · rw [hr]
    exact Option.some_ne_none _
  · rw [hw]
    exact Option.some_ne_none _

/-- A descriptor that is free among the open pipes was free before them. -/
theorem Opened.free (h : Opened r w t u pipes) {fd : ℕ} (hfd : u.file fd = none) :
    fd ∉ ends pipes ∧ t.file fd = none := by
  have hends : fd ∉ ends pipes := fun hmem => h.isOpen hmem hfd
  exact ⟨hends, (h.same fd hends).symm.trans hfd⟩

theorem Opened.pipe (h : Opened r w t u pipes) :
    Opened r w t (u.pipe (r pipes.length) (w pipes.length)).1
      (pipes ++ [(u.pipe (r pipes.length) (w pipes.length)).2]) := by
  have hends : ∀ {fd x y : ℕ}, fd ∈ ends (pipes ++ [(x, y)]) ↔
      fd ∈ ends pipes ∨ fd = x ∨ fd = y := by
    intro fd x y
    simp [ends]
  unfold Table.pipe
  simp only
  generalize hx : u.lowest = x
  have hfreex : u.file x = none := hx ▸ u.file_lowest
  generalize hv : u.assign x (some (r pipes.length)) = v
  generalize hy : v.lowest = y
  have hfreey : v.file y = none := hy ▸ v.file_lowest
  have hyx : y ≠ x := by
    rintro rfl
    rw [← hv, file_assign, if_pos rfl] at hfreey
    cases hfreey
  have hufreey : u.file y = none := by
    rw [← hv, file_assign, if_neg hyx] at hfreey
    exact hfreey
  have hfile : ∀ fd, (v.assign y (some (w pipes.length))).file fd =
      if fd = y then some (w pipes.length)
      else if fd = x then some (r pipes.length) else u.file fd := by
    intro fd
    rw [file_assign, ← hv, file_assign]
  refine ⟨?_, ?_, ?_⟩
  · intro fd hfd
    rcases hends.mp hfd with hfd | rfl | rfl
    · exact h.fresh fd hfd
    · exact (h.free hfreex).2
    · exact (h.free hufreey).2
  · intro fd hfd
    rw [hends, not_or, not_or] at hfd
    rw [hfile, if_neg hfd.2.2, if_neg hfd.2.1]
    exact h.same fd hfd.1
  · intro j p hp
    rcases Nat.lt_or_ge j pipes.length with hj | hj
    · -- The older pipes keep their descriptors, which were not free.
      rw [List.getElem?_append_left hj] at hp
      obtain ⟨hr, hw⟩ := h.files j p hp
      have hne : ∀ {fd : ℕ} {f : F}, u.file fd = some f → fd ≠ y ∧ fd ≠ x := by
        intro fd f hfd
        refine ⟨?_, ?_⟩
        · rintro rfl
          rw [hufreey] at hfd
          cases hfd
        · rintro rfl
          rw [hfreex] at hfd
          cases hfd
      rw [hfile, hfile, if_neg (hne hr).1, if_neg (hne hr).2, if_neg (hne hw).1,
        if_neg (hne hw).2]
      exact ⟨hr, hw⟩
    · rw [List.getElem?_append_right hj, List.getElem?_singleton] at hp
      split_ifs at hp with hzero
      · have hlast : j = pipes.length := by omega
        cases hp
        rw [hfile, hfile, if_neg (Ne.symm hyx), if_pos rfl, if_pos rfl, hlast]
        exact ⟨rfl, rfl⟩

/-- Closing what was opened gives back the table. -/
theorem Opened.closeAll (h : Opened r w t u pipes) : u.closeAll pipes = t := by
  ext1 fd
  rw [file_closeAll]
  split_ifs with hfd
  · exact (h.fresh fd hfd).symm
  · exact h.same fd hfd

end Table

end ShellXv6.DescriptorTable
