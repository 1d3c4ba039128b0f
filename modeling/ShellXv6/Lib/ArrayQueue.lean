import Mathlib.Algebra.BigOperators.Group.Finset.Piecewise
import Mathlib.Algebra.Order.BigOperators.Group.Finset
import Mathlib.Data.Fintype.BigOperators
import Mathlib.Data.List.OfFn
import Mathlib.Logic.Function.Basic

/-!
# A first-in first-out queue in a fixed array

The first `count` cells of the array hold the queue; the cells behind them are
stale.  Removing the head moves every later cell one place down, in place and
from left to right.  `toList` is the abstract queue, and each operation is
related to the list operation it implements.

Where several queues, or several agents, hold entries, an invariant says that their
numbers add up to what a record says.  It survives a step of one of them if the change
of its number is the change of the record.
-/

namespace ShellXv6

structure ArrayQueue (α : Type*) (cap : ℕ) where
  cells : Fin cap → α
  count : ℕ
  count_le : count ≤ cap

namespace ArrayQueue

variable {α : Type*} {cap : ℕ}

def toList (q : ArrayQueue α cap) : List α :=
  List.ofFn fun i : Fin q.count => q.cells ⟨i, i.isLt.trans_le q.count_le⟩

/-- Forget the contents; the cells themselves are not overwritten. -/
def clear (q : ArrayQueue α cap) : ArrayQueue α cap :=
  ⟨q.cells, 0, Nat.zero_le cap⟩

/-- Write behind the last element.  There is no cell to write to when the
array is full. -/
def push (q : ArrayQueue α cap) (a : α) : Option (ArrayQueue α cap) :=
  if h : q.count < cap then
    some ⟨Function.update q.cells ⟨q.count, h⟩ a, q.count + 1, h⟩
  else none

/-- The first `k` iterations of `cells[i] = cells[i + 1]`. -/
def shift (cells : Fin cap → α) : ℕ → Fin cap → α
  | 0 => cells
  | k + 1 =>
      if h : k + 1 < cap then
        Function.update (shift cells k) ⟨k, Nat.lt_of_succ_lt h⟩ (shift cells k ⟨k + 1, h⟩)
      else shift cells k

/-- Remove the head, if there is one. -/
def pop (q : ArrayQueue α cap) : Option (α × ArrayQueue α cap) :=
  if h : 0 < q.count then
    some (q.cells ⟨0, h.trans_le q.count_le⟩,
      ⟨shift q.cells (q.count - 1), q.count - 1, (Nat.sub_le _ _).trans q.count_le⟩)
  else none

@[simp] theorem length_toList (q : ArrayQueue α cap) : q.toList.length = q.count := by
  simp [toList]

@[simp] theorem toList_clear (q : ArrayQueue α cap) : q.clear.toList = [] := rfl

theorem toList_eq_nil_iff (q : ArrayQueue α cap) : q.toList = [] ↔ q.count = 0 := by
  rw [← List.length_eq_zero_iff, length_toList]

theorem push_eq_none_iff (q : ArrayQueue α cap) (a : α) : q.push a = none ↔ cap ≤ q.count := by
  simp [push]

theorem toList_push {q r : ArrayQueue α cap} {a : α} (h : q.push a = some r) :
    r.toList = q.toList ++ [a] := by
  unfold push at h
  split at h
  · rename_i hlt
    cases h
    simp only [toList, List.ofFn_succ_last]
    congr 1
    · congr 1
      funext i
      have hne : (⟨i, i.isLt.trans hlt⟩ : Fin cap) ≠ ⟨q.count, hlt⟩ := by
        intro heq
        exact absurd (Fin.mk.inj_iff.mp heq) i.isLt.ne
      exact Function.update_of_ne hne _ _
    · simp
  · cases h

/-- After `k` iterations the cells below `k` hold their right neighbours. -/
theorem shift_apply (cells : Fin cap → α) (k : ℕ) (hk : k < cap) (i : Fin cap) :
    shift cells k i =
      if h : i.val < k then cells ⟨i + 1, (Nat.succ_le_of_lt h).trans_lt hk⟩ else cells i := by
  induction k generalizing i with
  | zero => simp [shift]
  | succ k ih =>
      have ih' := ih (Nat.lt_of_succ_lt hk)
      simp only [shift, dif_pos hk]
      by_cases hik : i.val = k
      · have hi : i = ⟨k, Nat.lt_of_succ_lt hk⟩ := Fin.ext hik
        -- cell `k + 1` has not been written yet when cell `k` reads it
        rw [hi, Function.update_self, ih']
        simp
      · have hi : i ≠ ⟨k, Nat.lt_of_succ_lt hk⟩ := fun h => hik (congrArg Fin.val h)
        rw [Function.update_of_ne hi, ih']
        by_cases hlt : i.val < k
        · simp [hlt, Nat.lt_succ_of_lt hlt]
        · have hge : ¬ i.val < k + 1 := by omega
          simp [hlt, hge]

theorem pop_eq_none_iff (q : ArrayQueue α cap) : q.pop = none ↔ q.toList = [] := by
  rw [toList_eq_nil_iff]
  simp [pop]

theorem toList_pop {q r : ArrayQueue α cap} {a : α} (h : q.pop = some (a, r)) :
    q.toList = a :: r.toList := by
  unfold pop at h
  split at h
  · rename_i hpos
    cases h
    apply List.ext_getElem
    · simp
      omega
    · intro i hi hi'
      cases i with
      | zero => simp [toList]
      | succ i =>
          have hcap : q.count - 1 < cap := by
            have := q.count_le
            omega
          simp [toList, shift_apply _ _ hcap]
  · cases h

/-- Append a whole list, one `push` after the other. -/
def pushAll (q : ArrayQueue α cap) (as : List α) : Option (ArrayQueue α cap) :=
  as.foldlM push q

@[simp] theorem pushAll_nil (q : ArrayQueue α cap) : q.pushAll [] = some q := rfl

@[simp] theorem pushAll_cons (q : ArrayQueue α cap) (a : α) (as : List α) :
    q.pushAll (a :: as) = (q.push a).bind fun r => r.pushAll as := rfl

theorem toList_pushAll {q r : ArrayQueue α cap} {as : List α} (h : q.pushAll as = some r) :
    r.toList = q.toList ++ as := by
  induction as generalizing q with
  | nil =>
      cases h
      simp
  | cons a as ih =>
      obtain ⟨u, hu, hr⟩ := Option.bind_eq_some_iff.mp h
      rw [ih hr, toList_push hu, List.append_assoc, List.singleton_append]

/-- The appends fit exactly when the total length does. -/
theorem pushAll_isSome_iff (q : ArrayQueue α cap) (as : List α) :
    (q.pushAll as).isSome ↔ q.count + as.length ≤ cap := by
  induction as generalizing q with
  | nil => simpa using q.count_le
  | cons a as ih =>
      rw [pushAll_cons]
      by_cases hlt : q.count < cap
      · simp only [push, dif_pos hlt, Option.bind_some, ih, List.length_cons]
        omega
      · simp only [push, dif_neg hlt, Option.bind_none, Option.isSome_none, List.length_cons]
        simp only [Bool.false_eq_true, false_iff]
        omega

end ArrayQueue

/-! ## Counting entries -/

namespace Ledger

variable {ι κ : Type*} [Fintype ι] [DecidableEq ι]

/-- One agent moves from `f i` to `x`: the total changes by exactly its share. -/
theorem sum_update_add (w : κ → ℕ) (f : ι → κ) (i : ι) (x : κ) :
    (∑ j, w (Function.update f i x j)) + w (f i) = (∑ j, w (f j)) + w x := by
  have hcomp : (fun j => w (Function.update f i x j)) = Function.update (w ∘ f) i (w x) :=
    Function.comp_update w f i x
  have hsplit := Finset.add_sum_erase Finset.univ (w ∘ f) (Finset.mem_univ i)
  rw [hcomp, Finset.sum_update_of_mem (Finset.mem_univ i), Finset.sdiff_singleton_eq_erase]
  simp only [Function.comp_apply] at hsplit ⊢
  omega

theorem length_eq_sum_count (l : List (Option ι)) (hnull : none ∉ l) :
    l.length = ∑ i, l.count (some i) := by
  induction l with
  | nil => simp
  | cons x l ih =>
      cases x with
      | none => simp at hnull
      | some i =>
          have hnull' : none ∉ l := fun h => hnull (List.mem_cons_of_mem _ h)
          simp [List.count_cons, Finset.sum_add_distrib, ← ih hnull']

end Ledger

end ShellXv6
