import Mathlib.Data.Fin.Basic
import Mathlib.Data.Int.ModEq
import Mathlib.Logic.Function.Basic

/-!
# Rings

An array that is used again from its front when its end is reached.  Positions are
counted on without bound, and position `k` is kept in cell `k % cap`; as long as no more
than `cap` positions are in use, they do not disturb each other.
-/

namespace ShellXv6.Ring

variable {α : Type*} {cap : ℕ} [NeZero cap]

/-- The contents of `n` positions from `k` on. -/
def window (cells : Fin cap → α) (k n : ℕ) : List α :=
  (List.range n).map fun j => cells (Fin.ofNat cap (k + j))

variable (cells : Fin cap → α) (k n : ℕ)

theorem window_succ :
    window cells k (n + 1) = window cells k n ++ [cells (Fin.ofNat cap (k + n))] := by
  simp [window, List.range_succ]

theorem window_cons :
    window cells k (n + 1) = cells (Fin.ofNat cap k) :: window cells (k + 1) n := by
  simp [window, List.range_succ_eq_map, Function.comp_def, Nat.add_assoc, Nat.add_comm 1]

variable {cells k n}

/-- Two positions less than `cap` apart have different cells. -/
theorem ofNat_ne {i j : ℕ} (hij : i < j) (hj : j < i + cap) :
    Fin.ofNat cap i ≠ Fin.ofNat cap j := by
  intro h
  have hmod : i ≡ j [MOD cap] := congrArg Fin.val h
  have hle : cap ≤ j - i := Nat.le_of_dvd (by omega) ((Nat.modEq_iff_dvd' hij.le).mp hmod)
  omega

theorem window_put (hn : n < cap) (a : α) :
    window (Function.update cells (Fin.ofNat cap (k + n)) a) k (n + 1) =
      window cells k n ++ [a] := by
  have hother : window (Function.update cells (Fin.ofNat cap (k + n)) a) k n =
      window cells k n := by
    apply List.map_congr_left
    intro j hj
    have hjn : j < n := List.mem_range.mp hj
    exact Function.update_of_ne (ofNat_ne (by omega) (by omega)) _ _
  rw [window_succ, hother, Function.update_self]

/-- A counter that wraps around finds the same cell, if the ring divides its range. -/
theorem ofNat_mod {m : ℕ} (h : cap ∣ m) : Fin.ofNat cap (k % m) = Fin.ofNat cap k :=
  Fin.ext (Nat.mod_mod_of_dvd k h)

end ShellXv6.Ring
