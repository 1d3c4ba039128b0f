import Mathlib.Algebra.Order.Ring.Int
import Mathlib.Tactic.NormNum

/-!
# Numbers stored in a 32-bit signed variable

A sum, or the difference of two 64-bit unsigned numbers, that is stored in a 32-bit
signed variable is taken modulo `2 ^ 32`, balanced around zero.  It is the number
itself as long as that fits.
-/

namespace ShellXv6.IntConversion

/-- What a 32-bit signed variable holds. -/
def toInt (n : ℤ) : ℤ := n.bmod (2 ^ 32)

theorem toInt_of_range {n : ℤ} (h : -2 ^ 31 ≤ n) (h' : n < 2 ^ 31) : toInt n = n := by
  apply Int.bmod_eq_of_le_mul_two <;> omega

theorem toInt_of_lt {n : ℕ} (h : n < 2 ^ 31) : toInt n = n :=
  toInt_of_range (by omega) (by omega)

theorem toInt_lt (n : ℤ) : toInt n < 2 ^ 31 :=
  Int.lt_of_lt_of_le (Int.bmod_lt (by decide)) (by decide)

/-- A number that is a little too large is negative. -/
theorem toInt_neg {n : ℕ} (h : 2 ^ 31 ≤ n) (h' : n < 2 ^ 32) : toInt n < 0 := by
  have heq : toInt n = n - 2 ^ 32 := by
    rw [toInt, ← Int.sub_bmod_right]
    apply Int.bmod_eq_of_le_mul_two <;> omega
  omega

theorem toInt_toInt_add_one (n : ℕ) : toInt (toInt n + 1) = toInt (n + 1 : ℕ) := by
  rw [toInt, toInt, toInt, Int.bmod_add_bmod]
  rfl

theorem toInt_setWidth_bmod (x : BitVec 64) :
    (x.setWidth 32).toInt = x.toInt.bmod (2 ^ 32) := by
  rw [BitVec.toInt_setWidth, BitVec.toInt_eq_toNat_bmod, Int.bmod_bmod_of_dvd (by decide)]

theorem toInt_ofNat_bmod (x : ℕ) :
    (BitVec.ofNat 64 x).toInt.bmod (2 ^ 32) = (x : ℤ).bmod (2 ^ 32) := by
  rw [BitVec.toInt_eq_toNat_bmod, BitVec.toNat_ofNat, Int.bmod_bmod_of_dvd (by decide)]
  push_cast
  rw [← Int.emod_bmod, Int.emod_emod_of_dvd _ (by decide), Int.emod_bmod]

theorem toInt_sub_bmod (x y : BitVec 64) :
    (x - y).toInt.bmod (2 ^ 32) =
      (x.toInt.bmod (2 ^ 32) - y.toInt.bmod (2 ^ 32)).bmod (2 ^ 32) := by
  rw [BitVec.toInt_sub, Int.bmod_bmod_of_dvd (by decide), ← Int.sub_bmod]

theorem toInt_sub_ofNat (x y : ℕ) :
    ((BitVec.ofNat 64 x - BitVec.ofNat 64 y).setWidth 32).toInt =
      Int.bmod ((x : ℤ) - y) (2 ^ 32) := by
  rw [toInt_setWidth_bmod, toInt_sub_bmod, toInt_ofNat_bmod, toInt_ofNat_bmod, ← Int.sub_bmod]

theorem toInt_signExtend_sub_ofNat (x : BitVec 32) (y z : ℕ) :
    ((x.signExtend 64 - BitVec.ofNat 64 y - BitVec.ofNat 64 z).setWidth 32).toInt =
      Int.bmod (x.toInt - y - z) (2 ^ 32) := by
  rw [toInt_setWidth_bmod, toInt_sub_bmod, toInt_sub_bmod, toInt_ofNat_bmod, toInt_ofNat_bmod,
    BitVec.toInt_signExtend, Int.bmod_bmod_of_dvd (by decide), ← Int.sub_bmod, sub_sub,
    Int.bmod_sub_bmod, ← sub_sub, sub_right_comm, Int.sub_bmod_bmod, sub_right_comm]

/-- Times taken from a 32-bit counter give back any age that fits. -/
theorem bmod_sub_mod {x y : ℕ} (hle : y ≤ x) (hfits : x - y < 2 ^ 31) :
    Int.bmod (((x % 2 ^ 32 : ℕ) : ℤ) - ((y % 2 ^ 32 : ℕ) : ℤ)) (2 ^ 32) = (x : ℤ) - y := by
  rw [Int.natCast_mod, Int.natCast_mod, Int.sub_bmod, Int.emod_bmod, Int.emod_bmod,
    ← Int.sub_bmod]
  apply Int.bmod_eq_of_le <;> omega

theorem emod_eq_of_bmod_eq {x y : ℤ} {m : ℕ} (h : x.bmod m = y) : x % m = y % m := by
  rw [← h, Int.bmod_emod]

end ShellXv6.IntConversion
