import Mathlib.Data.List.TakeWhile
import Mathlib.Data.Nat.Notation

/-!
# Strings in fields of fixed size

A string in C ends with its first zero byte, or with the field that holds it.  The bytes from
an address on are a list, and zeros stand behind its end.
-/

namespace ShellXv6.CString

def strncmp : ℕ → List UInt8 → List UInt8 → ℤ
  | 0, _, _ => 0
  | n + 1, p, q =>
    if p.headD 0 ≠ 0 ∧ p.headD 0 = q.headD 0 then strncmp n p.tail q.tail
    else (p.headD 0).toNat - (q.headD 0).toNat

/-- The `n` bytes that `strncpy` writes. -/
def strncpy : ℕ → List UInt8 → List UInt8
  | 0, _ => []
  | n + 1, t =>
    if t.headD 0 = 0 then List.replicate (n + 1) 0 else t.headD 0 :: strncpy n t.tail

/-- The string in a field of `n` bytes. -/
def cstr (n : ℕ) (s : List UInt8) : List UInt8 := (s.take n).takeWhile (· ≠ 0)

theorem cstr_succ (n : ℕ) (s : List UInt8) :
    cstr (n + 1) s = if s.headD 0 = 0 then [] else s.headD 0 :: cstr n s.tail := by
  cases s with
  | nil => rfl
  | cons c s =>
      by_cases hc : c = 0
      · simp [cstr, hc]
      · simp [cstr, hc]

theorem strncmp_eq_zero_iff (n : ℕ) (p q : List UInt8) :
    strncmp n p q = 0 ↔ cstr n p = cstr n q := by
  induction n generalizing p q with
  | zero => simp [strncmp, cstr]
  | succ n ih =>
      rw [strncmp, cstr_succ, cstr_succ]
      generalize p.headD 0 = a
      generalize q.headD 0 = b
      have hsub : ((a.toNat : ℤ) - b.toNat = 0) ↔ a = b := by
        rw [← UInt8.toNat_inj]
        omega
      by_cases ha : a = 0
      · rw [if_neg (fun h => h.1 ha), hsub, if_pos ha]
        by_cases hb : b = 0
        · simp [ha, hb]
        · simp [ha, hb, Ne.symm hb]
      · rw [if_neg ha]
        by_cases hab : a = b
        · rw [if_pos ⟨ha, hab⟩, if_neg (hab ▸ ha), ih]
          simp [hab]
        · rw [if_neg (fun h => hab h.2), hsub]
          by_cases hb : b = 0
          · simp [ha, hb]
          · simp [hab, hb]

theorem length_strncpy (n : ℕ) (t : List UInt8) : (strncpy n t).length = n := by
  induction n generalizing t with
  | zero => rfl
  | succ n ih =>
      rw [strncpy]
      split
      · exact List.length_replicate
      · rw [List.length_cons, ih]

theorem cstr_strncpy (n : ℕ) (t : List UInt8) : cstr n (strncpy n t) = cstr n t := by
  induction n generalizing t with
  | zero => rfl
  | succ n ih =>
      rw [cstr_succ n t, strncpy]
      by_cases ht : t.headD 0 = 0
      · rw [if_pos ht, if_pos ht, List.replicate_succ, cstr_succ]
        rfl
      · rw [if_neg ht, if_neg ht, cstr_succ, List.headD_cons, if_neg ht, List.tail_cons, ih]

end ShellXv6.CString
