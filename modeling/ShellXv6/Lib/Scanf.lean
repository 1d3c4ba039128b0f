import Mathlib.Data.Int.Notation
import Mathlib.Data.List.TakeWhile
import ShellXv6.Lib.Split

/-!
# Decimal numbers in text

Numbers are printed in decimal and read as `scanf` reads them: white space is
skipped, then come an optional sign and as many digits as there are.  What was
printed is read back if no digit stands behind it.
-/

namespace ShellXv6.Scanf

/-- `isspace` -/
def isSpace (c : Char) : Bool :=
  c = ' ' || c = '\t' || c = '\n' || c = '\x0b' || c = '\x0c' || c = '\r'

def skipSpace (text : List Char) : List Char := text.dropWhile isSpace

def scanDigits (text : List Char) : Option (ℕ × List Char) :=
  let digits := text.takeWhile Char.isDigit
  if digits = [] then none
  else some (Nat.ofDigitChars 10 digits 0, text.dropWhile Char.isDigit)

def scanInt (text : List Char) : Option (ℤ × List Char) :=
  match skipSpace text with
  | '-' :: rest => (scanDigits rest).map fun r => (-(r.1 : ℤ), r.2)
  | '+' :: rest => (scanDigits rest).map fun r => ((r.1 : ℤ), r.2)
  | rest => (scanDigits rest).map fun r => ((r.1 : ℤ), r.2)

def printInt (n : ℤ) : List Char :=
  if n < 0 then '-' :: Nat.toDigits 10 n.natAbs else Nat.toDigits 10 n.natAbs

/-- A column of a table, `%-<width>s`. -/
def padded (width : ℕ) (s : List Char) : List Char := s ++ List.replicate (width - s.length) ' '

theorem skipSpace_cons_of_not {c : Char} (h : isSpace c = false) (rest : List Char) :
    skipSpace (c :: rest) = c :: rest :=
  List.dropWhile_cons_of_neg (Bool.eq_false_iff.mp h)

theorem skipSpace_cons {c : Char} (h : isSpace c = true) (rest : List Char) :
    skipSpace (c :: rest) = skipSpace rest :=
  List.dropWhile_cons_of_pos h

theorem toDigits_isDigit {n : ℕ} : ∀ c ∈ Nat.toDigits 10 n, c.isDigit = true :=
  fun _ hc => Nat.isDigit_of_mem_toDigits (by decide) (by decide) hc

/-- The text does not go on with a digit. -/
def Stops (text : List Char) : Prop := ∀ c ∈ text.head?, c.isDigit = false

theorem scanDigits_toDigits (n : ℕ) {rest : List Char} (h : Stops rest) :
    scanDigits (Nat.toDigits 10 n ++ rest) = some (n, rest) := by
  rw [scanDigits, Split.takeWhile_append_eq toDigits_isDigit h,
    Split.dropWhile_append_eq toDigits_isDigit h, if_neg Nat.toDigits_ne_nil,
    Nat.ofDigitChars_ten_toDigits]

theorem isSpace_of_isDigit {c : Char} (h : c.isDigit = true) : isSpace c = false := by
  by_contra hspace
  rw [Bool.not_eq_false] at hspace
  simp only [isSpace, Bool.or_eq_true, decide_eq_true_eq] at hspace
  rcases hspace with ((((rfl | rfl) | rfl) | rfl) | rfl) | rfl <;> cases h

theorem scanInt_digits {text : List Char} (h : ∀ c ∈ text.head?, c.isDigit = true) :
    scanInt text = (scanDigits text).map fun r => ((r.1 : ℤ), r.2) := by
  cases text with
  | nil => rfl
  | cons c rest =>
      have hc : c.isDigit = true := h c rfl
      rw [scanInt, skipSpace_cons_of_not (isSpace_of_isDigit hc)]
      split
      · rename_i heq
        obtain ⟨rfl, -⟩ := List.cons.inj heq
        cases hc
      · rename_i heq
        obtain ⟨rfl, -⟩ := List.cons.inj heq
        cases hc
      · rfl

/-- What was printed is read back. -/
theorem scanInt_printInt (n : ℤ) {rest : List Char} (h : Stops rest) :
    scanInt (printInt n ++ rest) = some (n, rest) := by
  by_cases hneg : n < 0
  · rw [printInt, if_pos hneg, List.cons_append, scanInt, skipSpace_cons_of_not rfl]
    simp only [scanDigits_toDigits _ h, Option.map_some]
    rw [show -((n.natAbs : ℕ) : ℤ) = n by omega]
  · have hdigit : ∀ c ∈ (Nat.toDigits 10 n.natAbs ++ rest).head?, c.isDigit = true := by
      obtain ⟨d, ds, hds⟩ : ∃ d ds, Nat.toDigits 10 n.natAbs = d :: ds :=
        List.exists_cons_of_ne_nil Nat.toDigits_ne_nil
      intro c hc
      rw [hds] at hc
      cases hc
      exact toDigits_isDigit _ (hds ▸ List.mem_cons_self)
    rw [printInt, if_neg hneg, scanInt_digits hdigit, scanDigits_toDigits _ h, Option.map_some]
    rw [show ((n.natAbs : ℕ) : ℤ) = n by omega]

theorem scanInt_skip {c : Char} (h : isSpace c = true) (rest : List Char) :
    scanInt (c :: rest) = scanInt rest := by
  rw [scanInt, scanInt, skipSpace_cons h]

/-! ## Whole texts -/

/-- At least one digit and nothing else. -/
def IsDecimal (text : List Char) : Prop := text ≠ [] ∧ ∀ c ∈ text, c.isDigit = true

instance (text : List Char) : Decidable (IsDecimal text) :=
  @instDecidableAnd _ _ _ (List.decidableBAll _ text)

def decimalValue (text : List Char) : ℕ := Nat.ofDigitChars 10 text 0

/-- The text as a whole is an integer, with or without a sign. -/
inductive Denotes : List Char → ℤ → Prop
  | plain {ds : List Char} : IsDecimal ds → Denotes ds (decimalValue ds)
  | plus {ds : List Char} : IsDecimal ds → Denotes ('+' :: ds) (decimalValue ds)
  | minus {ds : List Char} : IsDecimal ds → Denotes ('-' :: ds) (-decimalValue ds)

theorem scanDigits_of_isDecimal {text : List Char} (h : IsDecimal text) :
    scanDigits text = some (decimalValue text, []) := by
  have htake : text.takeWhile Char.isDigit = text := List.takeWhile_eq_self_iff.mpr h.2
  have hdrop : text.dropWhile Char.isDigit = [] := List.dropWhile_eq_nil_iff.mpr h.2
  rw [scanDigits, htake, hdrop, if_neg h.1, decimalValue]

theorem scanInt_of_isDecimal {text : List Char} (h : IsDecimal text) :
    scanInt text = some ((decimalValue text : ℤ), []) := by
  rw [scanInt_digits fun c hc => h.2 c (List.mem_of_head? hc), scanDigits_of_isDecimal h,
    Option.map_some]

theorem scanInt_of_denotes {text : List Char} {n : ℤ} (h : Denotes text n) :
    scanInt text = some (n, []) := by
  cases h with
  | plain h => exact scanInt_of_isDecimal h
  | plus h =>
      rw [scanInt, skipSpace_cons_of_not rfl]
      simp only [scanDigits_of_isDecimal h, Option.map_some]
  | minus h =>
      rw [scanInt, skipSpace_cons_of_not rfl]
      simp only [scanDigits_of_isDecimal h, Option.map_some]

end ShellXv6.Scanf
