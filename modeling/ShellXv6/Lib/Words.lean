import Mathlib.Algebra.Group.Nat.Defs
import Mathlib.Logic.Basic

/-!
# Numbers and bits in bytes

A block of bytes holds unsigned numbers of one or more bytes, the low byte first.  A record
is a list of such numbers that do not overlap, and writing a record changes the bytes of its
numbers only.  A byte is also eight bits, which are tested, set and cleared with masks.
-/

namespace ShellXv6.Words

/-- The number in the `n` bytes at `p`. -/
def num (d : ℕ → UInt8) : ℕ → ℕ → ℕ
  | _, 0 => 0
  | p, n + 1 => (d p).toNat + 256 * num d (p + 1) n

def setNum (d : ℕ → UInt8) (p n v : ℕ) (k : ℕ) : UInt8 :=
  if p ≤ k ∧ k < p + n then UInt8.ofNat (v >>> (8 * (k - p))) else d k

variable {d d' : ℕ → UInt8} {p q n m v k : ℕ}

theorem num_congr (h : ∀ k, p ≤ k → k < p + n → d' k = d k) : num d' p n = num d p n := by
  induction n generalizing p with
  | zero => rfl
  | succ n ih =>
      have htail : num d' (p + 1) n = num d (p + 1) n := by
        apply ih
        intro k hp hk
        exact h k (by omega) (by omega)
      rw [num, num, htail, h p (Nat.le_refl p) (by omega)]

theorem num_lt (d : ℕ → UInt8) (p n : ℕ) : num d p n < 256 ^ n := by
  induction n generalizing p with
  | zero => exact Nat.one_pos
  | succ n ih =>
      have hlow := (d p).toNat_lt
      have htail := ih (p + 1)
      rw [num, Nat.pow_succ]
      omega

theorem num_zero (p n : ℕ) : num (fun _ => 0) p n = 0 := by
  induction n generalizing p with
  | zero => rfl
  | succ n ih => rw [num, ih]; rfl

theorem setNum_of_outside (h : k < p ∨ p + n ≤ k) : setNum d p n v k = d k :=
  if_neg (by omega)

theorem num_setNum_of_disjoint (h : q + m ≤ p ∨ p + n ≤ q) :
    num (setNum d p n v) q m = num d q m := by
  apply num_congr
  intro k hq hk
  exact setNum_of_outside (by omega)

theorem num_setNum (h : v < 256 ^ n) : num (setNum d p n v) p n = v := by
  induction n generalizing p v with
  | zero => exact (Nat.lt_one_iff.mp h).symm
  | succ n ih =>
      rw [Nat.pow_succ] at h
      -- above the low byte the bytes are those of `v / 256`
      have htail : num (setNum d p (n + 1) v) (p + 1) n = v / 256 := by
        rw [← ih (p := p + 1) (v := v / 256) (by omega)]
        apply num_congr
        intro k hp hk
        have hshift : 8 * (k - p) = 8 + 8 * (k - (p + 1)) := by omega
        rw [setNum, setNum, if_pos (by omega), if_pos (by omega), hshift, Nat.shiftRight_add,
          Nat.shiftRight_eq_div_pow v 8]
      have hhead : setNum d p (n + 1) v p = UInt8.ofNat v := by
        rw [setNum, if_pos (by omega), Nat.sub_self, Nat.mul_zero, Nat.shiftRight_zero]
      rw [num, htail, hhead, UInt8.toNat_ofNat']
      omega

/-! ## Records -/

structure Field where
  offset : ℕ
  width : ℕ
  value : ℕ

def setFields (d : ℕ → UInt8) (q : ℕ) (fs : List Field) : ℕ → UInt8 :=
  fs.foldl (fun d f => setNum d (q + f.offset) f.width f.value) d

variable {fs : List Field} {f : Field}

theorem setFields_of_outside (h : ∀ f ∈ fs, k < q + f.offset ∨ q + f.offset + f.width ≤ k) :
    setFields d q fs k = d k := by
  induction fs generalizing d with
  | nil => rfl
  | cons f fs ih =>
      obtain ⟨hf, hfs⟩ := List.forall_mem_cons.mp h
      exact (ih hfs).trans (setNum_of_outside hf)

/-- Each number of a record whose numbers lie one behind the other can be read back. -/
theorem num_setFields (hfs : fs.Pairwise fun f g => f.offset + f.width ≤ g.offset) (hf : f ∈ fs)
    (hv : f.value < 256 ^ f.width) :
    num (setFields d q fs) (q + f.offset) f.width = f.value := by
  induction fs generalizing d with
  | nil => cases hf
  | cons g fs ih =>
      obtain ⟨hg, hfs⟩ := List.pairwise_cons.mp hfs
      rcases List.mem_cons.mp hf with rfl | hmem
      · rw [← num_setNum hv (d := d) (p := q + f.offset)]
        apply num_congr
        intro k hp hk
        have hbehind : ∀ g ∈ fs, k < q + g.offset ∨ q + g.offset + g.width ≤ k := by
          intro g hmem
          have := hg g hmem
          exact .inl (by omega)
        exact setFields_of_outside hbehind
      · exact ih hfs hmem

/-! ## Bits -/

/-- `x & (1 << k)` -/
def test (x : UInt8) (k : ℕ) : Bool := (x.toBitVec &&& 1#8 <<< k) != 0#8

/-- `x | (1 << k)` -/
def set (x : UInt8) (k : ℕ) : UInt8 := ⟨x.toBitVec ||| 1#8 <<< k⟩

/-- `x & ~(1 << k)` -/
def clear (x : UInt8) (k : ℕ) : UInt8 := ⟨x.toBitVec &&& ~~~(1#8 <<< k)⟩

variable {j : ℕ}

theorem test_eq (x : UInt8) (h : k < 8) : test x k = x.toBitVec.getLsbD k := by
  have hall : ∀ x : BitVec 8, ∀ k : Fin 8, ((x &&& 1#8 <<< k.val) != 0#8) = x.getLsbD k := by
    decide +kernel
  exact hall x.toBitVec ⟨k, h⟩

/-- The mask `1 << k` has the bit `k` and no other. -/
theorem getLsbD_mask (hj : j < 8) : (1#8 <<< k).getLsbD j = decide (j = k) := by
  rw [BitVec.getLsbD_shiftLeft, BitVec.getLsbD_one]
  by_cases h : j = k
  · subst h
    simp [hj]
  · have hcases : j < k ∨ j - k ≠ 0 := by omega
    rcases hcases with hlt | hne
    · simp [h, hlt]
    · simp [h, hne]

theorem test_set (x : UInt8) (hj : j < 8) : test (set x k) j = (test x j || decide (j = k)) := by
  rw [test_eq _ hj, test_eq _ hj, set, BitVec.getLsbD_or, getLsbD_mask hj]

theorem test_clear (x : UInt8) (hj : j < 8) :
    test (clear x k) j = (test x j && decide (j ≠ k)) := by
  rw [test_eq _ hj, test_eq _ hj, clear, BitVec.getLsbD_and, BitVec.getLsbD_not,
    getLsbD_mask hj, decide_eq_true hj, Bool.true_and, decide_not]

end ShellXv6.Words
