import Mathlib.Data.Nat.Notation
import Mathlib.Tactic.SplitIfs

/-!
# Buffered output

A stream collects bytes in a buffer of `size` bytes and writes them when the buffer is
full: at once, or only when the next byte finds no room, as C libraries do it.  If it is
line buffered, it also writes them at each newline.  No byte is lost or changes its
place, so what matters is how many of them are still in the buffer in the end.
-/

namespace ShellXv6.OutputBuffer

variable {β : Type*}

structure Mode (β : Type*) where
  line_buffered : Bool
  isNewline : β → Bool
  size : ℕ
  size_pos : 0 < size
  /-- A full buffer is written before the next byte comes. -/
  eager : Bool

/-- The most bytes that the buffer holds between two of them. -/
def Mode.capacity (mode : Mode β) : ℕ := if mode.eager then mode.size - 1 else mode.size

/-- What a full buffer writes to make room for a byte, and what stays in it. -/
def makeRoom (mode : Mode β) (buffer : List β) : List β × List β :=
  if mode.size ≤ buffer.length then (buffer, []) else ([], buffer)

/-- What is written when a byte is added, and what the buffer holds after it. -/
def put (mode : Mode β) (buffer : List β) (c : β) : List β × List β :=
  let r := makeRoom mode buffer
  if (mode.line_buffered && mode.isNewline c) = true ∨
      mode.eager = true ∧ mode.size ≤ r.2.length + 1 then
    (r.1 ++ r.2 ++ [c], [])
  else (r.1, r.2 ++ [c])

def feed (mode : Mode β) (buffer : List β) : List β → List β × List β
  | [] => ([], buffer)
  | c :: cs =>
      let r := put mode buffer c
      let rest := feed mode r.2 cs
      (r.1 ++ rest.1, rest.2)

theorem makeRoom_append (mode : Mode β) (buffer : List β) :
    (makeRoom mode buffer).1 ++ (makeRoom mode buffer).2 = buffer := by
  rw [makeRoom]
  split_ifs
  · exact List.append_nil _
  · rfl

theorem put_append (mode : Mode β) (buffer : List β) (c : β) :
    (put mode buffer c).1 ++ (put mode buffer c).2 = buffer ++ [c] := by
  have hroom := makeRoom_append mode buffer
  rw [put]
  split_ifs
  · rw [List.append_nil, hroom]
  · rw [← List.append_assoc, hroom]

theorem feed_append_eq (mode : Mode β) (buffer bytes : List β) :
    (feed mode buffer bytes).1 ++ (feed mode buffer bytes).2 = buffer ++ bytes := by
  induction bytes generalizing buffer with
  | nil => exact (List.append_nil buffer).symm
  | cons c cs ih =>
      calc (put mode buffer c).1 ++ (feed mode (put mode buffer c).2 cs).1 ++
            (feed mode (put mode buffer c).2 cs).2
          = (put mode buffer c).1 ++ ((put mode buffer c).2 ++ cs) := by
            rw [List.append_assoc, ih]
        _ = buffer ++ c :: cs := by
            rw [← List.append_assoc, put_append, List.append_assoc, List.singleton_append]

theorem feed_append (mode : Mode β) (buffer l₁ l₂ : List β) :
    feed mode buffer (l₁ ++ l₂) =
      ((feed mode buffer l₁).1 ++ (feed mode (feed mode buffer l₁).2 l₂).1,
        (feed mode (feed mode buffer l₁).2 l₂).2) := by
  induction l₁ generalizing buffer with
  | nil => rfl
  | cons c cs ih => simp only [List.cons_append, feed, ih, List.append_assoc]

/-! ## How much is left -/

/-- The number of bytes behind the last newline that writes the buffer, when there
are `n` in front. -/
def sinceNewline (mode : Mode β) (n : ℕ) : List β → ℕ
  | [] => n
  | c :: cs =>
      if (mode.line_buffered && mode.isNewline c) = true then sinceNewline mode 0 cs
      else sinceNewline mode (n + 1) cs

/-- How many of `n` bytes without such a newline are in the buffer in the end. -/
def Mode.left (mode : Mode β) : ℕ → ℕ
  | 0 => 0
  | n + 1 => if mode.eager then (n + 1) % mode.size else n % mode.size + 1

theorem left_le_capacity (mode : Mode β) (n : ℕ) : mode.left n ≤ mode.capacity := by
  have hpos := mode.size_pos
  rw [Mode.capacity]
  cases n with
  | zero => exact Nat.zero_le _
  | succ n =>
      rw [Mode.left]
      split_ifs
      · exact Nat.le_sub_one_of_lt (Nat.mod_lt _ hpos)
      · exact Nat.mod_lt _ hpos

theorem left_of_le {mode : Mode β} {n : ℕ} (h : n ≤ mode.capacity) : mode.left n = n := by
  have hpos := mode.size_pos
  rw [Mode.capacity] at h
  cases n with
  | zero => rfl
  | succ n =>
      rw [Mode.left]
      split_ifs at h ⊢
      · exact Nat.mod_eq_of_lt (by omega)
      · rw [Nat.mod_eq_of_lt h]

/-- A byte that is no newline makes the buffer longer by one, up to its capacity. -/
theorem left_succ (mode : Mode β) (n : ℕ) :
    mode.left (n + 1) = if mode.eager then (mode.left n + 1) % mode.size
      else if mode.size ≤ mode.left n then 1 else mode.left n + 1 := by
  have hpos := mode.size_pos
  cases n with
  | zero =>
      rw [Mode.left, Mode.left, if_neg (Nat.not_le.mpr hpos), Nat.zero_mod]
  | succ n =>
      rw [Mode.left, Mode.left]
      split_ifs with heager hfull
      · rw [Nat.mod_add_mod]
      · have hlast : n % mode.size + 1 = mode.size :=
          Nat.le_antisymm (Nat.mod_lt n hpos) hfull
        rw [← Nat.mod_add_mod, hlast, Nat.mod_self]
      · rw [← Nat.mod_add_mod, Nat.mod_eq_of_lt (Nat.lt_of_not_le hfull)]

theorem length_put (mode : Mode β) {buffer : List β} {n : ℕ} (h : buffer.length = mode.left n)
    {c : β} (hline : ¬(mode.line_buffered && mode.isNewline c) = true) :
    (put mode buffer c).2.length = mode.left (n + 1) := by
  have hpos := mode.size_pos
  have hcap := left_le_capacity mode n
  rw [left_succ, ← h, put, makeRoom]
  rw [← h, Mode.capacity] at hcap
  by_cases heager : mode.eager = true
  · rw [if_pos heager] at hcap
    have hroom : ¬mode.size ≤ buffer.length := by omega
    rw [if_pos heager, if_neg hroom]
    by_cases hfull : mode.size ≤ buffer.length + 1
    · have heq : buffer.length + 1 = mode.size := by omega
      rw [if_pos (Or.inr ⟨heager, hfull⟩), heq, Nat.mod_self]
      rfl
    · rw [if_neg (not_or.mpr ⟨hline, fun h => hfull h.2⟩), Nat.mod_eq_of_lt (by omega),
        List.length_append]
      rfl
  · rw [if_neg heager, if_neg (not_or.mpr ⟨hline, fun h => heager h.1⟩), List.length_append]
    split_ifs <;> rfl

theorem length_feed (mode : Mode β) {buffer : List β} {n : ℕ} (h : buffer.length = mode.left n)
    (bytes : List β) :
    (feed mode buffer bytes).2.length = mode.left (sinceNewline mode n bytes) := by
  induction bytes generalizing buffer n with
  | nil => exact h
  | cons c cs ih =>
      rw [feed, sinceNewline]
      by_cases hline : (mode.line_buffered && mode.isNewline c) = true
      · rw [if_pos hline]
        apply ih
        rw [put, if_pos (Or.inl hline)]
        rfl
      · rw [if_neg hline]
        exact ih (length_put mode h hline)

end ShellXv6.OutputBuffer
