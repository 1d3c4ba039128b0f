import Mathlib.Data.PNat.Basic

/-!
# Transfers in parts

A call that moves bytes is asked for some number of them and may move fewer, but at
least one as long as there are any.  A loop around such a call ends when nothing is
left.  If the state on the other side takes each part at the end of what it has got,
it gets everything, however the bytes are cut into parts.
-/

namespace ShellXv6.Transfer

variable {σ β : Type*}

structure Loop (σ β : Type*) where
  /-- The number of bytes asked for, when so many are left. -/
  request : σ → ℕ → ℕ
  /-- The state after a part has been moved. -/
  accept : σ → List β → σ

namespace Loop

/-- The bytes of one call. -/
def amount (l : Loop σ β) (granted : ℕ+) (s : σ) (rest : List β) : ℕ :=
  min granted (min (l.request s rest.length) rest.length)

/-- The loop ends with the first call that moves nothing. -/
def run (l : Loop σ β) (granted : ℕ → ℕ+) : ℕ → σ → List β → σ
  | 0, s, _ => s
  | fuel + 1, s, rest =>
      let n := l.amount (granted fuel) s rest
      if n = 0 then s else run l granted fuel (l.accept s (rest.take n)) (rest.drop n)

/-- Parts are taken over at the end of `view`, and more is asked for as long as there
is more. -/
structure Keeps (l : Loop σ β) (Inv : σ → Prop) (view : σ → List β) : Prop where
  asks : ∀ s n, Inv s → 0 < n → 0 < l.request s n
  inv : ∀ s n part, Inv s → part.length ≤ l.request s n → Inv (l.accept s part)
  view : ∀ s part, Inv s → view (l.accept s part) = view s ++ part

variable {l : Loop σ β} {Inv : σ → Prop} {view : σ → List β}

theorem amount_eq_zero (h : l.Keeps Inv view) {granted : ℕ+} {s : σ} (hs : Inv s)
    {rest : List β} (hn : l.amount granted s rest = 0) : rest = [] := by
  by_contra hrest
  have hlen : 0 < rest.length := List.length_pos_iff.mpr hrest
  have hasks : 0 < l.request s rest.length := h.asks s _ hs hlen
  have hgranted : 0 < (granted : ℕ) := granted.pos
  rw [amount] at hn
  omega

theorem run_keeps (h : l.Keeps Inv view) (granted : ℕ → ℕ+) {fuel : ℕ} {s : σ} (hs : Inv s)
    {rest : List β} (hfuel : rest.length ≤ fuel) :
    Inv (l.run granted fuel s rest) ∧ view (l.run granted fuel s rest) = view s ++ rest := by
  induction fuel generalizing s rest with
  | zero =>
      rw [List.eq_nil_of_length_eq_zero (Nat.le_zero.mp hfuel), List.append_nil]
      exact ⟨hs, rfl⟩
  | succ fuel ih =>
      rw [run]
      generalize hn : l.amount (granted fuel) s rest = n
      split_ifs with hzero
      · rw [amount_eq_zero h hs (hn.trans hzero), List.append_nil]
        exact ⟨hs, rfl⟩
      · have hle : n ≤ l.request s rest.length := by
          rw [← hn, amount]
          omega
        have hpart : (rest.take n).length ≤ l.request s rest.length :=
          Nat.le_trans (List.length_take_le n rest) hle
        have hrest : (rest.drop n).length ≤ fuel := by
          rw [List.length_drop]
          omega
        obtain ⟨hinv, hview⟩ := ih (h.inv s _ _ hs hpart) hrest
        refine ⟨hinv, hview.trans ?_⟩
        rw [h.view s _ hs, List.append_assoc, List.take_append_drop]

end Loop

end ShellXv6.Transfer
