import Mathlib.Data.Nat.Notation
import Mathlib.Logic.Function.Basic

/-!
# Who owns which block

Blocks below `hi` are given out to owners, one block to each owner at most, and a map says
which blocks are in use.  An owner without a block has block `0`.  The blocks below `lo`
belong to nobody and are always in use.
-/

namespace ShellXv6.Ownership

variable {κ : Type*}

/-- The map and the owners agree: nothing is shared, nothing is lost. -/
structure Owned (lo hi : ℕ) (owner : κ → ℕ) (used : ℕ → Prop) : Prop where
  pos : 0 < lo
  reserved : ∀ b, b < lo → used b
  range : ∀ k, owner k ≠ 0 → lo ≤ owner k ∧ owner k < hi
  marked : ∀ k, owner k ≠ 0 → used (owner k)
  unshared : ∀ k k', owner k = owner k' → owner k ≠ 0 → k = k'
  found : ∀ b, lo ≤ b → b < hi → used b → ∃ k, owner k = b

variable {lo hi b : ℕ} {owner owner' : κ → ℕ} {used used' : ℕ → Prop} {k : κ}

namespace Owned

theorem congr (h : Owned lo hi owner used) (howner : ∀ k, owner' k = owner k)
    (hused : ∀ b < hi, used' b ↔ used b) (hle : lo ≤ hi) : Owned lo hi owner' used' where
  pos := h.pos
  reserved b hb := (hused b (Nat.lt_of_lt_of_le hb hle)).mpr (h.reserved b hb)
  range k hk := by
    rw [howner] at hk ⊢
    exact h.range k hk
  marked k hk := by
    rw [howner] at hk ⊢
    exact (hused _ (h.range k hk).2).mpr (h.marked k hk)
  unshared k k' := by
    rw [howner, howner]
    exact h.unshared k k'
  found b hlo hhi hb := by
    obtain ⟨k, hk⟩ := h.found b hlo hhi ((hused b hhi).mp hb)
    exact ⟨k, (howner k).trans hk⟩

/-- A free block has no owner and is not reserved. -/
theorem ne_of_free (h : Owned lo hi owner used) (hb : ¬used b) (hk : owner k ≠ 0) :
    owner k ≠ b := by
  rintro rfl
  exact hb (h.marked k hk)

theorem le_of_free (h : Owned lo hi owner used) (hb : ¬used b) : lo ≤ b :=
  Nat.le_of_not_lt fun hlt => hb (h.reserved b hlt)

theorem assign [DecidableEq κ] (h : Owned lo hi owner used) (hk : owner k = 0) (hb : ¬used b)
    (hhi : b < hi) (howner : ∀ j, owner' j = Function.update owner k b j)
    (hused : ∀ x < hi, used' x ↔ used x ∨ x = b) : Owned lo hi owner' used' := by
  have hlo : lo ≤ b := h.le_of_free hb
  have hpos := h.pos
  have hself : owner' k = b := (howner k).trans (Function.update_self ..)
  have hother : ∀ j, j ≠ k → owner' j = owner j := fun j hj =>
    (howner j).trans (Function.update_of_ne hj ..)
  refine ⟨hpos, ?_, ?_, ?_, ?_, ?_⟩
  · intro x hx
    exact (hused x (by omega)).mpr (.inl (h.reserved x hx))
  · intro j hj
    by_cases hjk : j = k
    · rw [hjk, hself]
      exact ⟨hlo, hhi⟩
    · rw [hother j hjk] at hj ⊢
      exact h.range j hj
  · intro j hj
    by_cases hjk : j = k
    · rw [hjk, hself]
      exact (hused b hhi).mpr (.inr rfl)
    · rw [hother j hjk] at hj ⊢
      exact (hused _ (h.range j hj).2).mpr (.inl (h.marked j hj))
  · intro j j' heq hj
    by_cases hjk : j = k
    · by_cases hjk' : j' = k
      · exact hjk.trans hjk'.symm
      · rw [hjk, hself, hother j' hjk'] at heq
        exact absurd heq.symm (h.ne_of_free hb (by omega))
    · rw [hother j hjk] at heq hj
      by_cases hjk' : j' = k
      · rw [hjk', hself] at heq
        exact absurd heq (h.ne_of_free hb hj)
      · rw [hother j' hjk'] at heq
        exact h.unshared j j' heq hj
  · intro x hlo' hhi' hx
    rcases (hused x hhi').mp hx with hx | rfl
    · obtain ⟨j, hj⟩ := h.found x hlo' hhi' hx
      have hjk : j ≠ k := by
        rintro rfl
        omega
      exact ⟨j, (hother j hjk).trans hj⟩
    · exact ⟨k, hself⟩

/-- Several owners give their blocks back. -/
theorem release (h : Owned lo hi owner used) (P : κ → Prop) (hle : lo ≤ hi)
    (hgone : ∀ j, P j → owner' j = 0) (hkept : ∀ j, ¬P j → owner' j = owner j)
    (hused : ∀ x < hi, used' x ↔ used x ∧ ∀ j, P j → owner j = x → x = 0) :
    Owned lo hi owner' used' := by
  have hpos := h.pos
  have hown : ∀ j, owner' j ≠ 0 → ¬P j ∧ owner' j = owner j := by
    intro j hj
    have hP : ¬P j := fun hP => hj (hgone j hP)
    exact ⟨hP, hkept j hP⟩
  refine ⟨hpos, ?_, ?_, ?_, ?_, ?_⟩
  · intro x hx
    refine (hused x (by omega)).mpr ⟨h.reserved x hx, fun j _ hj => ?_⟩
    by_contra hne
    have := h.range j (by omega)
    omega
  · intro j hj
    obtain ⟨-, heq⟩ := hown j hj
    rw [heq] at hj ⊢
    exact h.range j hj
  · intro j hj
    obtain ⟨hP, heq⟩ := hown j hj
    rw [heq] at hj ⊢
    refine (hused _ (h.range j hj).2).mpr ⟨h.marked j hj, fun i hi heq => ?_⟩
    have hij := h.unshared j i heq.symm hj
    exact absurd (hij ▸ hi) hP
  · intro j j' heq hj
    obtain ⟨-, hown'⟩ := hown j hj
    obtain ⟨-, hown''⟩ := hown j' (heq ▸ hj)
    rw [hown'] at hj heq
    exact h.unshared j j' (heq.trans hown'') hj
  · intro x hlo hhi hx
    obtain ⟨hx, hfree⟩ := (hused x hhi).mp hx
    obtain ⟨j, hj⟩ := h.found x hlo hhi hx
    have hP : ¬P j := fun hP => by
      have := hfree j hP hj
      omega
    exact ⟨j, (hkept j hP).trans hj⟩

end Owned

end ShellXv6.Ownership
