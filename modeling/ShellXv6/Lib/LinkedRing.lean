import Mathlib.Data.Nat.Notation
import Mathlib.Data.List.Nodup
import Mathlib.Logic.Function.Basic

/-!
# Rings of linked nodes

A list kept in the links of its nodes: every node points to the next and to the previous
one, and a head, which is a node too, closes the ring.  Moving a node to the front takes
six assignments; a search follows the links until it is back at the head.
-/

namespace ShellXv6.LinkedRing

variable {ν : Type*}

/-- From `a` the links lead through `l` to `b`. -/
def Chain (link : ν → ν) : ν → List ν → ν → Prop
  | a, [], b => link a = b
  | a, x :: l, b => link a = x ∧ Chain link x l b

section

variable {link : ν → ν} {a b x y : ν} {l l₁ l₂ : List ν}

theorem chain_append : Chain link a (l₁ ++ x :: l₂) b ↔ Chain link a l₁ x ∧ Chain link x l₂ b := by
  induction l₁ generalizing a with
  | nil => exact Iff.rfl
  | cons z l₁ ih =>
      rw [List.cons_append, Chain, Chain, ih, and_assoc]

/-- The first node after `a`, read backwards. -/
theorem Chain.getLastD_reverse (h : Chain link a l b) : l.reverse.getLastD b = link a := by
  cases l with
  | nil => exact h.symm
  | cons x l =>
      rw [List.reverse_cons, List.getLastD_concat]
      exact h.1.symm

/-- Another way in to the same nodes. -/
theorem Chain.enter {link' : ν → ν} {c : ν} (h : Chain link a l b) (hc : link' c = link a)
    (hlink : ∀ z ∈ l, link' z = link z) : Chain link' c l b := by
  induction l generalizing a c with
  | nil => exact hc.trans h
  | cons x l ih =>
      obtain ⟨hax, hrest⟩ := h
      refine ⟨hc.trans hax, ih hrest (hlink x List.mem_cons_self) ?_⟩
      intro z hz
      exact hlink z (List.mem_cons_of_mem x hz)

variable [DecidableEq ν]

theorem Chain.update_of_notMem (h : Chain link a l b) (hx : x ∉ a :: l) (y : ν) :
    Chain (Function.update link x y) a l b := by
  have hother : ∀ z ∈ a :: l, Function.update link x y z = link z :=
    fun z hz => Function.update_of_ne (ne_of_mem_of_not_mem hz hx) y link
  obtain ⟨ha, hl⟩ := List.forall_mem_cons.mp hother
  exact h.enter ha hl

/-- Assigning the link of the last node turns the way to another end. -/
theorem Chain.update_last (h : Chain link a l b) (hnodup : (a :: l).Nodup) (y : ν) :
    Chain (Function.update link (l.getLastD a) y) a l y := by
  induction l generalizing a with
  | nil => exact Function.update_self a y link
  | cons z l ih =>
      obtain ⟨haz, hrest⟩ := h
      rw [List.nodup_cons] at hnodup
      have hne : a ≠ l.getLastD z :=
        (ne_of_mem_of_not_mem List.getLastD_mem_cons hnodup.1).symm
      rw [List.getLastD_cons]
      exact ⟨(Function.update_of_ne hne y link).trans haz, ih hrest hnodup.2⟩

/-- Assigning the link of the node in front of `x` takes `x` out. -/
theorem Chain.skip (h : Chain link a (l₁ ++ x :: l₂) b) (hnodup : (a :: (l₁ ++ x :: l₂)).Nodup) :
    Chain (Function.update link (l₁.getLastD a) (link x)) a (l₁ ++ l₂) b := by
  obtain ⟨hfirst, hsecond⟩ := chain_append.mp h
  rw [← List.cons_append, List.nodup_append] at hnodup
  obtain ⟨hnodup₁, -, hdisjoint⟩ := hnodup
  have hturned := hfirst.update_last hnodup₁ (link x)
  cases l₂ with
  | nil =>
      have hx : link x = b := hsecond
      rw [List.append_nil]
      rw [hx] at hturned ⊢
      exact hturned
  | cons y l₂ =>
      obtain ⟨hxy, hrest⟩ := hsecond
      rw [hxy] at hturned ⊢
      refine chain_append.mpr ⟨hturned, hrest.update_of_notMem ?_ y⟩
      intro hmem
      exact hdisjoint _ List.getLastD_mem_cons _ (List.mem_cons_of_mem x hmem) rfl

end

/-- The links of all nodes. -/
structure Links (ν : Type*) where
  next : ν → ν
  prev : ν → ν

/-- The ring of `h` holds the nodes `l`. -/
structure Holds (k : Links ν) (h : ν) (l : List ν) : Prop where
  forth : Chain k.next h l h
  back : Chain k.prev h l.reverse h
  nodup : (h :: l).Nodup

variable {k : Links ν} {h b : ν} {l l₁ l₂ : List ν}

theorem holds_nil (hnext : k.next h = h) (hprev : k.prev h = h) : Holds k h [] :=
  ⟨hnext, hprev, List.nodup_singleton h⟩

variable [DecidableEq ν]

/-- `b->next->prev = b->prev; b->prev->next = b->next` -/
def unlink (k : Links ν) (b : ν) : Links ν :=
  let prev := Function.update k.prev (k.next b) (k.prev b)
  ⟨Function.update k.next (prev b) (k.next b), prev⟩

/-- `b->next = h->next; b->prev = h; h->next->prev = b; h->next = b` -/
def linkFront (k : Links ν) (h b : ν) : Links ν :=
  let next := Function.update k.next b (k.next h)
  let prev := Function.update (Function.update k.prev b h) (next h) b
  ⟨Function.update next h b, prev⟩

/-- A node that is in no ring becomes the first of one. -/
theorem Holds.linkFront (hk : Holds k h l) (hb : b ∉ h :: l) :
    Holds (linkFront k h b) h (b :: l) := by
  obtain ⟨hbh, hbl⟩ := not_or.mp (mt List.mem_cons.mpr hb)
  obtain ⟨hh, hl⟩ := List.nodup_cons.mp hk.nodup
  have hb' : b ∉ h :: l.reverse := by simpa using hb
  have hnodup : (h :: l.reverse).Nodup := by simpa using hk.nodup
  have hnext : Function.update k.next b (k.next h) h = k.next h :=
    Function.update_of_ne (Ne.symm hbh) _ _
  have hlast := hk.forth.getLastD_reverse
  refine ⟨⟨Function.update_self .., hk.forth.enter ?_ ?_⟩, ?_, ?_⟩
  · exact (Function.update_of_ne hbh _ _).trans (Function.update_self ..)
  · intro z hz
    have hzh : z ≠ h := ne_of_mem_of_not_mem hz hh
    have hzb : z ≠ b := ne_of_mem_of_not_mem hz hbl
    exact (Function.update_of_ne hzh _ _).trans (Function.update_of_ne hzb _ _)
  · have hback := hk.back.update_of_notMem hb' h
    have hturned := hback.update_last hnodup b
    rw [hlast, ← hnext] at hturned
    rw [List.reverse_cons, chain_append]
    refine ⟨hturned, ?_⟩
    have hne : b ≠ Function.update k.next b (k.next h) h := by
      rw [hnext, ← hlast]
      exact (ne_of_mem_of_not_mem List.getLastD_mem_cons hb').symm
    exact (Function.update_of_ne hne _ _).trans (Function.update_self ..)
  · rw [List.nodup_cons, List.nodup_cons, List.mem_cons, not_or]
    exact ⟨⟨Ne.symm hbh, hh⟩, hbl, hl⟩

theorem Holds.unlink (hk : Holds k h (l₁ ++ b :: l₂)) : Holds (unlink k b) h (l₁ ++ l₂) := by
  have hreverse : (l₁ ++ b :: l₂).reverse = l₂.reverse ++ b :: l₁.reverse := by simp
  have hback := hk.back
  rw [hreverse] at hback
  have hnodup : (h :: (l₂.reverse ++ b :: l₁.reverse)).Nodup := by
    rw [← hreverse, List.nodup_cons, List.mem_reverse, List.nodup_reverse, ← List.nodup_cons]
    exact hk.nodup
  -- the neighbours of `b`
  have hnext := (chain_append.mp hk.forth).2.getLastD_reverse
  have hprev := (chain_append.mp hback).2.getLastD_reverse
  rw [List.reverse_reverse] at hprev
  have hself : Function.update k.prev (k.next b) (k.prev b) b = k.prev b := by
    apply Function.update_of_ne
    rw [← hnext]
    have hb : b ∉ h :: l₂.reverse := by
      rw [← List.cons_append, List.nodup_append] at hnodup
      exact fun hmem => hnodup.2.2 b hmem b List.mem_cons_self rfl
    exact (ne_of_mem_of_not_mem List.getLastD_mem_cons hb).symm
  refine ⟨?_, ?_, hk.nodup.sublist ?_⟩
  · have hskip := hk.forth.skip hk.nodup
    rw [hprev, ← hself] at hskip
    exact hskip
  · have hskip := hback.skip hnodup
    rw [hnext] at hskip
    rw [List.reverse_append]
    exact hskip
  · exact ((List.sublist_cons_self b l₂).append_left l₁).cons_cons h

theorem Holds.toFront (hk : Holds k h (l₁ ++ b :: l₂)) :
    Holds (LinkedRing.linkFront (LinkedRing.unlink k b) h b) h (b :: (l₁ ++ l₂)) := by
  apply hk.unlink.linkFront
  have hnodup := hk.nodup
  rw [← List.cons_append, List.nodup_middle] at hnodup
  exact (List.nodup_cons.mp hnodup).1

/-! ## Search -/

/-- `for (b = link(h); b != h; b = link(b)) if (p(b)) return b;` as long as there is fuel. -/
def search (link : ν → ν) (h : ν) (p : ν → Bool) : ℕ → ν → Option (Option ν)
  | 0, _ => none
  | n + 1, b =>
      if b = h then some none
      else if p b then some (some b)
      else search link h p n (link b)

theorem search_chain {link : ν → ν} {p : ν → Bool} {a : ν} {n : ℕ} (hl : Chain link a l h)
    (hh : h ∉ l) (hn : l.length < n) : search link h p n (link a) = some (l.find? p) := by
  induction l generalizing a n with
  | nil =>
      obtain ⟨n, rfl⟩ : ∃ m, n = m + 1 := ⟨n - 1, by omega⟩
      have hlink : link a = h := hl
      rw [search, if_pos hlink]
      rfl
  | cons x l ih =>
      obtain ⟨n, rfl⟩ : ∃ m, n = m + 1 := ⟨n - 1, by omega⟩
      obtain ⟨hax, hrest⟩ := hl
      obtain ⟨hne, hh⟩ := not_or.mp (mt List.mem_cons.mpr hh)
      rw [hax, search, if_neg (Ne.symm hne), List.find?_cons]
      cases hp : p x with
      | true => rfl
      | false => exact ih hrest hh (Nat.lt_of_succ_lt_succ hn)

end ShellXv6.LinkedRing
