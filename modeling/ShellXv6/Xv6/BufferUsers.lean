import ShellXv6.Xv6.BufferCache
import Mathlib.Data.Finset.Card
import Mathlib.Data.Fintype.Card
import Mathlib.Data.List.FinRange

/-!
# Who uses which buffer

The reference count of a buffer is the number of processes that have asked for it and not
given it back, and of its pins.  A buffer that is in use keeps its block, and its sleep lock
belongs to one process.
-/

namespace ShellXv6.Xv6.BufferCache

open LinkedRing Monitor

/-! ## The ring -/

variable {ι D : Type*}

/-- The ring holds all buffers, in the order `l`. -/
structure Ring (c : Cache ι D) (l : List (Fin NBUF)) : Prop where
  holds : Holds c.links none (l.map some)
  all : ∀ b, b ∈ l

section

variable {c : Cache ι D} {l : List (Fin NBUF)} {b : Fin NBUF} {k : Key}

theorem Ring.nodup (h : Ring c l) : l.Nodup :=
  List.Nodup.of_map some (List.nodup_cons.mp h.holds.nodup).2

theorem Ring.length_lt (h : Ring c l) : (l.map some).length < NBUF + 1 := by
  have hlen : l.length ≤ Fintype.card (Fin NBUF) := h.nodup.length_le_card
  rw [Fintype.card_fin] at hlen
  rw [List.length_map]
  exact Nat.lt_succ_of_le hlen

/-- The links after some rounds of the loop of `binit`. -/
theorem holds_foldl {bs done : List (Fin NBUF)} {k : Links (Option (Fin NBUF))}
    (hk : Holds k none (done.map some)) (hbs : (bs ++ done).Nodup) :
    Holds (bs.foldl (fun k b => linkFront k none (some b)) k) none
      ((bs.reverse ++ done).map some) := by
  induction bs generalizing k done with
  | nil => exact hk
  | cons b bs ih =>
      rw [List.cons_append, List.nodup_cons] at hbs
      have hb : some b ∉ none :: done.map some := by
        simpa using fun hmem => hbs.1 (List.mem_append_right bs hmem)
      have hnodup : (bs ++ b :: done).Nodup := by
        rw [List.nodup_middle, List.nodup_cons]
        exact hbs
      rw [List.reverse_cons, List.append_assoc]
      exact ih (hk.linkFront hb) hnodup

theorem ring_binit (zero : D) (disk : Key → D) :
    Ring (binit zero disk : Cache ι D) (List.finRange NBUF).reverse where
  holds := by
    have hnodup : (List.finRange NBUF ++ []).Nodup := by
      rw [List.append_nil]
      exact List.nodup_finRange NBUF
    have hk : Holds initLinks none (((List.finRange NBUF).reverse ++ []).map some) :=
      holds_foldl (holds_nil rfl rfl) hnodup
    rwa [List.append_nil] at hk
  all := fun b => List.mem_reverse.mpr (List.mem_finRange b)

theorem find_eq (h : Ring c l) (k : Key) :
    find c k = some ((l.find? fun b => (c.buf b).key = k).map some) := by
  have hnone : none ∉ l.map some := by simp
  rw [find, search_chain h.holds.forth hnone h.length_lt, List.find?_map]
  rfl

theorem findUnused_eq (h : Ring c l) :
    findUnused c = some ((l.reverse.find? fun b => (c.buf b).refcnt = 0).map some) := by
  have hnone : none ∉ (l.map some).reverse := by simp
  have hlen : (l.map some).reverse.length < NBUF + 1 := by
    rw [List.length_reverse]
    exact h.length_lt
  rw [findUnused, search_chain h.holds.back hnone hlen, ← List.map_reverse, List.find?_map]
  rfl

/-- What `bget` does with a ring. -/
inductive Got (c : Cache ι D) (l : List (Fin NBUF)) (k : Key) : CacheTurn ι D → Prop
  | hit (b : Fin NBUF) (hb : (c.buf b).key = k) :
      Got c l k ⟨c.hit b, [], [], .ready (.wait b k)⟩
  | recycle (b : Fin NBUF) (l₁ l₂ : List (Fin NBUF)) (hnone : ∀ a, (c.buf a).key ≠ k)
      (hb : (c.buf b).refcnt = 0) (hl : l = l₁ ++ b :: l₂)
      (hused : ∀ a ∈ l₂, (c.buf a).refcnt ≠ 0) :
      Got c l k ⟨c.recycle b k, [], [.recycled b], .ready (.wait b k)⟩
  | full (hnone : ∀ a, (c.buf a).key ≠ k) (hused : ∀ a, (c.buf a).refcnt ≠ 0) :
      Got c l k (panic c "bget: no buffers")

/-- The loops of `bget` come to their ends. -/
theorem exists_bget (h : Ring c l) (k : Key) : ∃ r, bget k c = some r := by
  unfold bget
  rw [find_eq h, findUnused_eq h]
  cases l.find? fun b => (c.buf b).key = k with
  | some b => exact ⟨_, rfl⟩
  | none =>
      cases l.reverse.find? fun b => (c.buf b).refcnt = 0 with
      | some b => exact ⟨_, rfl⟩
      | none => exact ⟨_, rfl⟩

theorem got_of_bget (h : Ring c l) {r : CacheTurn ι D} (hr : bget k c = some r) : Got c l k r := by
  unfold bget at hr
  rw [find_eq h] at hr
  cases hfind : l.find? fun b => (c.buf b).key = k with
  | some b =>
      rw [hfind] at hr
      cases hr
      have hb := List.find?_some hfind
      exact .hit b (by simpa using hb)
  | none =>
      rw [hfind, findUnused_eq h] at hr
      have hnone : ∀ a, (c.buf a).key ≠ k := by
        intro a
        have ha := List.find?_eq_none.mp hfind a (h.all a)
        simpa using ha
      cases hunused : l.reverse.find? fun b => (c.buf b).refcnt = 0 with
      | some b =>
          rw [hunused] at hr
          cases hr
          obtain ⟨hb, l₂, l₁, hl, hused⟩ := List.find?_eq_some_iff_append.mp hunused
          refine .recycle b l₁.reverse l₂.reverse hnone (by simpa using hb) ?_ ?_
          · rw [← List.reverse_reverse l, hl]
            simp
          · intro a ha
            simpa using hused a (List.mem_reverse.mp ha)
      | none =>
          rw [hunused] at hr
          cases hr
          refine .full hnone fun a => ?_
          have ha := List.find?_eq_none.mp hunused a (List.mem_reverse.mpr (h.all a))
          simpa using ha

end

/-! ## The users -/

namespace Pc

/-- The buffer that a process has asked for and not given back. -/
def uses : Pc → Option (Fin NBUF)
  | .idle => none
  | .wait b _ => some b
  | .check b _ => some b
  | .holding b _ => some b
  | .releasing b => some b

/-- The buffer whose sleep lock a process has. -/
def locks : Pc → Option (Fin NBUF)
  | .idle => none
  | .wait _ _ => none
  | .check b _ => some b
  | .holding b _ => some b
  | .releasing _ => none

/-- The block that a process has asked for. -/
def asks : Pc → Option (Fin NBUF × Key)
  | .idle => none
  | .wait b k => some (b, k)
  | .check b k => some (b, k)
  | .holding b k => some (b, k)
  | .releasing _ => none

theorem uses_of_locks {pc : Pc} {b : Fin NBUF} (h : pc.locks = some b) : pc.uses = some b := by
  cases pc with
  | idle => cases h
  | wait b k => cases h
  | check b k => exact h
  | holding b k => exact h
  | releasing b => cases h

theorem uses_of_asks {pc : Pc} {b : Fin NBUF} {k : Key} (h : pc.asks = some (b, k)) :
    pc.uses = some b := by
  cases pc with
  | idle => cases h
  | wait b k =>
      cases h
      rfl
  | check b k =>
      cases h
      rfl
  | holding b k =>
      cases h
      rfl
  | releasing b => cases h

end Pc

/-- What the processes have to do with the buffers: `F` are the users. -/
structure Users (c : Cache ι D) (pcs : ι → Option Pc) (F : Fin NBUF → Finset ι) : Prop where
  users : ∀ i b, i ∈ F b ↔ (pcs i).bind Pc.uses = some b
  refs : ∀ b, (c.buf b).refcnt = (F b).card + c.pins b
  asks : ∀ i b k, (pcs i).bind Pc.asks = some (b, k) → (c.buf b).key = k ∧ k.1 ≠ 0
  locks : ∀ i b, c.lock b = some i ↔ (pcs i).bind Pc.locks = some b
  valid : ∀ i b k, pcs i = some (.holding b k) → (c.buf b).valid

theorem users_binit (zero : D) (disk : Key → D) :
    Users (binit zero disk : Cache ι D) (fun _ => some .idle) fun _ => ∅ where
  users := by simp [Pc.uses]
  refs := fun _ => rfl
  asks := by simp [Pc.asks]
  locks := by simp [binit, Pc.locks]
  valid := by simp

namespace Users

variable {c c' : Cache ι D} {pcs : ι → Option Pc} {F : Fin NBUF → Finset ι} {i : ι} {pc : Pc}
  {b : Fin NBUF} {k : Key}

theorem mem (h : Users c pcs F) (hi : pcs i = some pc) (hpc : pc.uses = some b) : i ∈ F b := by
  rw [h.users, hi]
  exact hpc

theorem notMem (h : Users c pcs F) (hi : pcs i = some pc) (hpc : pc.uses = none) (b : Fin NBUF) :
    i ∉ F b := by
  rw [h.users, hi]
  simp [hpc]

theorem lock_eq (h : Users c pcs F) (hi : pcs i = some pc) (hpc : pc.locks = some b) :
    c.lock b = some i := by
  rw [h.locks, hi]
  exact hpc

/-- A buffer that nobody refers to. -/
theorem unused (h : Users c pcs F) (hb : (c.buf b).refcnt = 0) :
    F b = ∅ ∧ c.pins b = 0 ∧ c.lock b = none := by
  have hrefs := h.refs b
  have hF : F b = ∅ := Finset.card_eq_zero.mp (by omega)
  refine ⟨hF, by omega, ?_⟩
  cases hlock : c.lock b with
  | none => rfl
  | some j =>
      obtain ⟨pc, hj, hpc⟩ := Option.bind_eq_some_iff.mp ((h.locks j b).mp hlock)
      have hmem := h.mem hj (Pc.uses_of_locks hpc)
      rw [hF] at hmem
      cases hmem

variable [DecidableEq ι]

/-- What has to be checked when one process goes on. -/
theorem update {pc' : Option Pc} {F' : Fin NBUF → Finset ι} (h : Users c pcs F)
    (hF : ∀ j b, j ≠ i → (j ∈ F' b ↔ j ∈ F b))
    (hFi : ∀ b, i ∈ F' b ↔ pc'.bind Pc.uses = some b)
    (hrefs : ∀ b, (c'.buf b).refcnt = (F' b).card + c'.pins b)
    (hbuf : ∀ j b, j ≠ i → j ∈ F b →
      (c'.buf b).key = (c.buf b).key ∧ ((c.buf b).valid → (c'.buf b).valid))
    (hasks : ∀ b k, pc'.bind Pc.asks = some (b, k) → (c'.buf b).key = k ∧ k.1 ≠ 0)
    (hlock : ∀ j b, j ≠ i → (c'.lock b = some j ↔ c.lock b = some j))
    (hlocki : ∀ b, c'.lock b = some i ↔ pc'.bind Pc.locks = some b)
    (hvalid : ∀ b k, pc' = some (.holding b k) → (c'.buf b).valid) :
    Users c' (Function.update pcs i pc') F' := by
  refine ⟨?_, hrefs, ?_, ?_, ?_⟩
  · apply (Function.forall_update_iff pcs
      (p := fun j x => ∀ b, j ∈ F' b ↔ x.bind Pc.uses = some b)).mpr
    exact ⟨hFi, fun j hj b => (hF j b hj).trans (h.users j b)⟩
  · apply (Function.forall_update_iff pcs
      (p := fun _ x => ∀ b k, x.bind Pc.asks = some (b, k) → (c'.buf b).key = k ∧ k.1 ≠ 0)).mpr
    refine ⟨hasks, fun j hj b k hk => ?_⟩
    obtain ⟨pc, hpc, hk'⟩ := Option.bind_eq_some_iff.mp hk
    rw [(hbuf j b hj (h.mem hpc (Pc.uses_of_asks hk'))).1]
    exact h.asks j b k hk
  · apply (Function.forall_update_iff pcs
      (p := fun j x => ∀ b, c'.lock b = some j ↔ x.bind Pc.locks = some b)).mpr
    exact ⟨hlocki, fun j hj b => (hlock j b hj).trans (h.locks j b)⟩
  · apply (Function.forall_update_iff pcs
      (p := fun _ x => ∀ b k, x = some (.holding b k) → (c'.buf b).valid)).mpr
    exact ⟨hvalid, fun j hj b k hk => (hbuf j b hj (h.mem hk rfl)).2 (h.valid j b k hk)⟩

/-- A step of a process that refers to the same buffer before and after it. -/
theorem stay {pc' : Pc} (h : Users c pcs F) (hi : pcs i = some pc) (huses : pc'.uses = pc.uses)
    (hrefs : ∀ b, (c'.buf b).refcnt = (F b).card + c'.pins b)
    (hbuf : ∀ b, (c'.buf b).key = (c.buf b).key ∧ ((c.buf b).valid → (c'.buf b).valid))
    (hasks : ∀ b k, pc'.asks = some (b, k) → pc.asks = some (b, k))
    (hlock : ∀ j b, j ≠ i → (c'.lock b = some j ↔ c.lock b = some j))
    (hlocki : ∀ b, c'.lock b = some i ↔ pc'.locks = some b)
    (hvalid : ∀ b k, pc' = .holding b k → (c'.buf b).valid) :
    Users c' (Function.update pcs i (some pc')) F := by
  apply h.update
  · exact fun _ _ _ => Iff.rfl
  · intro b
    rw [h.users, hi]
    simp [huses]
  · exact hrefs
  · exact fun _ b _ _ => hbuf b
  · intro b k hk
    rw [(hbuf b).1]
    apply h.asks i b k
    rw [hi]
    exact hasks b k hk
  · exact hlock
  · exact hlocki
  · exact fun b k hk => hvalid b k (Option.some.inj hk)

theorem leave (h : Users c pcs F) (hi : pcs i = some .idle)
    (hsame : c' = { c with panicked := c'.panicked }) :
    Users c' (Function.update pcs i none) F := by
  rw [hsame]
  apply h.update
  · exact fun _ _ _ => Iff.rfl
  · intro b
    simp [h.users, hi, Pc.uses]
  · exact h.refs
  · exact fun _ _ _ _ => ⟨rfl, id⟩
  · simp
  · exact fun _ _ _ => Iff.rfl
  · intro b
    simp [h.locks, hi, Pc.locks]
  · simp

/-- A step of a process that holds a buffer and goes on holding it. -/
theorem hold (h : Users c pcs F) (hi : pcs i = some pc) (hpc : pc.locks = some b)
    (hasks : pc.asks = some (b, k))
    (hrefs : ∀ b, (c'.buf b).refcnt = (F b).card + c'.pins b)
    (hbuf : ∀ b, (c'.buf b).key = (c.buf b).key ∧ ((c.buf b).valid → (c'.buf b).valid))
    (hlock : c'.lock = c.lock) (hvalid : (c'.buf b).valid) :
    Users c' (Function.update pcs i (some (.holding b k))) F := by
  apply h.stay hi
  · exact (Pc.uses_of_locks hpc).symm
  · exact hrefs
  · exact hbuf
  · rintro b' k' ⟨⟩
    exact hasks
  · exact fun j a _ => by rw [hlock]
  · intro a
    rw [hlock, h.locks, hi, Option.bind_some, hpc]
    exact Iff.rfl
  · rintro b' k' ⟨⟩
    exact hvalid

theorem hit (h : Users c pcs F) (hi : pcs i = some .idle) (hb : (c.buf b).key = k)
    (hk : k.1 ≠ 0) :
    Users (c.hit b) (Function.update pcs i (some (.wait b k)))
      (Function.update F b (insert i (F b))) := by
  have hnot := h.notMem hi rfl
  have hkey : ∀ a, ((c.hit b).buf a).key = (c.buf a).key ∧
      ((c.buf a).valid → ((c.hit b).buf a).valid) := by
    intro a
    by_cases ha : a = b <;> simp [Cache.hit, Cache.setBuf, Buf.key, ha]
  apply h.update
  · intro j a hj
    by_cases ha : a = b
    · subst ha
      simp [hj]
    · simp [ha]
  · intro a
    by_cases ha : a = b
    · subst ha
      simp [Pc.uses]
    · simp [Pc.uses, ha, Ne.symm ha, hnot]
  · intro a
    have hrefs := h.refs a
    by_cases ha : a = b
    · subst ha
      simp only [Cache.hit, Cache.setBuf, Function.update_self,
        Finset.card_insert_of_notMem (hnot a)]
      omega
    · simpa [Cache.hit, Cache.setBuf, ha] using hrefs
  · exact fun _ a _ _ => hkey a
  · rintro a k' ⟨⟩
    exact ⟨(hkey b).1.trans hb, hk⟩
  · exact fun _ _ _ => Iff.rfl
  · intro a
    have hlock := h.locks i a
    rw [hi] at hlock
    exact hlock
  · simp

theorem recycle (h : Users c pcs F) (hi : pcs i = some .idle) (hb : (c.buf b).refcnt = 0)
    (hk : k.1 ≠ 0) :
    Users (c.recycle b k) (Function.update pcs i (some (.wait b k)))
      (Function.update F b {i}) := by
  obtain ⟨hF, hpins, -⟩ := h.unused hb
  have hnot := h.notMem hi rfl
  apply h.update
  · intro j a hj
    by_cases ha : a = b
    · subst ha
      simp [hj, hF]
    · simp [ha]
  · intro a
    by_cases ha : a = b
    · subst ha
      simp [Pc.uses]
    · simp [Pc.uses, ha, Ne.symm ha, hnot]
  · intro a
    by_cases ha : a = b
    · subst ha
      simp [Cache.recycle, Cache.setBuf, hpins]
    · simpa [Cache.recycle, Cache.setBuf, ha] using h.refs a
  · intro j a _ hja
    have ha : a ≠ b := by
      rintro rfl
      rw [hF] at hja
      cases hja
    simp [Cache.recycle, Cache.setBuf, ha]
  · rintro a k' ⟨⟩
    simpa [Cache.recycle, Cache.setBuf, Buf.key] using hk
  · exact fun _ _ _ => Iff.rfl
  · intro a
    have hlock := h.locks i a
    rw [hi] at hlock
    exact hlock
  · simp

theorem giveBack (h : Users c pcs F) (hi : pcs i = some (.releasing b)) :
    Users (giveBack b c).data (Function.update pcs i (some .idle))
      (Function.update F b ((F b).erase i)) := by
  have hmem := h.mem hi rfl
  have hbuf : ∀ a, ((BufferCache.giveBack b c).data.buf a) =
      if a = b then { c.buf b with refcnt := (c.buf b).refcnt - 1 } else c.buf a := by
    intro a
    unfold BufferCache.giveBack
    by_cases ha : a = b
    · subst ha
      split <;> simp [Cache.setBuf]
    · split <;> simp [Cache.setBuf, ha]
  have hpins : (BufferCache.giveBack b c).data.pins = c.pins := by
    unfold BufferCache.giveBack
    split <;> rfl
  have hlock : (BufferCache.giveBack b c).data.lock = c.lock := by
    unfold BufferCache.giveBack
    split <;> rfl
  apply h.update
  · intro j a hj
    by_cases ha : a = b
    · subst ha
      simp [hj]
    · simp [ha]
  · intro a
    by_cases ha : a = b
    · subst ha
      simp [Pc.uses]
    · simp [Pc.uses, ha, h.users, hi, Ne.symm ha]
  · intro a
    have hrefs := h.refs a
    rw [hbuf, hpins]
    by_cases ha : a = b
    · subst ha
      have hpos : 0 < (F a).card := Finset.card_pos.mpr ⟨i, hmem⟩
      simp only [if_true, Function.update_self, Finset.card_erase_of_mem hmem]
      omega
    · simpa [ha] using hrefs
  · intro j a _ _
    rw [hbuf]
    by_cases ha : a = b
    · subst ha
      simp [Buf.key]
    · simp [ha]
  · simp [Pc.asks]
  · exact fun j a _ => by rw [hlock]
  · intro a
    rw [hlock, h.locks, hi]
    simp [Pc.locks]
  · simp

end Users

end ShellXv6.Xv6.BufferCache
