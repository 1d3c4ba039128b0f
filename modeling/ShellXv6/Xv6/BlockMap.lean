import ShellXv6.Lib.Ownership
import ShellXv6.Xv6.DiskLayout

/-!
# The blocks of a file

An inode names its first blocks itself and the others in an indirect block.  `bmap` finds the
block of a position and allocates it when it is missing, and `itrunc` gives all blocks back.
Every place that can name a block is a slot, and the slots of all inodes own the blocks that
the free map says are in use.
-/

namespace ShellXv6.Xv6.FileSystem

open ShellXv6.Words
open ShellXv6.Ownership

/-- The disk and the inodes in memory. -/
structure Fs (sb : Superblock) where
  img : Image
  ino : Fin sb.ninodes → Inode

variable {sb : Superblock}

abbrev indirect : Fin (NDIRECT + 1) := Fin.last NDIRECT

def Fs.setAddr (fs : Fs sb) (i : Fin sb.ninodes) (k : Fin (NDIRECT + 1)) (b : ℕ) : Fs sb :=
  let ip := { fs.ino i with addrs := Function.update (fs.ino i).addrs k b }
  { fs with ino := Function.update fs.ino i ip }

def Fs.setEntry (fs : Fs sb) (a : ℕ) (j : Fin NINDIRECT) (b : ℕ) : Fs sb :=
  { fs with img := Function.update fs.img a (setNum (fs.img a) (4 * j.val) 4 b) }

/-- `ip->addrs[k]`, allocated when it is zero -/
def loadAddr (i : Fin sb.ninodes) (k : Fin (NDIRECT + 1)) (fs : Fs sb) : ℕ × Fs sb :=
  if (fs.ino i).addrs k = 0 then
    match balloc sb fs.img with
    | (addr, v) =>
      if addr = 0 then (0, { fs with img := v })
      else (addr, Fs.setAddr { fs with img := v } i k addr)
  else ((fs.ino i).addrs k, fs)

/-- `a[j]` of the indirect block, allocated when it is zero -/
def loadEntry (i : Fin sb.ninodes) (j : Fin NINDIRECT) (fs : Fs sb) : ℕ × Fs sb :=
  let a := (fs.ino i).addrs indirect
  if num (fs.img a) (4 * j.val) 4 = 0 then
    match balloc sb fs.img with
    | (addr, v) =>
      if addr = 0 then (0, { fs with img := v })
      else (addr, Fs.setEntry { fs with img := v } a j addr)
  else (num (fs.img a) (4 * j.val) 4, fs)

/-- `none` is the panic "bmap: out of range". -/
def bmap (i : Fin sb.ninodes) (bn : ℕ) (fs : Fs sb) : Option (ℕ × Fs sb) :=
  if h : bn < NDIRECT then some (loadAddr i ⟨bn, Nat.lt_succ_of_lt h⟩ fs)
  else if h : bn - NDIRECT < NINDIRECT then
    match loadAddr i indirect fs with
    | (a, fs) => if a = 0 then some (0, fs) else some (loadEntry i ⟨bn - NDIRECT, h⟩ fs)
  else none

def freeAddrs (i : Fin sb.ninodes) : List (Fin (NDIRECT + 1)) → Fs sb → Option (Fs sb)
  | [], fs => some fs
  | k :: ks, fs =>
    if (fs.ino i).addrs k = 0 then freeAddrs i ks fs
    else (bfree sb ((fs.ino i).addrs k) fs.img).bind fun v =>
      freeAddrs i ks (Fs.setAddr { fs with img := v } i k 0)

def freeEntries (sb : Superblock) (a : ℕ) : List (Fin NINDIRECT) → Image → Option Image
  | [], v => some v
  | j :: js, v =>
    if num (v a) (4 * j.val) 4 = 0 then freeEntries sb a js v
    else (bfree sb (num (v a) (4 * j.val) 4) v).bind (freeEntries sb a js)

def freeIndirect (i : Fin sb.ninodes) (fs : Fs sb) : Option (Fs sb) :=
  let a := (fs.ino i).addrs indirect
  if a = 0 then some fs
  else (freeEntries sb a (List.finRange NINDIRECT) fs.img).bind fun v =>
    (bfree sb a v).map fun v => Fs.setAddr { fs with img := v } i indirect 0

/-- Change the inode in memory and write it to disk. -/
def Fs.save (fs : Fs sb) (i : Fin sb.ninodes) (ip : Inode) : Fs sb :=
  { img := iupdate sb i ip fs.img, ino := Function.update fs.ino i ip }

/-- The end of `itrunc` and of `writei`. -/
def Fs.setSize (fs : Fs sb) (i : Fin sb.ninodes) (n : ℕ) : Fs sb :=
  fs.save i { fs.ino i with size := n }

def itrunc (i : Fin sb.ninodes) (fs : Fs sb) : Option (Fs sb) :=
  (freeAddrs i ((List.finRange NDIRECT).map Fin.castSucc) fs).bind fun fs =>
    (freeIndirect i fs).map fun fs => fs.setSize i 0

/-! ## Slots -/

inductive Slot
  | addr (k : Fin (NDIRECT + 1))
  | entry (j : Fin NINDIRECT)
  deriving DecidableEq

def slotAddr (ip : Inode) (v : Image) : Slot → ℕ
  | .addr k => ip.addrs k
  | .entry j => if ip.addrs indirect = 0 then 0 else num (v (ip.addrs indirect)) (4 * j.val) 4

def Fs.owner (fs : Fs sb) (k : Fin sb.ninodes × Slot) : ℕ := slotAddr (fs.ino k.1) fs.img k.2

/-- The slot that names the block with number `bn` of a file. -/
def slotOf (bn : ℕ) : Option Slot :=
  if h : bn < NDIRECT then some (.addr ⟨bn, Nat.lt_succ_of_lt h⟩)
  else if h : bn - NDIRECT < NINDIRECT then some (.entry ⟨bn - NDIRECT, h⟩)
  else none

theorem slotOf_inj {m n : ℕ} {s : Slot} (hm : slotOf m = some s) (hn : slotOf n = some s) :
    m = n := by
  unfold slotOf at hm hn
  split at hm
  · split at hn
    · cases hm
      simpa using hn.symm
    · split at hn <;> cases hm <;> simp at hn
  · split at hm
    · split at hn
      · cases hm
        simp at hn
      · split at hn
        · cases hm
          simp only [Option.some.injEq, Slot.entry.injEq, Fin.mk.injEq] at hn
          omega
        · cases hn
    · cases hm

theorem slotOf_ne_indirect (bn : ℕ) : slotOf bn ≠ some (.addr indirect) := by
  unfold slotOf
  intro h
  split at h
  · next hlt =>
    simp only [Option.some.injEq, Slot.addr.injEq, Fin.ext_iff, Fin.val_last] at h
    omega
  · split at h <;> cases h

def Fs.blockAddr (fs : Fs sb) (i : Fin sb.ninodes) (bn : ℕ) : ℕ :=
  (slotOf bn).elim 0 fun s => fs.owner (i, s)

theorem blockAddr_eq {fs : Fs sb} {i : Fin sb.ninodes} {bn : ℕ} {s : Slot}
    (h : slotOf bn = some s) : fs.blockAddr i bn = fs.owner (i, s) := by
  rw [Fs.blockAddr, h]
  rfl

/-- No block belongs to two slots, and those in use belong to one. -/
def Fs.Owns (fs : Fs sb) : Prop :=
  Owned sb.nmeta sb.size fs.owner fun b => used sb fs.img b = true

def Fs.Full (fs : Fs sb) : Prop := ∀ b < sb.size, used sb fs.img b = true

/-- What `bmap` may do: blocks are added to one inode, and what was there stays. -/
structure Grows (i : Fin sb.ninodes) (fs fs' : Fs sb) : Prop where
  other : ∀ j, j ≠ i → fs'.ino j = fs.ino j
  same : fs'.ino i = { fs.ino i with addrs := (fs'.ino i).addrs }
  disk : ∀ j : Fin sb.ninodes, dinode sb fs'.img j = dinode sb fs.img j
  addr : ∀ k, fs.owner k ≠ 0 → fs'.owner k = fs.owner k
  data : ∀ j bn, fs.blockAddr j bn ≠ 0 → fs'.img (fs.blockAddr j bn) = fs.img (fs.blockAddr j bn)

variable {fs fs' fs'' : Fs sb} {i : Fin sb.ninodes} {b : ℕ} {v : Image}

theorem Grows.refl (fs : Fs sb) : Grows i fs fs :=
  ⟨fun _ _ => rfl, rfl, fun _ => rfl, fun _ _ => rfl, fun _ _ _ => rfl⟩

theorem Grows.blockAddr (h : Grows i fs fs') {j : Fin sb.ninodes} {bn : ℕ}
    (hb : fs.blockAddr j bn ≠ 0) : fs'.blockAddr j bn = fs.blockAddr j bn := by
  unfold Fs.blockAddr at hb ⊢
  cases hs : slotOf bn with
  | none => rfl
  | some s =>
      rw [hs] at hb
      exact h.addr (j, s) hb

theorem Grows.trans (h : Grows i fs fs') (h' : Grows i fs' fs'') : Grows i fs fs'' where
  other j hj := (h'.other j hj).trans (h.other j hj)
  same := by rw [h'.same, h.same]
  disk j := (h'.disk j).trans (h.disk j)
  addr k hk := by
    have heq := h.addr k hk
    rw [← heq] at hk
    exact (h'.addr k hk).trans heq
  data j bn hb := by
    have heq := h.blockAddr hb
    have hdata := h'.data j bn (heq ▸ hb)
    rw [heq] at hdata
    exact hdata.trans (h.data j bn hb)

/-! ## Allocation -/

/-- The image after `balloc` found `b`. -/
abbrev taken (sb : Superblock) (b : ℕ) (v : Image) : Image := bzero b (editMark sb set b v)

theorem Fs.Owns.le_of_free (h : fs.Owns) (hb : used sb fs.img b = false) : sb.nmeta ≤ b :=
  Owned.le_of_free h (by simp [hb])

theorem Fs.Owns.ne_of_free (h : fs.Owns) (hb : used sb fs.img b = false)
    {k : Fin sb.ninodes × Slot} (hk : fs.owner k ≠ 0) : fs.owner k ≠ b :=
  Owned.ne_of_free h (by simp [hb]) hk

theorem taken_of_ne {x : ℕ} (hlt : b < sb.size) (hx : sb.nmeta ≤ x) (hne : x ≠ b) :
    taken sb b v x = v x := by
  have := bblock_lt hlt
  rw [taken, bzero, Function.update_of_ne hne, editMark_of_ne (by omega)]

theorem taken_self : taken sb b v b = fun _ => 0 := Function.update_self ..

theorem used_taken {x : ℕ} (hb : sb.nmeta ≤ b) (hx : x < sb.size) :
    used sb (taken sb b v) x = (used sb v x || decide (x = b)) := by
  rw [taken, used_bzero hb hx, used_mark]

theorem dinode_of_data {v' : Image} (h : ∀ b < sb.nmeta, v' b = v b) (j : Fin sb.ninodes) :
    dinode sb v' j = dinode sb v j := by
  have hlt := iblock_lt j.isLt
  have hfit : sb.bmapstart ≤ sb.nmeta := Nat.le_trans (Nat.le_add_right _ _) sb.bitmap_fit
  exact dinode_congr (h _ (by omega))

theorem dinode_taken (hb : sb.nmeta ≤ b) (j : Fin sb.ninodes) :
    dinode sb (taken sb b v) j = dinode sb v j := by
  have hzero : dinode sb (taken sb b v) j = dinode sb (editMark sb set b v) j :=
    dinode_of_data (fun c hc => Function.update_of_ne (by omega) _ _) j
  exact hzero.trans (dinode_congr (editMark_of_ne (iblock_ne_bblock j.isLt)))

/-- The indirect block of an inode is one of the blocks that the inode owns. -/
theorem Fs.Owns.indirect_range (h : fs.Owns) (j : Fin sb.ninodes)
    (hj : (fs.ino j).addrs indirect ≠ 0) :
    sb.nmeta ≤ (fs.ino j).addrs indirect ∧ (fs.ino j).addrs indirect < sb.size :=
  Owned.range h (j, .addr indirect) hj

/-- An owner's block is found where it was when the inode and its indirect block stay. -/
theorem owner_congr {j : Fin sb.ninodes} {s : Slot} (hino : fs'.ino j = fs.ino j)
    (himg : (fs.ino j).addrs indirect ≠ 0 →
      fs'.img ((fs.ino j).addrs indirect) = fs.img ((fs.ino j).addrs indirect)) :
    fs'.owner (j, s) = fs.owner (j, s) := by
  cases s with
  | addr k => exact congrArg (fun ip : Inode => ip.addrs k) hino
  | entry e =>
      simp only [Fs.owner, slotAddr, hino]
      by_cases hz : (fs.ino j).addrs indirect = 0
      · rw [if_pos hz, if_pos hz]
      · rw [if_neg hz, if_neg hz, himg hz]

theorem owner_setAddr (h : fs.Owns) (hlt : b < sb.size) (hfree : used sb fs.img b = false)
    {k : Fin (NDIRECT + 1)} (hk : (fs.ino i).addrs k = 0) (κ : Fin sb.ninodes × Slot) :
    (Fs.setAddr { fs with img := taken sb b fs.img } i k b).owner κ =
      Function.update fs.owner (i, .addr k) b κ := by
  have hle := h.le_of_free hfree
  have hblock : ∀ j, (fs.ino j).addrs indirect ≠ 0 →
      taken sb b fs.img ((fs.ino j).addrs indirect) = fs.img ((fs.ino j).addrs indirect) := by
    intro j hj
    exact taken_of_ne hlt (h.indirect_range j hj).1
      (h.ne_of_free hfree (k := (j, .addr indirect)) hj)
  obtain ⟨j, s⟩ := κ
  by_cases hji : j = i
  · subst hji
    cases s with
    | addr k' =>
        by_cases hkk : k' = k
        · subst hkk
          simp [Fs.setAddr, Fs.owner, slotAddr]
        · simp [Fs.setAddr, Fs.owner, slotAddr, hkk]
    | entry e =>
        rw [Function.update_of_ne (by simp)]
        simp only [Fs.setAddr, Fs.owner, slotAddr, Function.update_self]
        by_cases hlast : indirect = k
        · -- the new indirect block is empty
          subst hlast
          rw [Function.update_self, taken_self, num_zero, if_pos hk, ite_self]
        · rw [Function.update_of_ne hlast]
          by_cases hz : (fs.ino j).addrs indirect = 0
          · rw [if_pos hz, if_pos hz]
          · rw [if_neg hz, if_neg hz, hblock j hz]
  · rw [Function.update_of_ne (by simp [hji])]
    exact owner_congr (Function.update_of_ne hji _ _) (hblock j)

theorem owner_setEntry (h : fs.Owns) (hlt : b < sb.size) (hfree : used sb fs.img b = false)
    {e : Fin NINDIRECT} (ha : (fs.ino i).addrs indirect ≠ 0) (κ : Fin sb.ninodes × Slot) :
    (Fs.setEntry { fs with img := taken sb b fs.img } ((fs.ino i).addrs indirect) e b).owner κ =
      Function.update fs.owner (i, .entry e) b κ := by
  have hblock : ∀ j, (fs.ino j).addrs indirect ≠ 0 →
      taken sb b fs.img ((fs.ino j).addrs indirect) = fs.img ((fs.ino j).addrs indirect) := by
    intro j hj
    exact taken_of_ne hlt (h.indirect_range j hj).1
      (h.ne_of_free hfree (k := (j, .addr indirect)) hj)
  obtain ⟨j, s⟩ := κ
  by_cases hji : j = i
  · subst hji
    cases s with
    | addr k =>
        rw [Function.update_of_ne (by simp)]
        rfl
    | entry e' =>
        simp only [Fs.setEntry, Fs.owner, slotAddr, if_neg ha, Function.update_self]
        by_cases hee : e' = e
        · subst hee
          have hsize := sb.size_lt
          rw [Function.update_self, num_setNum (by omega)]
        · have hval : e'.val ≠ e.val := fun hval => hee (Fin.ext hval)
          rw [Function.update_of_ne (by simp [hee]), num_setNum_of_disjoint (by omega),
            hblock j ha]
          simp only [Fs.owner, slotAddr, if_neg ha]
  · rw [Function.update_of_ne (by simp [hji])]
    refine owner_congr rfl fun hj => ?_
    have hne : (fs.ino j).addrs indirect ≠ (fs.ino i).addrs indirect := by
      intro heq
      have := Owned.unshared h (j, .addr indirect) (i, .addr indirect) heq hj
      exact hji (congrArg Prod.fst this)
    rw [← hblock j hj]
    exact Function.update_of_ne hne _ _

/-- What a slot gets when its block is loaded. -/
structure Loaded (i : Fin sb.ninodes) (s : Slot) (fs : Fs sb) (r : ℕ × Fs sb) : Prop where
  owns : r.2.Owns
  grows : Grows i fs r.2
  addr : r.2.owner (i, s) = r.1
  full : r.1 = 0 → r.2.Full

/-- A data block of an inode and a new block are different, and so is the indirect block. -/
theorem blockAddr_ne_indirect (h : fs.Owns) {j : Fin sb.ninodes} {bn : ℕ}
    (hb : fs.blockAddr j bn ≠ 0) : fs.blockAddr j bn ≠ (fs.ino i).addrs indirect := by
  intro heq
  cases hs : slotOf bn with
  | none => exact hb (by simp [Fs.blockAddr, hs])
  | some s =>
      rw [blockAddr_eq hs] at hb heq
      have hκ := Owned.unshared h (j, s) (i, .addr indirect) heq hb
      exact slotOf_ne_indirect bn (hs.trans (congrArg (fun κ => some κ.2) hκ))

theorem blockAddr_range (h : fs.Owns) {j : Fin sb.ninodes} {bn : ℕ}
    (hb : fs.blockAddr j bn ≠ 0) :
    sb.nmeta ≤ fs.blockAddr j bn ∧ fs.blockAddr j bn < sb.size := by
  cases hs : slotOf bn with
  | none => exact absurd (by simp [Fs.blockAddr, hs]) hb
  | some s =>
      rw [blockAddr_eq hs] at hb ⊢
      exact Owned.range h (j, s) hb

theorem blockAddr_ne_of_free (h : fs.Owns) (hfree : used sb fs.img b = false)
    {j : Fin sb.ninodes} {bn : ℕ} (hb : fs.blockAddr j bn ≠ 0) : fs.blockAddr j bn ≠ b := by
  cases hs : slotOf bn with
  | none => exact absurd (by simp [Fs.blockAddr, hs]) hb
  | some s =>
      rw [blockAddr_eq hs] at hb ⊢
      exact h.ne_of_free hfree hb

theorem Fs.Owns.assign (h : fs.Owns) (hlt : b < sb.size) (hfree : used sb fs.img b = false)
    {κ : Fin sb.ninodes × Slot} (hκ : fs.owner κ = 0)
    (howner : ∀ κ', fs'.owner κ' = Function.update fs.owner κ b κ')
    (hused : ∀ x < sb.size, used sb fs'.img x = (used sb fs.img x || decide (x = b))) :
    fs'.Owns := by
  refine Owned.assign h hκ (by simp [hfree]) hlt howner fun x hx => ?_
  rw [hused x hx]
  simp

theorem addr_of_update {κ κ' : Fin sb.ninodes × Slot} (hκ : fs.owner κ = 0)
    (howner : fs'.owner κ' = Function.update fs.owner κ b κ') (hκ' : fs.owner κ' ≠ 0) :
    fs'.owner κ' = fs.owner κ' := by
  have hne : κ' ≠ κ := by
    rintro rfl
    exact hκ' hκ
  rw [howner, Function.update_of_ne hne]

theorem loaded_loadAddr (h : fs.Owns) (i : Fin sb.ninodes) (k : Fin (NDIRECT + 1)) :
    Loaded i (.addr k) fs (loadAddr i k fs) := by
  have haddr : fs.owner (i, .addr k) = (fs.ino i).addrs k := rfl
  have hspec := allocated_balloc sb fs.img
  unfold loadAddr
  rw [← haddr]
  by_cases hk : fs.owner (i, .addr k) = 0
  · rw [if_pos hk]
    generalize balloc sb fs.img = r at hspec
    cases hspec with
    | full hfull => exact ⟨h, .refl fs, hk, fun _ => hfull⟩
    | found b hlt hfree =>
        have hle := h.le_of_free hfree
        have hpos := sb.nmeta_pos
        have howner := owner_setAddr h hlt hfree hk
        have hne : b ≠ 0 := by omega
        dsimp only
        rw [if_neg hne]
        refine ⟨?_, ⟨?_, ?_, ?_, ?_, ?_⟩, ?_, fun hz => absurd hz hne⟩
        · exact h.assign hlt hfree hk howner fun x hx => used_taken hle hx
        · intro j hj
          exact Function.update_of_ne hj _ _
        · simp [Fs.setAddr]
        · exact dinode_taken hle
        · intro κ hκ
          exact addr_of_update hk (howner κ) hκ
        · intro j bn hb
          exact taken_of_ne hlt (blockAddr_range h hb).1 (blockAddr_ne_of_free h hfree hb)
        · rw [howner, Function.update_self]
  · rw [if_neg hk]
    exact ⟨h, .refl fs, rfl, fun hz => absurd hz hk⟩

theorem loaded_loadEntry (h : fs.Owns) (i : Fin sb.ninodes) (e : Fin NINDIRECT)
    (ha : (fs.ino i).addrs indirect ≠ 0) : Loaded i (.entry e) fs (loadEntry i e fs) := by
  have haddr : fs.owner (i, .entry e) = num (fs.img ((fs.ino i).addrs indirect)) (4 * e.val) 4 := by
    simp only [Fs.owner, slotAddr, if_neg ha]
  have hspec := allocated_balloc sb fs.img
  unfold loadEntry
  dsimp only
  rw [← haddr]
  by_cases hz : fs.owner (i, .entry e) = 0
  · rw [if_pos hz]
    generalize balloc sb fs.img = r at hspec
    cases hspec with
    | full hfull => exact ⟨h, .refl fs, hz, fun _ => hfull⟩
    | found b hlt hfree =>
        have hle := h.le_of_free hfree
        have hpos := sb.nmeta_pos
        have hge := (h.indirect_range i ha).1
        have howner := owner_setEntry h hlt hfree (e := e) ha
        have hmeta : ∀ c < sb.nmeta, (Fs.setEntry { fs with img := taken sb b fs.img }
            ((fs.ino i).addrs indirect) e b).img c = taken sb b fs.img c := by
          intro c hc
          exact Function.update_of_ne (by omega) _ _
        have hne : b ≠ 0 := by omega
        dsimp only
        rw [if_neg hne]
        refine ⟨?_, ⟨fun j hj => rfl, rfl, ?_, ?_, ?_⟩, ?_, fun hz => absurd hz hne⟩
        · refine h.assign hlt hfree hz howner fun x hx => ?_
          rw [used_congr hmeta hx, used_taken hle hx]
        · intro j
          rw [dinode_of_data hmeta, dinode_taken hle]
        · intro κ hκ
          exact addr_of_update hz (howner κ) hκ
        · intro j bn hb
          have hkept := taken_of_ne (v := fs.img) hlt (blockAddr_range h hb).1
            (blockAddr_ne_of_free h hfree hb)
          exact (Function.update_of_ne (blockAddr_ne_indirect h hb) _ _).trans hkept
        · rw [howner, Function.update_self]
  · rw [if_neg hz]
    exact ⟨h, .refl fs, rfl, fun h0 => absurd h0 hz⟩

theorem exists_bmap (h : fs.Owns) (i : Fin sb.ninodes) {bn : ℕ} (hbn : bn < MAXFILE) :
    ∃ r, bmap i bn fs = some r ∧ r.2.Owns ∧ Grows i fs r.2 ∧ r.2.blockAddr i bn = r.1 ∧
      (r.1 = 0 → r.2.Full) := by
  unfold MAXFILE at hbn
  unfold bmap
  by_cases hd : bn < NDIRECT
  · have hs : slotOf bn = some (.addr ⟨bn, Nat.lt_succ_of_lt hd⟩) := dif_pos hd
    have hl := loaded_loadAddr h i ⟨bn, Nat.lt_succ_of_lt hd⟩
    rw [dif_pos hd]
    exact ⟨_, rfl, hl.owns, hl.grows, (blockAddr_eq hs).trans hl.addr, hl.full⟩
  · have he : bn - NDIRECT < NINDIRECT := by omega
    have hs : slotOf bn = some (.entry ⟨bn - NDIRECT, he⟩) := by
      rw [slotOf, dif_neg hd, dif_pos he]
    have hl := loaded_loadAddr h i indirect
    rw [dif_neg hd, dif_pos he]
    cases hr : loadAddr i indirect fs with | mk a fs₁ => ?_
    rw [hr] at hl
    have hz : fs₁.owner (i, .addr indirect) = a := hl.addr
    by_cases ha : a = 0
    · refine ⟨(0, fs₁), if_pos ha, hl.owns, hl.grows, ?_, fun _ => hl.full ha⟩
      rw [blockAddr_eq hs]
      exact if_pos (hz.trans ha)
    · have hl' := loaded_loadEntry hl.owns i ⟨bn - NDIRECT, he⟩ (fun h0 => ha (hz.symm.trans h0))
      exact ⟨_, if_neg ha, hl'.owns, hl.grows.trans hl'.grows, (blockAddr_eq hs).trans hl'.addr,
        hl'.full⟩

/-! ## Truncation -/

/-- What the loops of `itrunc` may do: blocks are taken from one inode, and no block that
does not belong to the free map changes. -/
structure Shrinks (i : Fin sb.ninodes) (fs fs' : Fs sb) : Prop where
  other : ∀ j, j ≠ i → fs'.ino j = fs.ino j
  same : fs'.ino i = { fs.ino i with addrs := (fs'.ino i).addrs }
  disk : ∀ j : Fin sb.ninodes, dinode sb fs'.img j = dinode sb fs.img j
  data : ∀ b, sb.nmeta ≤ b → fs'.img b = fs.img b

theorem Shrinks.refl (fs : Fs sb) : Shrinks i fs fs :=
  ⟨fun _ _ => rfl, rfl, fun _ => rfl, fun _ _ => rfl⟩

theorem Shrinks.trans (h : Shrinks i fs fs') (h' : Shrinks i fs' fs'') : Shrinks i fs fs'' where
  other j hj := (h'.other j hj).trans (h.other j hj)
  same := by rw [h'.same, h.same]
  disk j := (h'.disk j).trans (h.disk j)
  data b hb := (h'.data b hb).trans (h.data b hb)

theorem bfree_eq (h : used sb v b = true) : bfree sb b v = some (editMark sb clear b v) :=
  if_pos h

theorem unmark_of_ge {x : ℕ} (hb : b < sb.size) (hx : sb.nmeta ≤ x) :
    editMark sb clear b v x = v x := by
  have := bblock_lt hb
  exact editMark_of_ne (by omega)

theorem dinode_unmark (j : Fin sb.ninodes) :
    dinode sb (editMark sb clear b v) j = dinode sb v j :=
  dinode_congr (editMark_of_ne (iblock_ne_bblock j.isLt))

/-- Freeing the block of one direct slot. -/
theorem Fs.Owns.freeAddr (h : fs.Owns) {k : Fin (NDIRECT + 1)} (hk : k ≠ indirect)
    (hz : (fs.ino i).addrs k ≠ 0) :
    (Fs.setAddr { fs with img := editMark sb clear ((fs.ino i).addrs k) fs.img } i k 0).Owns ∧
      Shrinks i fs
        (Fs.setAddr { fs with img := editMark sb clear ((fs.ino i).addrs k) fs.img } i k 0) := by
  obtain ⟨hge, hlt⟩ := Owned.range h (i, .addr k) hz
  have hkept : ∀ κ, κ ≠ (i, .addr k) →
      (Fs.setAddr { fs with img := editMark sb clear ((fs.ino i).addrs k) fs.img } i k 0).owner κ =
        fs.owner κ := by
    rintro ⟨j, s⟩ hκ
    have hblock : (fs.ino j).addrs indirect ≠ 0 →
        editMark sb clear ((fs.ino i).addrs k) fs.img ((fs.ino j).addrs indirect) =
          fs.img ((fs.ino j).addrs indirect) := fun hj =>
      unmark_of_ge hlt (h.indirect_range j hj).1
    by_cases hji : j = i
    · subst hji
      cases s with
      | addr k' =>
          have hkk : k' ≠ k := fun hkk => hκ (by rw [hkk])
          simp [Fs.setAddr, Fs.owner, slotAddr, hkk]
      | entry e =>
          simp only [Fs.setAddr, Fs.owner, slotAddr, Function.update_self,
            Function.update_of_ne hk.symm]
          by_cases hj : (fs.ino j).addrs indirect = 0
          · rw [if_pos hj, if_pos hj]
          · rw [if_neg hj, if_neg hj, hblock hj]
    · exact owner_congr (Function.update_of_ne hji _ _) hblock
  constructor
  · refine Owned.release h (· = (i, .addr k)) sb.nmeta_le ?_ hkept fun x hx => ?_
    · rintro κ rfl
      simp [Fs.setAddr, Fs.owner, slotAddr]
    · have hself : fs.owner (i, .addr k) = (fs.ino i).addrs k := rfl
      simp only [Fs.setAddr, used_unmark, forall_eq, hself, Bool.and_eq_true, decide_eq_true_eq]
      refine and_congr_right fun _ => ⟨fun hne heq => absurd heq.symm hne, fun himp heq => ?_⟩
      exact hz (heq.symm.trans (himp heq.symm))
  · refine ⟨fun j hj => Function.update_of_ne hj _ _, ?_, fun j => dinode_unmark j, ?_⟩
    · simp [Fs.setAddr]
    · intro b hb
      exact unmark_of_ge hlt hb

theorem exists_freeAddrs (i : Fin sb.ninodes) (ks : List (Fin (NDIRECT + 1)))
    (hks : ∀ k ∈ ks, k ≠ indirect) (h : fs.Owns) :
    ∃ fs', freeAddrs i ks fs = some fs' ∧ fs'.Owns ∧ Shrinks i fs fs' ∧
      ∀ k, (fs'.ino i).addrs k = if k ∈ ks then 0 else (fs.ino i).addrs k := by
  induction ks generalizing fs with
  | nil => exact ⟨fs, rfl, h, .refl fs, fun k => by simp⟩
  | cons k ks ih =>
      obtain ⟨hk, hks⟩ := List.forall_mem_cons.mp hks
      by_cases hz : (fs.ino i).addrs k = 0
      · obtain ⟨fs', hrun, howns, hshrinks, haddrs⟩ := ih hks h
        refine ⟨fs', (if_pos hz).trans hrun, howns, hshrinks, fun k' => ?_⟩
        rw [haddrs]
        by_cases hkk : k' = k <;> simp [hkk, hz]
      · obtain ⟨howns, hshrinks⟩ := h.freeAddr hk hz
        obtain ⟨fs', hrun, howns', hshrinks', haddrs⟩ := ih hks howns
        have hused : used sb fs.img ((fs.ino i).addrs k) = true := Owned.marked h (i, .addr k) hz
        refine ⟨fs', ?_, howns', hshrinks.trans hshrinks', fun k' => ?_⟩
        · rw [freeAddrs, if_neg hz, bfree_eq hused]
          exact hrun
        · rw [haddrs]
          by_cases hkk : k' = k <;> simp [Fs.setAddr, hkk]

/-- The loop over the indirect block frees each of its entries once. -/
theorem exists_freeEntries {a : ℕ} (ha : sb.nmeta ≤ a) (js : List (Fin NINDIRECT))
    (hnodup : js.Nodup)
    (hused : ∀ j ∈ js, num (v a) (4 * j.val) 4 ≠ 0 → num (v a) (4 * j.val) 4 < sb.size ∧
      used sb v (num (v a) (4 * j.val) 4) = true)
    (hinj : ∀ j ∈ js, ∀ j' ∈ js, num (v a) (4 * j.val) 4 = num (v a) (4 * j'.val) 4 →
      num (v a) (4 * j.val) 4 ≠ 0 → j = j') :
    ∃ v', freeEntries sb a js v = some v' ∧ (∀ b, sb.nmeta ≤ b → v' b = v b) ∧
      (∀ j : Fin sb.ninodes, dinode sb v' j = dinode sb v j) ∧
      ∀ x, used sb v' x = true ↔
        used sb v x = true ∧ ∀ j ∈ js, num (v a) (4 * j.val) 4 = x → x = 0 := by
  induction js generalizing v with
  | nil => exact ⟨v, rfl, fun _ _ => rfl, fun _ => rfl, fun x => by simp⟩
  | cons j js ih =>
      obtain ⟨hj, hnodup⟩ := List.nodup_cons.mp hnodup
      obtain ⟨huj, hused⟩ := List.forall_mem_cons.mp hused
      have hinj' : ∀ j ∈ js, ∀ j' ∈ js, num (v a) (4 * j.val) 4 = num (v a) (4 * j'.val) 4 →
          num (v a) (4 * j.val) 4 ≠ 0 → j = j' := fun j₁ h₁ j₂ h₂ =>
        hinj j₁ (List.mem_cons_of_mem _ h₁) j₂ (List.mem_cons_of_mem _ h₂)
      by_cases hz : num (v a) (4 * j.val) 4 = 0
      · obtain ⟨v', hrun, hdata, hdisk, hiff⟩ := ih hnodup hused hinj'
        refine ⟨v', (if_pos hz).trans hrun, hdata, hdisk, fun x => ?_⟩
        rw [hiff, List.forall_mem_cons, hz]
        exact and_congr_right fun _ => ⟨fun h => ⟨Eq.symm, h⟩, fun h => h.2⟩
      · obtain ⟨hlt, hmark⟩ := huj hz
        -- the entries that are left are other blocks, so they stay in use
        have hsame : editMark sb clear (num (v a) (4 * j.val) 4) v a = v a :=
          unmark_of_ge hlt ha
        have hne : ∀ j' ∈ js, num (v a) (4 * j'.val) 4 ≠ 0 →
            num (v a) (4 * j'.val) 4 ≠ num (v a) (4 * j.val) 4 := by
          intro j' hj' hz' heq
          have := hinj j' (List.mem_cons_of_mem _ hj') j List.mem_cons_self heq hz'
          exact hj (this ▸ hj')
        obtain ⟨v', hrun, hdata, hdisk, hiff⟩ := ih
          (v := editMark sb clear (num (v a) (4 * j.val) 4) v) hnodup
          (by
            rw [hsame]
            intro j' hj' hz'
            refine ⟨(hused j' hj' hz').1, ?_⟩
            rw [used_unmark, (hused j' hj' hz').2, decide_eq_true (hne j' hj' hz')]
            rfl)
          (by rwa [hsame])
        refine ⟨v', ?_, ?_, ?_, ?_⟩
        · rw [freeEntries, if_neg hz, bfree_eq hmark]
          exact hrun
        · intro b hb
          exact (hdata b hb).trans (unmark_of_ge hlt hb)
        · intro j'
          exact (hdisk j').trans (dinode_unmark j')
        · intro x
          rw [hiff, hsame, used_unmark, List.forall_mem_cons, Bool.and_eq_true,
            decide_eq_true_eq, and_assoc]
          refine and_congr_right fun _ => and_congr_left fun _ => ?_
          exact ⟨fun hx heq => absurd heq.symm hx, fun himp heq =>
            hz (heq.symm.trans (himp heq.symm))⟩

/-- The inode gives up its indirect block and all entries of it. -/
theorem Fs.Owns.freeIndirect (h : fs.Owns) (ha : (fs.ino i).addrs indirect ≠ 0)
    (hdata : ∀ b, sb.nmeta ≤ b → v b = fs.img b)
    (hiff : ∀ x, used sb v x = true ↔
      used sb fs.img x = true ∧ ∀ e, fs.owner (i, .entry e) = x → x = 0) :
    (Fs.setAddr { fs with img := editMark sb clear ((fs.ino i).addrs indirect) v } i
      indirect 0).Owns := by
  have hlt := (h.indirect_range i ha).2
  refine Owned.release h (fun κ => κ.1 = i ∧ (κ.2 = .addr indirect ∨ ∃ e, κ.2 = .entry e))
    sb.nmeta_le ?_ ?_ fun x hx => ?_
  · rintro ⟨j, s⟩ ⟨rfl, rfl | ⟨e, rfl⟩⟩ <;> simp [Fs.setAddr, Fs.owner, slotAddr]
  · rintro ⟨j, s⟩ hκ
    by_cases hji : j = i
    · subst hji
      cases s with
      | addr k =>
          have hk : k ≠ indirect := fun hk => hκ ⟨rfl, .inl (by rw [hk])⟩
          simp [Fs.setAddr, Fs.owner, slotAddr, hk]
      | entry e => exact absurd ⟨rfl, .inr ⟨e, rfl⟩⟩ hκ
    · refine owner_congr (Function.update_of_ne hji _ _) fun hj => ?_
      have hge := (h.indirect_range j hj).1
      exact (unmark_of_ge hlt hge).trans (hdata _ hge)
  · simp only [Fs.setAddr, used_unmark, Bool.and_eq_true, decide_eq_true_eq, hiff]
    constructor
    · rintro ⟨⟨hx, he⟩, hne⟩
      refine ⟨hx, ?_⟩
      rintro ⟨j, s⟩ ⟨rfl, rfl | ⟨e, rfl⟩⟩ heq
      · exact absurd heq.symm hne
      · exact he e heq
    · rintro ⟨hx, he⟩
      refine ⟨⟨hx, fun e heq => he (i, .entry e) ⟨rfl, .inr ⟨e, rfl⟩⟩ heq⟩, fun heq => ?_⟩
      exact ha (heq.symm.trans (he (i, .addr indirect) ⟨rfl, .inl rfl⟩ heq.symm))

theorem exists_freeIndirect (h : fs.Owns) (i : Fin sb.ninodes) :
    ∃ fs', freeIndirect i fs = some fs' ∧ fs'.Owns ∧ Shrinks i fs fs' ∧
      (fs'.ino i).addrs = Function.update (fs.ino i).addrs indirect 0 := by
  unfold freeIndirect
  by_cases ha : (fs.ino i).addrs indirect = 0
  · refine ⟨fs, if_pos ha, h, .refl fs, ?_⟩
    rw [← ha, Function.update_eq_self]
  · obtain ⟨hge, hlt⟩ := h.indirect_range i ha
    have hentry : ∀ e : Fin NINDIRECT, fs.owner (i, .entry e) =
        num (fs.img ((fs.ino i).addrs indirect)) (4 * e.val) 4 := fun e => if_neg ha
    obtain ⟨v, hrun, hdata, hdisk, hiff⟩ := exists_freeEntries (v := fs.img) hge
      (List.finRange NINDIRECT) (List.nodup_finRange _)
      (fun e _ hz => by
        rw [← hentry e] at hz ⊢
        exact ⟨(Owned.range h _ hz).2, Owned.marked h _ hz⟩)
      (fun e _ e' _ heq hz => by
        rw [← hentry e] at hz heq
        rw [← hentry e'] at heq
        simpa using Owned.unshared h _ _ heq hz)
    simp only [List.mem_finRange, forall_const, ← hentry] at hiff
    -- the indirect block itself is none of its entries
    have hmark : used sb v ((fs.ino i).addrs indirect) = true := by
      refine (hiff _).mpr ⟨Owned.marked h (i, .addr indirect) ha, fun e heq => ?_⟩
      have hκ := Owned.unshared h (i, .entry e) (i, .addr indirect) heq (by rw [heq]; exact ha)
      cases hκ
    refine ⟨Fs.setAddr { fs with img := editMark sb clear ((fs.ino i).addrs indirect) v } i
      indirect 0, ?_, h.freeIndirect ha hdata hiff, ⟨?_, ?_, ?_, ?_⟩, ?_⟩
    · dsimp only
      rw [if_neg ha, hrun, Option.bind_some, bfree_eq hmark]
      rfl
    · intro j hj
      exact Function.update_of_ne hj _ _
    · simp [Fs.setAddr]
    · intro j
      exact (dinode_unmark j).trans (hdisk j)
    · intro b hb
      exact (unmark_of_ge hlt hb).trans (hdata b hb)
    · simp [Fs.setAddr]

/-! ## Saving an inode -/

section

variable {ip : Inode}

theorem save_of_ge (hb : sb.nmeta ≤ b) : (fs.save i ip).img b = fs.img b := by
  have hlt := iblock_lt i.isLt
  have hfit : sb.bmapstart ≤ sb.nmeta := Nat.le_trans (Nat.le_add_right _ _) sb.bitmap_fit
  exact iupdate_of_ne (by omega)

theorem ino_save_self : (fs.save i ip).ino i = ip := Function.update_self ..

theorem ino_save_of_ne {j : Fin sb.ninodes} (h : j ≠ i) : (fs.save i ip).ino j = fs.ino j :=
  Function.update_of_ne h _ _

theorem owner_save (h : fs.Owns) (haddrs : ip.addrs = (fs.ino i).addrs)
    (κ : Fin sb.ninodes × Slot) : (fs.save i ip).owner κ = fs.owner κ := by
  obtain ⟨j, s⟩ := κ
  have hblock : (fs.ino j).addrs indirect ≠ 0 →
      (fs.save i ip).img ((fs.ino j).addrs indirect) = fs.img ((fs.ino j).addrs indirect) :=
    fun hj => save_of_ge (h.indirect_range j hj).1
  by_cases hji : j = i
  · subst hji
    cases s with
    | addr k =>
        simp only [Fs.owner, slotAddr, ino_save_self, haddrs]
    | entry e =>
        simp only [Fs.owner, slotAddr, ino_save_self, haddrs]
        by_cases hj : (fs.ino j).addrs indirect = 0
        · rw [if_pos hj, if_pos hj]
        · rw [if_neg hj, if_neg hj, hblock hj]
  · exact owner_congr (ino_save_of_ne hji) hblock

theorem Fs.Owns.save (h : fs.Owns) (haddrs : ip.addrs = (fs.ino i).addrs) :
    (fs.save i ip).Owns := by
  refine Owned.congr h (owner_save h haddrs) (fun b _ => ?_) sb.nmeta_le
  exact Bool.coe_iff_coe.mpr (used_iupdate i.isLt)

end

theorem exists_itrunc (h : fs.Owns) (i : Fin sb.ninodes) :
    ∃ fs', itrunc i fs = some (fs'.setSize i 0) ∧ fs'.Owns ∧ Shrinks i fs fs' ∧
      ∀ k, (fs'.ino i).addrs k = 0 := by
  obtain ⟨fs₁, hrun₁, howns₁, hshrinks₁, haddrs₁⟩ := exists_freeAddrs i
    ((List.finRange NDIRECT).map Fin.castSucc)
    (fun k hk => by
      obtain ⟨k', -, rfl⟩ := List.mem_map.mp hk
      exact (Fin.castSucc_lt_last k').ne) h
  obtain ⟨fs₂, hrun₂, howns₂, hshrinks₂, haddrs₂⟩ := exists_freeIndirect howns₁ i
  refine ⟨fs₂, ?_, howns₂, hshrinks₁.trans hshrinks₂, fun k => ?_⟩
  · rw [itrunc, hrun₁, Option.bind_some, hrun₂]
    rfl
  · rw [haddrs₂]
    induction k using Fin.lastCases with
    | last => exact Function.update_self ..
    | cast k =>
        rw [Function.update_of_ne (Fin.castSucc_lt_last k).ne, haddrs₁,
          if_pos (List.mem_map_of_mem (List.mem_finRange k))]

end ShellXv6.Xv6.FileSystem
