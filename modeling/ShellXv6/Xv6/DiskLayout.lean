import Mathlib.Data.List.Pairwise
import Mathlib.Data.List.FinRange
import Mathlib.Logic.Function.Basic
import ShellXv6.Lib.Words

/-!
# The file system on disk

The layout of `kernel/fs.h`: boot block, super block, log, inode blocks, free map and data
blocks.  `balloc` and `bfree` work on the free map and `iupdate` on the inode blocks, byte by
byte.  What one of them reads is not changed by the others, nor by a write to a data block.
-/

namespace ShellXv6.Xv6.FileSystem

open ShellXv6.Words

def BSIZE : ℕ := 1024
def BPB : ℕ := BSIZE * 8
def NDIRECT : ℕ := 12
def NINDIRECT : ℕ := BSIZE / 4
def MAXFILE : ℕ := NDIRECT + NINDIRECT
/-- The size of `struct dinode`. -/
def DINODE : ℕ := 64
def IPB : ℕ := BSIZE / DINODE

abbrev Block := ℕ → UInt8

abbrev Image := ℕ → Block

/-- The superblock as `mkfs` computes it; `nmeta` is the number of blocks before the data.
`balloc` counts the blocks in steps of `BPB` in an `int`, and the disk driver counts sectors of
half a block in a `uint`. -/
structure Superblock where
  size : ℕ
  ninodes : ℕ
  inodestart : ℕ
  bmapstart : ℕ
  nmeta : ℕ
  boot : 0 < inodestart
  inodes_fit : inodestart + (ninodes / IPB + 1) ≤ bmapstart
  bitmap_fit : bmapstart + (size / BPB + 1) ≤ nmeta
  nmeta_le : nmeta ≤ size
  size_lt : size + BPB < 2147483648

variable (sb : Superblock)

theorem Superblock.nmeta_pos : 0 < sb.nmeta := by
  apply Nat.lt_of_lt_of_le _ sb.bitmap_fit
  exact Nat.succ_pos _

/-! ## The free map -/

def bblock (b : ℕ) : ℕ := b / BPB + sb.bmapstart

def used (v : Image) (b : ℕ) : Bool := test (v (bblock sb b) (b % BPB / 8)) (b % BPB % 8)

/-- Change the bit of `b` in the free map. -/
def editMark (f : UInt8 → ℕ → UInt8) (b : ℕ) (v : Image) : Image :=
  Function.update v (bblock sb b) (Function.update (v (bblock sb b)) (b % BPB / 8)
    (f (v (bblock sb b) (b % BPB / 8)) (b % BPB % 8)))

def bzero (b : ℕ) (v : Image) : Image := Function.update v b fun _ => 0

/-- The first free block whose bit is in the free map block that starts with `b`. -/
def freeFrom (v : Image) (b : ℕ) : Option ℕ :=
  ((List.range (min BPB (sb.size - b))).find? fun bi =>
    !test (v (bblock sb b) (bi / 8)) (bi % 8)).map (b + ·)

def balloc (v : Image) : ℕ × Image :=
  match (List.range ((sb.size + BPB - 1) / BPB)).findSome? fun q => freeFrom sb v (q * BPB) with
  | some b => (b, bzero b (editMark sb set b v))
  -- prints "balloc: out of blocks"
  | none => (0, v)

/-- `none` is the panic "freeing free block". -/
def bfree (b : ℕ) (v : Image) : Option Image :=
  if used sb v b then some (editMark sb clear b v) else none

variable {sb} {v v' : Image} {b x : ℕ}

theorem bblock_lt (h : b < sb.size) : bblock sb b < sb.nmeta := by
  have hfit := sb.bitmap_fit
  have hdiv := Nat.div_le_div_right (c := BPB) (Nat.le_of_lt h)
  unfold bblock
  omega

theorem used_congr (h : ∀ b < sb.nmeta, v' b = v b) (hx : x < sb.size) :
    used sb v' x = used sb v x := by
  rw [used, used, h _ (bblock_lt hx)]

/-- Two blocks with the same bit in the free map are the same. -/
theorem eq_of_bit (hblock : bblock sb x = bblock sb b) (hbyte : x % BPB / 8 = b % BPB / 8)
    (hbit : x % BPB % 8 = b % BPB % 8) : x = b := by
  unfold bblock at hblock
  have hdiv : x / BPB = b / BPB := by omega
  have hmod : x % BPB = b % BPB := by omega
  rw [← Nat.div_add_mod x BPB, ← Nat.div_add_mod b BPB, hdiv, hmod]

theorem used_editMark {f : UInt8 → ℕ → UInt8} {g : Bool → Bool → Bool}
    (hf : ∀ y j k, j < 8 → test (f y k) j = g (test y j) (decide (j = k)))
    (hg : ∀ t, g t false = t) :
    used sb (editMark sb f b v) x = g (used sb v x) (decide (x = b)) := by
  have hne : x ≠ b → ∀ y, x % BPB / 8 = b % BPB / 8 → bblock sb x = bblock sb b →
      test (f y (b % BPB % 8)) (x % BPB % 8) = test y (x % BPB % 8) := by
    intro hx y hbyte hblock
    have hbit : x % BPB % 8 ≠ b % BPB % 8 := fun hbit => hx (eq_of_bit hblock hbyte hbit)
    rw [hf y _ _ (Nat.mod_lt _ (by decide)), decide_eq_false hbit, hg]
  by_cases hx : x = b
  · subst hx
    rw [used, editMark, Function.update_self, Function.update_self,
      hf _ _ _ (Nat.mod_lt _ (by decide)), decide_eq_true rfl, decide_eq_true rfl]
    rfl
  · rw [decide_eq_false hx, hg, used, used, editMark]
    by_cases hblock : bblock sb x = bblock sb b
    · rw [hblock, Function.update_self]
      by_cases hbyte : x % BPB / 8 = b % BPB / 8
      · rw [hbyte, Function.update_self]
        exact hne hx _ hbyte hblock
      · rw [Function.update_of_ne hbyte]
    · rw [Function.update_of_ne hblock]

theorem used_mark : used sb (editMark sb set b v) x = (used sb v x || decide (x = b)) :=
  used_editMark (g := (· || ·)) (fun y _ _ hj => test_set y hj) Bool.or_false

theorem used_unmark : used sb (editMark sb clear b v) x = (used sb v x && decide (x ≠ b)) := by
  have hclear : ∀ y j k, j < 8 → test (clear y k) j = (test y j && !decide (j = k)) := by
    intro y j k hj
    rw [test_clear y hj, decide_not]
  rw [decide_not]
  exact used_editMark (g := fun t e => t && !e) hclear Bool.and_true

theorem editMark_of_ne {f : UInt8 → ℕ → UInt8} (h : x ≠ bblock sb b) :
    editMark sb f b v x = v x :=
  Function.update_of_ne h _ _

/-- What `freeFrom` tests is the mark of the block it returns. -/
theorem used_add {q bi : ℕ} (h : bi < BPB) :
    used sb v (q * BPB + bi) = test (v (bblock sb (q * BPB)) (bi / 8)) (bi % 8) := by
  have hpos : 0 < BPB := by decide
  have hmod : (q * BPB + bi) % BPB = bi := by
    rw [Nat.mul_comm, Nat.mul_add_mod, Nat.mod_eq_of_lt h]
  have hdiv : (q * BPB + bi) / BPB = q * BPB / BPB := by
    rw [Nat.mul_div_cancel _ hpos, Nat.mul_comm, Nat.mul_add_div hpos, Nat.div_eq_of_lt h,
      Nat.add_zero]
  rw [used, hmod, bblock, hdiv]
  rfl

theorem freeFrom_eq_some {q : ℕ} (h : freeFrom sb v (q * BPB) = some b) :
    b < sb.size ∧ used sb v b = false := by
  obtain ⟨bi, hfind, rfl⟩ := Option.map_eq_some_iff.mp h
  have hmem := List.mem_range.mp (List.mem_of_find?_eq_some hfind)
  have htest := List.find?_some hfind
  refine ⟨by omega, ?_⟩
  rw [used_add (by omega)]
  exact Bool.not_eq_true' _ ▸ htest

theorem freeFrom_eq_none {q bi : ℕ} (h : freeFrom sb v (q * BPB) = none) (hbi : bi < BPB)
    (hlt : q * BPB + bi < sb.size) : used sb v (q * BPB + bi) = true := by
  have hall := List.find?_eq_none.mp (Option.map_eq_none_iff.mp h) bi
    (List.mem_range.mpr (by omega))
  rw [used_add hbi]
  simpa using hall

/-- The two outcomes of `balloc`. -/
inductive Allocated (sb : Superblock) (v : Image) : ℕ × Image → Prop
  | full (h : ∀ b < sb.size, used sb v b = true) : Allocated sb v (0, v)
  | found (b : ℕ) (hlt : b < sb.size) (hfree : used sb v b = false) :
      Allocated sb v (b, bzero b (editMark sb set b v))

theorem allocated_balloc (sb : Superblock) (v : Image) : Allocated sb v (balloc sb v) := by
  unfold balloc
  split
  · next b h =>
    obtain ⟨q, -, hq⟩ := List.exists_of_findSome?_eq_some h
    obtain ⟨hlt, hfree⟩ := freeFrom_eq_some hq
    exact .found b hlt hfree
  · next h =>
    refine .full fun b hb => ?_
    have hpos : 0 < BPB := by decide
    have hq : b / BPB < (sb.size + BPB - 1) / BPB := by
      apply (Nat.lt_div_iff_mul_lt hpos).mpr
      have := Nat.div_mul_le_self b BPB
      omega
    have hnone := List.findSome?_eq_none_iff.mp h (b / BPB) (List.mem_range.mpr hq)
    have hb' : b / BPB * BPB + b % BPB = b := Nat.div_add_mod' b BPB
    rw [← hb']
    exact freeFrom_eq_none hnone (Nat.mod_lt b hpos) (hb'.symm ▸ hb)

theorem used_bzero (hb : sb.nmeta ≤ b) (hx : x < sb.size) :
    used sb (bzero b v) x = used sb v x := by
  refine used_congr (fun c hc => ?_) hx
  exact Function.update_of_ne (by omega) _ _

/-! ## Inodes -/

@[ext] structure Inode where
  type : ℕ
  major : ℕ
  minor : ℕ
  nlink : ℕ
  size : ℕ
  addrs : Fin (NDIRECT + 1) → ℕ

/-- The members of `struct dinode` with their places. -/
def Inode.fields (ip : Inode) : List Field :=
  [⟨0, 2, ip.type⟩, ⟨2, 2, ip.major⟩, ⟨4, 2, ip.minor⟩, ⟨6, 2, ip.nlink⟩, ⟨8, 4, ip.size⟩] ++
    (List.finRange (NDIRECT + 1)).map fun k => ⟨12 + 4 * k.val, 4, ip.addrs k⟩

structure Inode.Fits (ip : Inode) : Prop where
  fits : ∀ f ∈ ip.fields, f.value < 256 ^ f.width

theorem Inode.Fits.of_lt {ip : Inode} (htype : ip.type < 65536) (hmajor : ip.major < 65536)
    (hminor : ip.minor < 65536) (hnlink : ip.nlink < 65536) (hsize : ip.size < 4294967296)
    (haddrs : ∀ k, ip.addrs k < 4294967296) : ip.Fits := by
  refine ⟨fun f hf => ?_⟩
  unfold Inode.fields at hf
  rcases List.mem_append.mp hf with hf | hf
  · simp only [List.mem_cons, List.not_mem_nil, or_false] at hf
    rcases hf with rfl | rfl | rfl | rfl | rfl <;> assumption
  · obtain ⟨k, -, rfl⟩ := List.mem_map.mp hf
    exact haddrs k

def iblock (sb : Superblock) (i : ℕ) : ℕ := i / IPB + sb.inodestart

/-- The inode that `ilock` reads. -/
def dinode (sb : Superblock) (v : Image) (i : ℕ) : Inode :=
  let d := v (iblock sb i)
  let q := i % IPB * DINODE
  { type := num d (q + 0) 2
    major := num d (q + 2) 2
    minor := num d (q + 4) 2
    nlink := num d (q + 6) 2
    size := num d (q + 8) 4
    addrs := fun k => num d (q + (12 + 4 * k.val)) 4 }

def iupdate (sb : Superblock) (i : ℕ) (ip : Inode) (v : Image) : Image :=
  Function.update v (iblock sb i) (setFields (v (iblock sb i)) (i % IPB * DINODE) ip.fields)

variable {i j : ℕ} {ip : Inode}

theorem iblock_lt (h : i < sb.ninodes) : iblock sb i < sb.bmapstart := by
  have hfit := sb.inodes_fit
  have hdiv := Nat.div_le_div_right (c := IPB) (Nat.le_of_lt h)
  unfold iblock
  omega

theorem iblock_ne_bblock (h : i < sb.ninodes) : iblock sb i ≠ bblock sb b := by
  have hlt := iblock_lt h
  have hle : sb.bmapstart ≤ bblock sb b := Nat.le_add_left _ _
  omega

theorem dinode_congr {k : ℕ} (h : v' (iblock sb k) = v (iblock sb k)) :
    dinode sb v' k = dinode sb v k := by
  rw [dinode, h]
  rfl

theorem fields_ordered (ip : Inode) :
    ip.fields.Pairwise fun f g => f.offset + f.width ≤ g.offset := by
  unfold Inode.fields
  rw [List.pairwise_append]
  refine ⟨by simp, ?_, ?_⟩
  · rw [List.pairwise_map]
    refine (List.pairwise_lt_finRange _).imp fun {a b} hab => ?_
    have : a.val < b.val := hab
    dsimp only
    omega
  · intro f hf g hg
    obtain ⟨k, -, rfl⟩ := List.mem_map.mp hg
    simp only [List.mem_cons, List.not_mem_nil, or_false] at hf
    rcases hf with rfl | rfl | rfl | rfl | rfl <;> dsimp only <;> omega

theorem fields_within {f : Field} (h : f ∈ ip.fields) : f.offset + f.width ≤ DINODE := by
  unfold Inode.fields at h
  rcases List.mem_append.mp h with h | h
  · simp only [List.mem_cons, List.not_mem_nil, or_false] at h
    rcases h with rfl | rfl | rfl | rfl | rfl <;> simp [DINODE]
  · obtain ⟨k, -, rfl⟩ := List.mem_map.mp h
    have hk : k.val < 13 := k.isLt
    have hsize : DINODE = 64 := rfl
    dsimp only
    omega

/-- What `iupdate` writes is what `ilock` reads. -/
theorem dinode_iupdate (hfits : ip.Fits) : dinode sb (iupdate sb i ip v) i = ip := by
  have hread : ∀ f ∈ ip.fields, num (iupdate sb i ip v (iblock sb i))
      (i % IPB * DINODE + f.offset) f.width = f.value := by
    intro f hf
    rw [iupdate, Function.update_self]
    exact num_setFields (fields_ordered ip) hf (hfits.fits f hf)
  have hhead : ∀ f ∈ [⟨0, 2, ip.type⟩, ⟨2, 2, ip.major⟩, ⟨4, 2, ip.minor⟩, ⟨6, 2, ip.nlink⟩,
      (⟨8, 4, ip.size⟩ : Field)], f ∈ ip.fields := fun f hf => List.mem_append_left _ hf
  apply Inode.ext
  · exact hread ⟨0, 2, ip.type⟩ (hhead _ (by simp))
  · exact hread ⟨2, 2, ip.major⟩ (hhead _ (by simp))
  · exact hread ⟨4, 2, ip.minor⟩ (hhead _ (by simp))
  · exact hread ⟨6, 2, ip.nlink⟩ (hhead _ (by simp))
  · exact hread ⟨8, 4, ip.size⟩ (hhead _ (by simp))
  · funext k
    exact hread ⟨12 + 4 * k.val, 4, ip.addrs k⟩
      (List.mem_append_right _ (List.mem_map_of_mem (List.mem_finRange k)))

theorem iupdate_of_ne (h : b ≠ iblock sb i) : iupdate sb i ip v b = v b :=
  Function.update_of_ne h _ _

theorem dinode_iupdate_of_ne (h : j ≠ i) : dinode sb (iupdate sb i ip v) j = dinode sb v j := by
  by_cases hblock : iblock sb j = iblock sb i
  · have hslot : j % IPB ≠ i % IPB := by
      intro hmod
      unfold iblock at hblock
      have hdiv : j / IPB = i / IPB := by omega
      apply h
      rw [← Nat.div_add_mod j IPB, ← Nat.div_add_mod i IPB, hdiv, hmod]
    have hbytes : ∀ o w, o + w ≤ DINODE →
        num (setFields (v (iblock sb i)) (i % IPB * DINODE) ip.fields) (j % IPB * DINODE + o) w =
          num (v (iblock sb i)) (j % IPB * DINODE + o) w := by
      intro o w how
      apply num_congr
      intro k hlo hhi
      apply setFields_of_outside
      intro f hf
      have hwithin := fields_within hf
      rcases Nat.lt_or_gt_of_ne hslot with hlt | hgt
      · have := Nat.mul_le_mul_right DINODE (Nat.succ_le_of_lt hlt)
        rw [Nat.succ_mul] at this
        exact .inl (by omega)
      · have := Nat.mul_le_mul_right DINODE (Nat.succ_le_of_lt hgt)
        rw [Nat.succ_mul] at this
        exact .inr (by omega)
    have haddr : ∀ k : Fin (NDIRECT + 1), 12 + 4 * k.val + 4 ≤ DINODE := by decide
    simp only [dinode, hblock, iupdate, Function.update_self]
    rw [hbytes 0 2 (by decide), hbytes 2 2 (by decide), hbytes 4 2 (by decide),
      hbytes 6 2 (by decide), hbytes 8 4 (by decide)]
    simp only [hbytes _ 4 (haddr _)]
  · exact dinode_congr (iupdate_of_ne hblock)

theorem used_iupdate (hi : i < sb.ninodes) : used sb (iupdate sb i ip v) x = used sb v x := by
  rw [used, used, iupdate_of_ne (iblock_ne_bblock hi).symm]

end ShellXv6.Xv6.FileSystem
