import Mathlib.Data.List.TakeDrop
import ShellXv6.Lib.Run
import ShellXv6.Xv6.BlockMap

/-!
# Reading and writing files

`readi` and `writei` move bytes between memory and the blocks of a file, one block at a time.
A file is meant to be an array of bytes: a write overwrites a part of it and may extend it, a
read returns a part of it.  The memory side may fault: `src` holds the bytes that can be read
from the source address on, and `room` is the number of bytes that can be stored from the
destination address on.
-/

namespace ShellXv6.Xv6.FileSystem

variable {sb : Superblock}

/-- `memmove(d + o, bs, ..)` -/
def blit (d : Block) (o : ℕ) (bs : List UInt8) : Block := fun k =>
  if o ≤ k then (bs[k - o]?).getD (d k) else d k

def Fs.store (fs : Fs sb) (addr o : ℕ) (bs : List UInt8) : Fs sb :=
  { fs with img := Function.update fs.img addr (blit (fs.img addr) o bs) }

/-- The loop of `writei`; the first argument bounds the number of rounds. -/
def writeLoop (i : Fin sb.ninodes) (src : List UInt8) :
    ℕ → (tot off n : ℕ) → Fs sb → Option (ℕ × ℕ × Fs sb)
  | 0, tot, off, _, fs => some (tot, off, fs)
  | fuel + 1, tot, off, n, fs =>
    if tot < n then
      (bmap i (off / BSIZE) fs).bind fun (addr, fs) =>
        if addr = 0 then some (tot, off, fs)
        else
          let m := min (n - tot) (BSIZE - off % BSIZE)
          let bytes := (src.drop tot).take m
          let fs := fs.store addr (off % BSIZE) bytes
          -- `either_copyin` failed, perhaps after a part of the block
          if bytes.length < m then some (tot, off, fs)
          else writeLoop i src fuel (tot + m) (off + m) n fs
    else some (tot, off, fs)

/-- `none` is a panic of `fs.c`.  That a transaction logs too many blocks is a matter of the
log: the callers cut long writes into pieces for it. -/
def writei (i : Fin sb.ninodes) (src : List UInt8) (off n : ℕ) (fs : Fs sb) :
    Option (ℤ × Fs sb) :=
  if (fs.ino i).size < off ∨ (off + n) % 4294967296 < off then some (-1, fs)
  else if MAXFILE * BSIZE < (off + n) % 4294967296 then some (-1, fs)
  else (writeLoop i src n 0 off n fs).map fun (tot, off, fs) =>
    ((tot : ℤ), fs.setSize i (max (fs.ino i).size off))

def readLoop (i : Fin sb.ninodes) (room : ℕ) :
    ℕ → (tot off n : ℕ) → List UInt8 → Fs sb → Option (ℤ × List UInt8 × Fs sb)
  | 0, tot, _, _, out, fs => some (tot, out, fs)
  | fuel + 1, tot, off, n, out, fs =>
    if tot < n then
      (bmap i (off / BSIZE) fs).bind fun (addr, fs) =>
        if addr = 0 then some (tot, out, fs)
        else
          let m := min (n - tot) (BSIZE - off % BSIZE)
          let bytes := (List.range m).map fun k => fs.img addr (off % BSIZE + k)
          -- `either_copyout` failed
          if room < tot + m then some (-1, out ++ bytes.take (room - tot), fs)
          else readLoop i room fuel (tot + m) (off + m) n (out ++ bytes) fs
    else some (tot, out, fs)

/-- The result, the bytes stored at the destination, and the file system. -/
def readi (i : Fin sb.ninodes) (room off n : ℕ) (fs : Fs sb) :
    Option (ℤ × List UInt8 × Fs sb) :=
  if (fs.ino i).size < off ∨ (off + n) % 4294967296 < off then some (0, [], fs)
  else
    let n := if (fs.ino i).size < (off + n) % 4294967296 then (fs.ino i).size - off else n
    readLoop i room n 0 off n [] fs

/-! ## The bytes of a file -/

def Fs.byte (fs : Fs sb) (i : Fin sb.ninodes) (p : ℕ) : UInt8 :=
  fs.img (fs.blockAddr i (p / BSIZE)) (p % BSIZE)

def Fs.contents (fs : Fs sb) (i : Fin sb.ninodes) : List UInt8 :=
  (List.range (fs.ino i).size).map (fs.byte i)

/-- `bs` written over `file` from `off` on. -/
def overwrite (file : List UInt8) (off : ℕ) (bs : List UInt8) : List UInt8 :=
  file.take off ++ bs ++ file.drop (off + bs.length)

variable {fs fs' fs'' : Fs sb} {i : Fin sb.ninodes}

@[simp] theorem length_contents : (fs.contents i).length = (fs.ino i).size := by
  simp [Fs.contents]

theorem getElem?_contents {p : ℕ} (h : p < (fs.ino i).size) :
    (fs.contents i)[p]? = some (fs.byte i p) := by
  simp [Fs.contents, h]

theorem getElem?_overwrite {file bs : List UInt8} {off p : ℕ} (hoff : off ≤ file.length) :
    (overwrite file off bs)[p]? =
      if off ≤ p ∧ p < off + bs.length then bs[p - off]? else file[p]? := by
  have htake : (file.take off).length = off := by
    rw [List.length_take]
    omega
  unfold overwrite
  by_cases hlo : p < off
  · rw [if_neg (by omega), List.append_assoc, List.getElem?_append_left (by omega),
      List.getElem?_take_of_lt hlo]
  · rw [List.append_assoc, List.getElem?_append_right (by omega), htake]
    by_cases hhi : p < off + bs.length
    · rw [if_pos (by omega), List.getElem?_append_left (by omega)]
    · rw [if_neg (by omega), List.getElem?_append_right (by omega), List.getElem?_drop]
      congr 1
      omega

theorem length_overwrite {file bs : List UInt8} {off : ℕ} (hoff : off ≤ file.length) :
    (overwrite file off bs).length = max file.length (off + bs.length) := by
  simp only [overwrite, List.length_append, List.length_take, List.length_drop]
  omega

/-! ## Writing -/

/-- From `off` on `bs` was written to the file; everything else is as it was. -/
structure Writes (i : Fin sb.ninodes) (off : ℕ) (bs : List UInt8) (fs fs' : Fs sb) : Prop where
  owns : fs'.Owns
  other : ∀ j, j ≠ i → fs'.ino j = fs.ino j
  same : fs'.ino i = { fs.ino i with addrs := (fs'.ino i).addrs }
  disk : ∀ j : Fin sb.ninodes, dinode sb fs'.img j = dinode sb fs.img j
  addr : ∀ j bn, fs.blockAddr j bn ≠ 0 → fs'.blockAddr j bn ≠ 0
  present : ∀ p, off ≤ p → p < off + bs.length → fs'.blockAddr i (p / BSIZE) ≠ 0
  written : ∀ p, off ≤ p → p < off + bs.length → bs[p - off]? = some (fs'.byte i p)
  kept : ∀ j p, fs.blockAddr j (p / BSIZE) ≠ 0 →
    (j = i → p < off ∨ off + bs.length ≤ p) → fs'.byte j p = fs.byte j p

theorem Writes.of_grows {off : ℕ} (howns : fs'.Owns) (h : Grows i fs fs') :
    Writes i off [] fs fs' where
  owns := howns
  other := h.other
  same := h.same
  disk := h.disk
  addr j bn hb := by rwa [h.blockAddr hb]
  present p hlo hhi := absurd hlo (Nat.not_le_of_lt hhi)
  written p hlo hhi := absurd hlo (Nat.not_le_of_lt hhi)
  kept j p hb _ := by rw [Fs.byte, Fs.byte, h.blockAddr hb, h.data j _ hb]

theorem Writes.append {off : ℕ} {bs bs' : List UInt8} (h : Writes i off bs fs fs')
    (h' : Writes i (off + bs.length) bs' fs' fs'') : Writes i off (bs ++ bs') fs fs'' where
  owns := h'.owns
  other j hj := (h'.other j hj).trans (h.other j hj)
  same := by rw [h'.same, h.same]
  disk j := (h'.disk j).trans (h.disk j)
  addr j bn hb := h'.addr j bn (h.addr j bn hb)
  present p hlo hhi := by
    rw [List.length_append] at hhi
    by_cases hp : p < off + bs.length
    · exact h'.addr i _ (h.present p hlo hp)
    · exact h'.present p (by omega) (by omega)
  written p hlo hhi := by
    rw [List.length_append] at hhi
    by_cases hp : p < off + bs.length
    · rw [List.getElem?_append_left (by omega), h.written p hlo hp,
        h'.kept i p (h.present p hlo hp) (fun _ => .inl hp)]
    · rw [List.getElem?_append_right (by omega), ← h'.written p (by omega) (by omega)]
      congr 1
      omega
  kept j p hb hp := by
    rw [List.length_append] at hp
    have hp' : j = i → p < off ∨ off + bs.length ≤ p := by
      intro hj
      have := hp hj
      omega
    refine (h'.kept j p (h.addr j _ hb) fun hj => ?_).trans (h.kept j p hb hp')
    have := hp hj
    omega

/-- Storing into a data block moves no block. -/
theorem owner_store (h : fs.Owns) {bn : ℕ} (hb : fs.blockAddr i bn ≠ 0) (o : ℕ)
    (bs : List UInt8) (κ : Fin sb.ninodes × Slot) :
    (fs.store (fs.blockAddr i bn) o bs).owner κ = fs.owner κ := by
  refine owner_congr rfl fun _ => ?_
  exact Function.update_of_ne (blockAddr_ne_indirect h hb).symm _ _

theorem store_meta (h : fs.Owns) {bn : ℕ} (hb : fs.blockAddr i bn ≠ 0) (o : ℕ)
    (bs : List UInt8) :
    ∀ c < sb.nmeta, (fs.store (fs.blockAddr i bn) o bs).img c = fs.img c := by
  intro c hc
  have := (blockAddr_range h hb).1
  exact Function.update_of_ne (by omega) _ _

theorem eq_of_blockAddr (h : fs.Owns) {j : Fin sb.ninodes} {m n : ℕ}
    (heq : fs.blockAddr j m = fs.blockAddr i n) (hb : fs.blockAddr j m ≠ 0) : j = i ∧ m = n := by
  cases hm : slotOf m with
  | none => exact absurd (by simp [Fs.blockAddr, hm]) hb
  | some s =>
      cases hn : slotOf n with
      | none => exact absurd (heq.trans (by simp [Fs.blockAddr, hn])) hb
      | some t =>
          rw [blockAddr_eq hm] at hb
          rw [blockAddr_eq hm, blockAddr_eq hn] at heq
          have hκ := Ownership.Owned.unshared h (j, s) (i, t) heq hb
          cases hκ
          exact ⟨rfl, slotOf_inj hm hn⟩

theorem writes_store (h : fs.Owns) {off : ℕ} {bs : List UInt8}
    (hb : fs.blockAddr i (off / BSIZE) ≠ 0) (hlen : off % BSIZE + bs.length ≤ BSIZE) :
    Writes i off bs fs (fs.store (fs.blockAddr i (off / BSIZE)) (off % BSIZE) bs) := by
  have howner := owner_store h hb (off % BSIZE) bs
  have haddr : ∀ j bn, (fs.store (fs.blockAddr i (off / BSIZE)) (off % BSIZE) bs).blockAddr j bn =
      fs.blockAddr j bn := by
    intro j bn
    unfold Fs.blockAddr at howner ⊢
    simp only [howner]
  have hmeta := store_meta h hb (off % BSIZE) bs
  have hpos : 0 < BSIZE := by decide
  have hdivmod := Nat.div_add_mod off BSIZE
  -- the positions that are written lie in one block
  have hblock : ∀ p, off ≤ p → p < off + bs.length →
      p / BSIZE = off / BSIZE ∧ p % BSIZE = off % BSIZE + (p - off) := by
    intro p hlo hhi
    have hsplit : p = BSIZE * (off / BSIZE) + (off % BSIZE + (p - off)) := by omega
    have hlt : off % BSIZE + (p - off) < BSIZE := by omega
    rw [hsplit, Nat.mul_add_div hpos, Nat.mul_add_mod, Nat.div_eq_of_lt hlt,
      Nat.mod_eq_of_lt hlt]
    omega
  refine ⟨?_, fun _ _ => rfl, rfl, fun j => dinode_of_data hmeta j, ?_, ?_, ?_, ?_⟩
  · refine Ownership.Owned.congr h howner (fun b hb => ?_) sb.nmeta_le
    rw [used_congr hmeta hb]
  · intro j bn hj
    rwa [haddr]
  · intro p hlo hhi
    rwa [haddr, (hblock p hlo hhi).1]
  · intro p hlo hhi
    obtain ⟨hdiv, hmod⟩ := hblock p hlo hhi
    have hget : p - off < bs.length := by omega
    have hsub : off % BSIZE + (p - off) - off % BSIZE = p - off := by omega
    rw [Fs.byte, haddr, hdiv, hmod]
    simp only [Fs.store, Function.update_self, blit, if_pos (Nat.le_add_right _ _), hsub,
      List.getElem?_eq_getElem hget, Option.getD_some]
  · intro j p hj hp
    rw [Fs.byte, Fs.byte, haddr]
    by_cases heq : fs.blockAddr j (p / BSIZE) = fs.blockAddr i (off / BSIZE)
    · obtain ⟨rfl, hdiv⟩ := eq_of_blockAddr h heq hj
      have hp := hp rfl
      have hpdivmod := Nat.div_add_mod p BSIZE
      rw [hdiv] at hpdivmod
      simp only [heq, Fs.store, Function.update_self, blit]
      by_cases hle : off % BSIZE ≤ p % BSIZE
      · rw [if_pos hle, List.getElem?_eq_none (by omega)]
        rfl
      · rw [if_neg hle]
    · exact congrFun (Function.update_of_ne heq _ _) _

/-- How the loop of `writei` ends: with all bytes, at the beginning of a block that a full
disk does not have, or at an address that cannot be read; then the bytes before that address
are in the file all the same.  `off` is where the loop stopped. -/
inductive Ends (i : Fin sb.ninodes) (src : List UInt8) (n tot off : ℕ) (bytes : List UInt8)
    (fs fs' : Fs sb) : Prop
  | all (h : tot = n) (hbytes : bytes = src.take tot)
  | full (h : tot < n) (hbytes : bytes = src.take tot) (hblock : tot = 0 ∨ off % BSIZE = 0)
      (hmissing : fs.blockAddr i (off / BSIZE) = 0) (hfull : fs'.Full)
  | fault (h : tot ≤ src.length) (hshort : src.length < n) (hbytes : bytes = src)

theorem Ends.mono {src bytes : List UInt8} {n tot off : ℕ}
    (h : Ends i src n tot off bytes fs' fs'')
    (haddr : ∀ bn, fs.blockAddr i bn ≠ 0 → fs'.blockAddr i bn ≠ 0) :
    Ends i src n tot off bytes fs fs'' := by
  cases h with
  | all h hb => exact .all h hb
  | full h hb hblock hmissing hfull =>
      exact .full h hb hblock (by_contra fun hne => haddr _ hne hmissing) hfull
  | fault h hshort hb => exact .fault h hshort hb

/-- One round of the loop. -/
theorem exists_round (h : fs.Owns) (i : Fin sb.ninodes) {off tot n : ℕ} (htot : tot < n)
    (hbound : off + (n - tot) ≤ MAXFILE * BSIZE) :
    ∃ r, bmap i (off / BSIZE) fs = some r ∧ Writes i off [] fs r.2 ∧
      (r.1 = 0 → r.2.Full ∧ fs.blockAddr i (off / BSIZE) = 0) ∧
      (r.1 ≠ 0 → ∀ bs : List UInt8, bs.length ≤ min (n - tot) (BSIZE - off % BSIZE) →
        Writes i off bs fs (r.2.store r.1 (off % BSIZE) bs)) := by
  have hpos : 0 < BSIZE := by decide
  have hbn : off / BSIZE < MAXFILE := Nat.div_lt_of_lt_mul (by rw [Nat.mul_comm]; omega)
  obtain ⟨r, hr, howns, hgrows, haddr, hfull⟩ := exists_bmap h i hbn
  refine ⟨r, hr, .of_grows howns hgrows, fun hz => ⟨hfull hz, ?_⟩, fun hz bs hlen => ?_⟩
  · by_contra hne
    exact hne ((hgrows.blockAddr hne).symm.trans (haddr.trans hz))
  have hfits : off % BSIZE + bs.length ≤ BSIZE := by
    have hmod := Nat.mod_lt off hpos
    generalize off % BSIZE = o at hlen hmod
    omega
  rw [← haddr] at hz ⊢
  have hgrown : Writes i off [] fs r.2 := .of_grows howns hgrows
  exact hgrown.append (writes_store howns hz hfits)

theorem exists_writeLoop (i : Fin sb.ninodes) (src : List UInt8) (n : ℕ) :
    ∀ (fuel tot off : ℕ) (fs : Fs sb), fs.Owns → n - tot ≤ fuel → tot ≤ n → tot ≤ src.length →
      off + (n - tot) ≤ MAXFILE * BSIZE → (tot = 0 ∨ off % BSIZE = 0 ∨ tot = n) →
      ∃ tot' fs' bytes, writeLoop i src fuel tot off n fs = some (tot', off + (tot' - tot), fs') ∧
        tot ≤ tot' ∧ tot' ≤ n ∧ tot' ≤ src.length ∧ Writes i off bytes fs fs' ∧
        Ends i src n tot' (off + (tot' - tot)) (src.take tot ++ bytes) fs fs' := by
  intro fuel
  induction fuel with
  | zero =>
      intro tot off fs h hfuel htot hsrc hbound hblock
      refine ⟨tot, fs, [], ?_, Nat.le_refl _, htot, hsrc, .of_grows h (.refl fs), ?_⟩
      · rw [Nat.sub_self, Nat.add_zero]
        rfl
      · exact .all (by omega) (List.append_nil _)
  | succ fuel ih =>
      intro tot off fs h hfuel htot hsrc hbound hblock
      by_cases hlt : tot < n
      · obtain ⟨⟨addr, fs₁⟩, hbmap, hnil, hfull, hstore⟩ := exists_round h i hlt hbound
        rw [writeLoop, if_pos hlt, hbmap, Option.bind_some]
        dsimp only at hnil hfull hstore ⊢
        by_cases hz : addr = 0
        · refine ⟨tot, fs₁, [], ?_, Nat.le_refl _, htot, hsrc, hnil, ?_⟩
          · rw [if_pos hz, Nat.sub_self, Nat.add_zero]
          · obtain ⟨hfull, hmissing⟩ := hfull hz
            rw [Nat.sub_self, Nat.add_zero]
            exact .full hlt (List.append_nil _) (by omega) hmissing hfull
        rw [if_neg hz]
        generalize hm : min (n - tot) (BSIZE - off % BSIZE) = m at hstore
        have hmod := Nat.mod_lt off (show 0 < BSIZE by decide)
        have hmpos : 0 < m := by omega
        have hnext : (off + m) % BSIZE = 0 ∨ tot + m = n := by
          rcases Nat.le_total (n - tot) (BSIZE - off % BSIZE) with hle | hle
          · exact .inr (by omega)
          · have hsum : off + m = BSIZE * (off / BSIZE) + BSIZE * 1 := by
              have := Nat.div_add_mod off BSIZE
              omega
            rw [hsum, ← Nat.mul_add]
            exact .inl (Nat.mul_mod_right _ _)
        have hlen : ((src.drop tot).take m).length = min m (src.length - tot) := by
          rw [List.length_take, List.length_drop]
        have hwrites := hstore hz ((src.drop tot).take m) (by omega)
        by_cases hshort : ((src.drop tot).take m).length < m
        · refine ⟨tot, _, (src.drop tot).take m, ?_, Nat.le_refl _, htot, hsrc, hwrites, ?_⟩
          · rw [if_pos hshort, Nat.sub_self, Nat.add_zero]
          · refine .fault hsrc (by omega) ?_
            rw [List.take_of_length_le (l := src.drop tot) (by rw [List.length_drop]; omega),
              List.take_append_drop]
        · obtain ⟨tot', fs', bytes, hrun, hle, hle', hsrc', hrest, hends⟩ := ih (tot + m)
            (off + m) _ hwrites.owns (by omega) (by omega) (by omega) (by omega) (.inr hnext)
          have hoff : off + m + (tot' - (tot + m)) = off + (tot' - tot) := by omega
          rw [hoff] at hrun hends
          have hm' : ((src.drop tot).take m).length = m := by omega
          refine ⟨tot', fs', (src.drop tot).take m ++ bytes, ?_, by omega, hle', hsrc', ?_, ?_⟩
          · rw [if_neg hshort, hrun]
          · refine hwrites.append ?_
            rw [hm']
            exact hrest
          · rw [← List.append_assoc, ← List.take_add]
            exact hends.mono (hwrites.addr i)
      · refine ⟨tot, fs, [], ?_, Nat.le_refl _, htot, hsrc, .of_grows h (.refl fs), ?_⟩
        · rw [writeLoop, if_neg hlt, Nat.sub_self, Nat.add_zero]
        · exact .all (by omega) (List.append_nil _)

/-! ## Reading -/

theorem bmap_eq_of_present {bn : ℕ} (h : fs.blockAddr i bn ≠ 0) :
    bmap i bn fs = some (fs.blockAddr i bn, fs) := by
  unfold bmap
  by_cases hd : bn < NDIRECT
  · have hs : slotOf bn = some (.addr ⟨bn, Nat.lt_succ_of_lt hd⟩) := dif_pos hd
    rw [blockAddr_eq hs] at h ⊢
    have ha : (fs.ino i).addrs ⟨bn, Nat.lt_succ_of_lt hd⟩ ≠ 0 := h
    rw [dif_pos hd, loadAddr, if_neg ha]
    rfl
  · by_cases he : bn - NDIRECT < NINDIRECT
    · have hs : slotOf bn = some (.entry ⟨bn - NDIRECT, he⟩) := by
        rw [slotOf, dif_neg hd, dif_pos he]
      rw [blockAddr_eq hs] at h ⊢
      have ha : (fs.ino i).addrs indirect ≠ 0 := fun ha => h (if_pos ha)
      have howner : fs.owner (i, .entry ⟨bn - NDIRECT, he⟩) =
          Words.num (fs.img ((fs.ino i).addrs indirect)) (4 * (bn - NDIRECT)) 4 := if_neg ha
      rw [howner] at h ⊢
      rw [dif_neg hd, dif_pos he, loadAddr, if_neg ha]
      dsimp only
      rw [if_neg ha, loadEntry]
      dsimp only
      rw [if_neg h]
    · exact absurd (by rw [Fs.blockAddr, slotOf, dif_neg hd, dif_neg he]; rfl) h

theorem range_map_add (m n off : ℕ) (f : ℕ → UInt8) :
    (List.range (m + n)).map (fun k => f (off + k)) =
      (List.range m).map (fun k => f (off + k)) ++
        (List.range n).map fun k => f (off + m + k) := by
  rw [List.range_add, List.map_append, List.map_map]
  simp only [Function.comp_def, Nat.add_assoc]

theorem map_range_byte {off m : ℕ} (hm : off % BSIZE + m ≤ BSIZE) :
    ((List.range m).map fun k => fs.img (fs.blockAddr i (off / BSIZE)) (off % BSIZE + k)) =
      (List.range m).map fun k => fs.byte i (off + k) := by
  apply List.map_congr_left
  intro k hk
  have hk := List.mem_range.mp hk
  have hlt : off % BSIZE + k < BSIZE := by
    generalize off % BSIZE = o at hm
    omega
  have hsplit : off + k = BSIZE * (off / BSIZE) + (off % BSIZE + k) := by
    rw [← Nat.add_assoc, Nat.div_add_mod]
  have hpos : 0 < BSIZE := by decide
  rw [Fs.byte, hsplit, Nat.mul_add_div hpos, Nat.mul_add_mod, Nat.div_eq_of_lt hlt,
    Nat.mod_eq_of_lt hlt, Nat.add_zero]

theorem readLoop_eq (fs : Fs sb) (i : Fin sb.ninodes) (room n : ℕ) :
    ∀ (fuel tot off : ℕ) (out : List UInt8), n - tot ≤ fuel → tot ≤ n → tot ≤ room →
      (∀ p, off ≤ p → p < off + (n - tot) → fs.blockAddr i (p / BSIZE) ≠ 0) →
      readLoop i room fuel tot off n out fs = some (if n ≤ room then (n : ℤ) else -1,
        out ++ (List.range (min n room - tot)).map fun k => fs.byte i (off + k), fs) := by
  intro fuel
  induction fuel with
  | zero =>
      intro tot off out hfuel htot hroom hblocks
      obtain rfl : tot = n := by omega
      simp [readLoop, hroom]
  | succ fuel ih =>
      intro tot off out hfuel htot hroom hblocks
      by_cases hlt : tot < n
      · have hb := hblocks off (Nat.le_refl _) (by omega)
        rw [readLoop, if_pos hlt, bmap_eq_of_present hb, Option.bind_some]
        dsimp only
        rw [if_neg hb]
        have hmod := Nat.mod_lt off (show 0 < BSIZE by decide)
        generalize hm : min (n - tot) (BSIZE - off % BSIZE) = m
        have hfits : off % BSIZE + m ≤ BSIZE := by
          generalize off % BSIZE = o at hm hmod
          omega
        have hmpos : 0 < m := by
          generalize off % BSIZE = o at hm hmod
          omega
        have hmle : m ≤ n - tot := by omega
        rw [map_range_byte hfits]
        by_cases hfault : room < tot + m
        · have hlen : min (room - tot) m = min n room - tot := by omega
          rw [if_pos hfault, if_neg (by omega), ← List.map_take, List.take_range, hlen]
        · have hlen : m + (min n room - (tot + m)) = min n room - tot := by omega
          rw [if_neg hfault, ih (tot + m) (off + m) _ (by omega) (by omega) (by omega)
            (fun p hlo hhi => hblocks p (by omega) (by omega)), List.append_assoc,
            ← range_map_add, hlen]
      · obtain rfl : tot = n := by omega
        simp [readLoop, hroom]

end ShellXv6.Xv6.FileSystem
