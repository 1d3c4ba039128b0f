import ShellXv6.Xv6.FileIO

/-!
# Files are arrays of bytes

The calls that read, write and truncate files, and the reload of an inode from disk, behave
like the same operations on arrays of bytes.  They never come to a panic of `fs.c`, and they
never change another file than their own.
-/

namespace ShellXv6.Xv6.FileSystem

variable {sb : Superblock}

/-- The state between two operations. -/
structure Sound (fs : Fs sb) : Prop where
  owns : fs.Owns
  whole : ∀ i bn, bn * BSIZE < (fs.ino i).size → fs.blockAddr i bn ≠ 0
  bound : ∀ i, (fs.ino i).size ≤ MAXFILE * BSIZE
  saved : ∀ i : Fin sb.ninodes, dinode sb fs.img i = fs.ino i

inductive Op (sb : Superblock)
  | write (i : Fin sb.ninodes) (src : List UInt8) (off n : ℕ)
  | read (i : Fin sb.ninodes) (room off n : ℕ)
  | trunc (i : Fin sb.ninodes)
  -- the inode leaves the inode table and is read from disk again
  | reload (i : Fin sb.ninodes)

/-- Offsets and counts are of type `uint`. -/
def Op.Uint : Op sb → Prop
  | .write _ _ off n => off < 4294967296 ∧ n < 4294967296
  | .read _ _ off n => off < 4294967296 ∧ n < 4294967296
  | .trunc _ => True
  | .reload _ => True

/-- The result of a call and the bytes it stored in memory. -/
abbrev Answer := ℤ × List UInt8

def call (fs : Fs sb) : Op sb → Option (Answer × Fs sb)
  | .write i src off n => (writei i src off n fs).map fun (r, fs) => ((r, []), fs)
  | .read i room off n => (readi i room off n fs).map fun (r, out, fs) => ((r, out), fs)
  | .trunc i => (itrunc i fs).map fun fs => ((0, []), fs)
  | .reload i => some ((0, []), { fs with ino := Function.update fs.ino i (dinode sb fs.img i) })

abbrev Files (sb : Superblock) := Fin sb.ninodes → List UInt8

/-- The calls on arrays of bytes.  `full` says that no block of the disk is free. -/
inductive Serves (full : Prop) (files : Files sb) : Op sb → Answer → Files sb → Prop
  | refused {i src off n} (h : (files i).length < off ∨ MAXFILE * BSIZE < off + n) :
      Serves full files (.write i src off n) (-1, []) files
  | written {i src off n} (hoff : off ≤ (files i).length) (hmax : off + n ≤ MAXFILE * BSIZE)
      (hsrc : n ≤ src.length) :
      Serves full files (.write i src off n) (n, [])
        (Function.update files i (overwrite (files i) off (src.take n)))
  | short {i src off n} (tot : ℕ) (hoff : off ≤ (files i).length) (htot : tot < n)
      (hsrc : tot ≤ src.length) (hblock : (off + tot) % BSIZE = 0)
      (hend : (files i).length ≤ off + tot) (hfull : full) :
      Serves full files (.write i src off n) (tot, [])
        (Function.update files i (overwrite (files i) off (src.take tot)))
  -- bytes behind the reported ones may have been overwritten, but the file is not longer
  | fault {i src off n} (tot : ℕ) (hoff : off ≤ (files i).length) (hsrc : src.length < n)
      (htot : tot ≤ src.length) :
      Serves full files (.write i src off n) (tot, [])
        (Function.update files i
          ((overwrite (files i) off src).take (max (files i).length (off + tot))))
  | beyond {i room off n} (h : (files i).length < off ∨ 4294967296 ≤ off + n) :
      Serves full files (.read i room off n) (0, []) files
  | read {i room off n} (hoff : off ≤ (files i).length)
      (hroom : min n ((files i).length - off) ≤ room) :
      Serves full files (.read i room off n)
        (((files i).drop off).take n |>.length, ((files i).drop off).take n) files
  | unreadable {i room off n} (hoff : off ≤ (files i).length)
      (hroom : room < min n ((files i).length - off)) :
      Serves full files (.read i room off n) (-1, ((files i).drop off).take room) files
  | trunc {i} : Serves full files (.trunc i) (0, []) (Function.update files i [])
  | reload {i} : Serves full files (.reload i) (0, []) files

variable {fs fs' : Fs sb} {i : Fin sb.ninodes}

/-! ## Changing an inode -/

/-- The other members of an inode are of type `short`. -/
structure Inode.Short (ip : Inode) : Prop where
  type : ip.type < 65536
  major : ip.major < 65536
  minor : ip.minor < 65536
  nlink : ip.nlink < 65536

theorem Sound.short (h : Sound fs) (i : Fin sb.ninodes) : (fs.ino i).Short := by
  have hbytes : ∀ d p, Words.num d p 2 < 65536 := fun d p => Words.num_lt d p 2
  rw [← h.saved i]
  exact ⟨hbytes _ _, hbytes _ _, hbytes _ _, hbytes _ _⟩

theorem Fs.Owns.addr_lt (h : fs.Owns) (i : Fin sb.ninodes) (k : Fin (NDIRECT + 1)) :
    (fs.ino i).addrs k < 4294967296 := by
  have hsize := sb.size_lt
  by_cases hz : (fs.ino i).addrs k = 0
  · omega
  · have hlt : (fs.ino i).addrs k < sb.size := (Ownership.Owned.range h (i, .addr k) hz).2
    omega

theorem blockAddr_save (h : fs.Owns) {ip : Inode} (haddrs : ip.addrs = (fs.ino i).addrs)
    (j : Fin sb.ninodes) (bn : ℕ) : (fs.save i ip).blockAddr j bn = fs.blockAddr j bn := by
  unfold Fs.blockAddr
  simp only [owner_save h haddrs]

theorem byte_save (h : fs.Owns) {ip : Inode} (haddrs : ip.addrs = (fs.ino i).addrs) {p : ℕ}
    {j : Fin sb.ninodes} (hb : fs.blockAddr j (p / BSIZE) ≠ 0) :
    (fs.save i ip).byte j p = fs.byte j p := by
  rw [Fs.byte, Fs.byte, blockAddr_save h haddrs, save_of_ge (blockAddr_range h hb).1]

/-- What is saved is read again. -/
theorem dinode_save {ip : Inode} (hfits : ip.Fits)
    (hsaved : ∀ j : Fin sb.ninodes, j ≠ i → dinode sb fs.img j = fs.ino j) (j : Fin sb.ninodes) :
    dinode sb (fs.save i ip).img j = (fs.save i ip).ino j := by
  by_cases hji : j = i
  · subst hji
    rw [ino_save_self]
    exact dinode_iupdate hfits
  · have hne : (j : ℕ) ≠ i := fun heq => hji (Fin.ext heq)
    rw [ino_save_of_ne hji, ← hsaved j hji]
    exact dinode_iupdate_of_ne hne

theorem blockAddr_setSize (h : fs.Owns) {n : ℕ} (j : Fin sb.ninodes) (bn : ℕ) :
    (fs.setSize i n).blockAddr j bn = fs.blockAddr j bn := by
  have haddrs : Inode.addrs { fs.ino i with size := n } = (fs.ino i).addrs := rfl
  exact blockAddr_save h haddrs j bn

theorem byte_setSize (h : fs.Owns) {n p : ℕ} {j : Fin sb.ninodes}
    (hb : fs.blockAddr j (p / BSIZE) ≠ 0) : (fs.setSize i n).byte j p = fs.byte j p := by
  have haddrs : Inode.addrs { fs.ino i with size := n } = (fs.ino i).addrs := rfl
  exact byte_save h haddrs hb

theorem size_setSize {n : ℕ} (j : Fin sb.ninodes) :
    ((fs.setSize i n).ino j).size = if j = i then n else (fs.ino j).size := by
  by_cases hji : j = i
  · subst hji
    rw [Fs.setSize, ino_save_self, if_pos rfl]
  · rw [Fs.setSize, ino_save_of_ne hji, if_neg hji]

/-- An operation on one file ends with its new size. -/
theorem Sound.setSize (h : Sound fs) (howns : fs'.Owns)
    (hother : ∀ j, j ≠ i → fs'.ino j = fs.ino j)
    (hsame : fs'.ino i = { fs.ino i with addrs := (fs'.ino i).addrs })
    (hdisk : ∀ j : Fin sb.ninodes, dinode sb fs'.img j = dinode sb fs.img j)
    (haddr : ∀ j bn, j ≠ i → fs.blockAddr j bn ≠ 0 → fs'.blockAddr j bn ≠ 0) {n : ℕ}
    (hn : n ≤ MAXFILE * BSIZE) (hwhole : ∀ bn, bn * BSIZE < n → fs'.blockAddr i bn ≠ 0) :
    Sound (fs'.setSize i n) := by
  refine ⟨howns.save rfl, ?_, ?_, dinode_save ?_ ?_⟩
  · intro j bn hbn
    rw [blockAddr_setSize howns]
    rw [size_setSize] at hbn
    by_cases hji : j = i
    · subst hji
      exact hwhole bn (by simpa using hbn)
    · rw [if_neg hji, hother j hji] at hbn
      exact haddr j bn hji (h.whole j bn hbn)
  · intro j
    rw [size_setSize]
    by_cases hji : j = i
    · rwa [if_pos hji]
    · rw [if_neg hji, hother j hji]
      exact h.bound j
  · obtain ⟨htype, hmajor, hminor, hnlink⟩ := h.short i
    have hmax : MAXFILE * BSIZE < 4294967296 := by decide
    rw [hsame]
    exact .of_lt htype hmajor hminor hnlink (Nat.lt_of_le_of_lt hn hmax) (howns.addr_lt i)
  · intro j hji
    rw [hother j hji, hdisk j, h.saved j]

theorem contents_congr {n : ℕ} {j : Fin sb.ninodes} (h : Sound fs) (howns : fs'.Owns) (hji : j ≠ i)
    (hino : fs'.ino j = fs.ino j)
    (hbyte : ∀ p, fs.blockAddr j (p / BSIZE) ≠ 0 →
      fs'.blockAddr j (p / BSIZE) ≠ 0 ∧ fs'.byte j p = fs.byte j p) :
    (fs'.setSize i n).contents j = fs.contents j := by
  unfold Fs.contents
  rw [size_setSize, if_neg hji, hino]
  apply List.map_congr_left
  intro p hp
  have hb := h.whole j (p / BSIZE) (by
    have := Nat.div_mul_le_self p BSIZE
    have := List.mem_range.mp hp
    omega)
  obtain ⟨hb', heq⟩ := hbyte p hb
  rw [byte_setSize howns hb', heq]

/-- Only the size and the blocks of one inode may differ. -/
structure Touches (i : Fin sb.ninodes) (fs fs' : Fs sb) : Prop where
  other : ∀ j, j ≠ i → fs'.ino j = fs.ino j
  self : fs'.ino i =
    { fs.ino i with size := (fs'.ino i).size, addrs := (fs'.ino i).addrs }

theorem Touches.refl (fs : Fs sb) : Touches i fs fs := ⟨fun _ _ => rfl, rfl⟩

theorem Touches.setSize {n : ℕ} (hother : ∀ j, j ≠ i → fs'.ino j = fs.ino j)
    (hsame : fs'.ino i = { fs.ino i with addrs := (fs'.ino i).addrs }) :
    Touches i fs (fs'.setSize i n) where
  other j hj := (ino_save_of_ne hj).trans (hother j hj)
  self := by
    rw [Fs.setSize, ino_save_self, hsame]

/-! ## The operations -/

/-- What a write leaves when `tot` bytes are reported and `bytes` are in the blocks. -/
theorem Sound.write (h : Sound fs) {off tot : ℕ} {bytes : List UInt8}
    (hw : Writes i off bytes fs fs') (hoff : off ≤ (fs.ino i).size) (htot : tot ≤ bytes.length)
    (hmax : off + tot ≤ MAXFILE * BSIZE) :
    Sound (fs'.setSize i (max (fs'.ino i).size (off + tot))) ∧
      (fs'.setSize i (max (fs'.ino i).size (off + tot))).contents = Function.update fs.contents i
        ((overwrite (fs.contents i) off bytes).take (max (fs.ino i).size (off + tot))) := by
  have hsize : (fs'.ino i).size = (fs.ino i).size := by rw [hw.same]
  have hpos : 0 < BSIZE := by decide
  have hblock : ∀ p, p < max (fs.ino i).size (off + tot) → fs'.blockAddr i (p / BSIZE) ≠ 0 := by
    intro p hp
    by_cases hlt : p < (fs.ino i).size
    · have := Nat.div_mul_le_self p BSIZE
      exact hw.addr i _ (h.whole i _ (by omega))
    · exact hw.present p (by omega) (by omega)
  rw [hsize]
  constructor
  · have hbound := h.bound i
    refine h.setSize hw.owns hw.other hw.same hw.disk (fun j bn _ => hw.addr j bn) (by omega) ?_
    intro bn hbn
    have := hblock (bn * BSIZE) hbn
    rwa [Nat.mul_div_cancel _ hpos] at this
  · funext j
    by_cases hji : j = i
    · subst hji
      rw [Function.update_self]
      apply List.ext_getElem?
      intro p
      by_cases hp : p < max (fs.ino j).size (off + tot)
      · have hb := hblock p hp
        rw [List.getElem?_take_of_lt hp, getElem?_overwrite (by simpa using hoff),
          getElem?_contents (by rwa [size_setSize, if_pos rfl]), byte_setSize hw.owns hb]
        by_cases hin : off ≤ p ∧ p < off + bytes.length
        · rw [if_pos hin, hw.written p hin.1 hin.2]
        · have hlt : p < (fs.ino j).size := by omega
          have hold := h.whole j (p / BSIZE) (by
            have := Nat.div_mul_le_self p BSIZE
            omega)
          rw [if_neg hin, getElem?_contents hlt, hw.kept j p hold fun _ => by omega]
      · rw [List.getElem?_eq_none (by rw [length_contents, size_setSize, if_pos rfl]; omega),
          List.getElem?_eq_none (by rw [List.length_take]; omega)]
    · rw [Function.update_of_ne hji]
      exact contents_congr h hw.owns hji (hw.other j hji) fun p hb =>
        ⟨hw.addr j _ hb, hw.kept j p hb fun heq => absurd heq hji⟩

theorem serves_writei (h : Sound fs) (i : Fin sb.ninodes) (src : List UInt8) {off n : ℕ}
    (huint : off < 4294967296 ∧ n < 4294967296) :
    ∃ r fs', writei i src off n fs = some (r, fs') ∧ Sound fs' ∧ Touches i fs fs' ∧
      Serves fs'.Full fs.contents (.write i src off n) (r, []) fs'.contents := by
  have hsmall : MAXFILE * BSIZE < 4294967296 := by decide
  unfold writei
  by_cases hbad : (fs.ino i).size < off ∨ (off + n) % 4294967296 < off
  · refine ⟨-1, fs, if_pos hbad, h, .refl fs, .refused ?_⟩
    rw [length_contents]
    omega
  rw [if_neg hbad]
  by_cases hmax : MAXFILE * BSIZE < (off + n) % 4294967296
  · refine ⟨-1, fs, if_pos hmax, h, .refl fs, .refused ?_⟩
    exact .inr (Nat.lt_of_lt_of_le hmax (Nat.mod_le _ _))
  have hoff : off ≤ (fs.ino i).size := by omega
  have hbound : off + n ≤ MAXFILE * BSIZE := by omega
  obtain ⟨tot, fs', bytes, hrun, -, hle, hsrc, hw, hends⟩ := exists_writeLoop i src n n 0 off fs
    h.owns (Nat.le_refl _) (Nat.zero_le _) (Nat.zero_le _) hbound (.inl rfl)
  rw [Nat.sub_zero] at hrun hends
  rw [List.take_zero, List.nil_append] at hends
  rw [if_neg hmax, hrun]
  have hlen : tot ≤ bytes.length := by
    cases hends with
    | all _ hb => rw [hb, List.length_take]; omega
    | full _ hb _ _ _ => rw [hb, List.length_take]; omega
    | fault _ _ hb => rw [hb]; exact hsrc
  obtain ⟨hsound, hcontents⟩ := h.write hw hoff hlen (by omega)
  refine ⟨tot, _, rfl, hsound, .setSize hw.other hw.same, ?_⟩
  have hoff' : off ≤ (fs.contents i).length := by rwa [length_contents]
  -- the size is that of the overwritten file when all bytes written are reported
  have hexact : bytes = src.take tot → (overwrite (fs.contents i) off bytes).take
      (max (fs.ino i).size (off + tot)) = overwrite (fs.contents i) off (src.take tot) := by
    rintro rfl
    apply List.take_of_length_le
    rw [length_overwrite hoff', length_contents, List.length_take, Nat.min_eq_left hsrc]
  rw [hcontents]
  cases hends with
  | all heq hb =>
      rw [hexact hb, heq]
      exact .written hoff' hbound (heq ▸ hsrc)
  | full hlt hb hblock hmissing hfull =>
      rw [hexact hb]
      -- a file has its blocks up to its end, also the one in which the write begins
      have hend : (fs.ino i).size ≤ (off + tot) / BSIZE * BSIZE :=
        Nat.le_of_not_lt fun hlt => h.whole i _ hlt hmissing
      have hle := Nat.div_mul_le_self (off + tot) BSIZE
      have hdivmod := Nat.div_add_mod' (off + tot) BSIZE
      refine .short tot hoff' hlt hsrc ?_ ?_ fun b hb => ?_
      · rcases hblock with rfl | hblock
        · omega
        · exact hblock
      · rw [length_contents]
        exact hend.trans hle
      · exact (used_iupdate i.isLt).trans (hfull b hb)
  | fault _ hshort hb =>
      have hlength : (fs.ino i).size = (fs.contents i).length := length_contents.symm
      rw [hb, hlength]
      exact .fault tot hoff' hshort hsrc

theorem serves_readi (h : Sound fs) (full : Prop) (i : Fin sb.ninodes) (room : ℕ) {off n : ℕ}
    (huint : off < 4294967296 ∧ n < 4294967296) :
    ∃ r out, readi i room off n fs = some (r, out, fs) ∧
      Serves full fs.contents (.read i room off n) (r, out) fs.contents := by
  have hsmall : MAXFILE * BSIZE < 4294967296 := by decide
  have hbound := h.bound i
  have hlength : (fs.contents i).length = (fs.ino i).size := length_contents
  unfold readi
  by_cases hbad : (fs.ino i).size < off ∨ (off + n) % 4294967296 < off
  · refine ⟨0, [], if_pos hbad, .beyond ?_⟩
    rw [hlength]
    omega
  rw [if_neg hbad]
  dsimp only
  have hoff : off ≤ (fs.ino i).size := by omega
  generalize hn : (if (fs.ino i).size < (off + n) % 4294967296 then (fs.ino i).size - off else n)
    = len
  have hlen : len = min n ((fs.ino i).size - off) := by
    rw [← hn]
    split <;> omega
  have hloop := readLoop_eq fs i room len len 0 off [] (Nat.le_refl _) (Nat.zero_le _)
    (Nat.zero_le _) (fun p hlo hhi => by
      apply h.whole i
      have := Nat.div_mul_le_self p BSIZE
      omega)
  have hbytes : ∀ m ≤ len, (List.range m).map (fun k => fs.byte i (off + k)) =
      ((fs.contents i).drop off).take m := by
    intro m hm
    apply List.ext_getElem?
    intro k
    by_cases hk : k < m
    · rw [List.getElem?_take_of_lt hk, List.getElem?_drop, getElem?_contents (by omega)]
      simp [hk]
    · rw [List.getElem?_eq_none (by simp; omega),
        List.getElem?_eq_none (by rw [List.length_take]; omega)]
  rw [List.nil_append, Nat.sub_zero] at hloop
  refine ⟨_, _, hloop, ?_⟩
  by_cases hroom : len ≤ room
  · have htake : ((fs.contents i).drop off).take len = ((fs.contents i).drop off).take n := by
      rw [hlen, ← hlength, ← List.length_drop, ← List.take_eq_take_min]
    rw [if_pos hroom, Nat.min_eq_left hroom, hbytes len (Nat.le_refl _), htake]
    have hcount : (len : ℤ) = (((fs.contents i).drop off).take n).length := by
      rw [List.length_take, List.length_drop, hlength, hlen]
    rw [hcount]
    exact .read (by rwa [hlength]) (by rwa [hlength, ← hlen])
  · rw [if_neg hroom, Nat.min_eq_right (by omega), hbytes room (by omega)]
    exact .unreadable (by rwa [hlength]) (by rw [hlength]; omega)

theorem serves_itrunc (h : Sound fs) (i : Fin sb.ninodes) :
    ∃ fs', itrunc i fs = some fs' ∧ Sound fs' ∧ Touches i fs fs' ∧
      (∀ k, (fs'.ino i).addrs k = 0) ∧
      Serves fs'.Full fs.contents (.trunc i) (0, []) fs'.contents := by
  obtain ⟨fs', hrun, howns, hshrinks, haddrs⟩ := exists_itrunc h.owns i
  have hkept : ∀ j bn, j ≠ i → fs.blockAddr j bn ≠ 0 → fs'.blockAddr j bn = fs.blockAddr j bn := by
    intro j bn hji _
    unfold Fs.blockAddr
    cases slotOf bn with
    | none => rfl
    | some s =>
        refine owner_congr (hshrinks.other j hji) fun hj => ?_
        exact hshrinks.data _ (h.owns.indirect_range j hj).1
  refine ⟨_, hrun, ?_, .setSize hshrinks.other hshrinks.same, ?_, ?_⟩
  · refine h.setSize howns hshrinks.other hshrinks.same hshrinks.disk ?_ (Nat.zero_le _) ?_
    · intro j bn hji hb
      rwa [hkept j bn hji hb]
    · intro bn hbn
      exact absurd hbn (Nat.not_lt_zero _)
  · intro k
    rw [Fs.setSize, ino_save_self]
    exact haddrs k
  · have hcontents : (fs'.setSize i 0).contents = Function.update fs.contents i [] := by
      funext j
      by_cases hji : j = i
      · subst hji
        rw [Function.update_self, ← List.length_eq_zero_iff, length_contents, size_setSize,
          if_pos rfl]
      · rw [Function.update_of_ne hji]
        refine contents_congr h howns hji (hshrinks.other j hji) fun p hb => ?_
        have heq := hkept j _ hji hb
        refine ⟨heq ▸ hb, ?_⟩
        rw [Fs.byte, Fs.byte, heq, hshrinks.data _ (blockAddr_range h.owns hb).1]
    rw [hcontents]
    exact .trunc

theorem serves_call (h : Sound fs) (op : Op sb) (hop : op.Uint) :
    ∃ a fs', call fs op = some (a, fs') ∧ Sound fs' ∧
      Serves fs'.Full fs.contents op a fs'.contents := by
  cases op with
  | write i src off n =>
      obtain ⟨r, fs', hrun, hsound, -, hserves⟩ := serves_writei h i src hop
      exact ⟨(r, []), fs', by rw [call, hrun]; rfl, hsound, hserves⟩
  | read i room off n =>
      obtain ⟨r, out, hrun, hserves⟩ := serves_readi h fs.Full i room hop
      exact ⟨(r, out), fs, by rw [call, hrun]; rfl, h, hserves⟩
  | trunc i =>
      obtain ⟨fs', hrun, hsound, -, -, hserves⟩ := serves_itrunc h i
      exact ⟨(0, []), fs', by rw [call, hrun]; rfl, hsound, hserves⟩
  | reload i =>
      refine ⟨(0, []), fs, ?_, h, .reload⟩
      rw [call, h.saved i, Function.update_eq_self]

/-! ## Runs -/

/-- The states that calls can lead to from a sound one. -/
def Reachable (fs : Fs sb) : Prop :=
  Run.Reach Sound (fun fs op => (call fs op).map Prod.snd) (fun _ op => Op.Uint op) fs

theorem sound_of_reach (h : Reachable fs) : Sound fs := by
  refine Run.Reach.invariant h (fun _ h => h) fun s op t _ hs hop hstep => ?_
  obtain ⟨a, fs', hcall, hsound, -⟩ := serves_call hs op hop
  rw [hcall] at hstep
  cases hstep
  exact hsound

/-! ## An empty file system -/

/-- The free map that `balloc` of `mkfs` writes when the first `n` blocks are in use. -/
def mkfsMap (n : ℕ) : Block :=
  (List.range n).foldl (fun d k => Function.update d (k / 8) (Words.set (d (k / 8)) (k % 8)))
    fun _ => 0

theorem test_mkfsMap (n b : ℕ) : Words.test (mkfsMap n (b / 8)) (b % 8) = decide (b < n) := by
  induction n with
  | zero => exact (Words.test_eq 0 (Nat.mod_lt b (by decide))).trans (BitVec.getLsbD_zero ..)
  | succ n ih =>
      have hstep : mkfsMap (n + 1) =
          Function.update (mkfsMap n) (n / 8) (Words.set (mkfsMap n (n / 8)) (n % 8)) := by
        rw [mkfsMap, List.range_succ, List.foldl_append]
        rfl
      rw [hstep]
      by_cases hbyte : b / 8 = n / 8
      · rw [hbyte, Function.update_self, Words.test_set _ (Nat.mod_lt b (by decide)), ← hbyte, ih,
          ← Bool.decide_or, decide_eq_decide]
        omega
      · rw [Function.update_of_ne hbyte, ih, decide_eq_decide]
        omega

/-- A disk with the metadata in use, no file and zeros everywhere else. -/
def blankFs (sb : Superblock) : Fs sb where
  img := Function.update (fun _ _ => 0) sb.bmapstart (mkfsMap sb.nmeta)
  ino _ := ⟨0, 0, 0, 0, 0, fun _ => 0⟩

theorem used_blankFs (hsize : sb.size ≤ BPB) {b : ℕ} (hb : b < sb.size) :
    used sb (blankFs sb).img b = decide (b < sb.nmeta) := by
  have hlt : b < BPB := Nat.lt_of_lt_of_le hb hsize
  have hblock : bblock sb b = sb.bmapstart := by
    rw [bblock, Nat.div_eq_of_lt hlt, Nat.zero_add]
  have himg : (blankFs sb).img sb.bmapstart = mkfsMap sb.nmeta := by simp [blankFs]
  rw [used, hblock, Nat.mod_eq_of_lt hlt, himg, test_mkfsMap]

theorem sound_blankFs (hsize : sb.size ≤ BPB) : Sound (blankFs sb) := by
  have howner : ∀ k, (blankFs sb).owner k = 0 := by
    rintro ⟨i, k | e⟩ <;> rfl
  refine ⟨⟨sb.nmeta_pos, ?_, ?_, ?_, ?_, ?_⟩, ?_, fun i => Nat.zero_le _, ?_⟩
  · intro b hb
    rw [used_blankFs hsize (Nat.lt_of_lt_of_le hb sb.nmeta_le)]
    exact decide_eq_true hb
  · intro k hk
    exact absurd (howner k) hk
  · intro k hk
    exact absurd (howner k) hk
  · intro k k' _ hk
    exact absurd (howner k) hk
  · intro b hlo hhi hb
    rw [used_blankFs hsize hhi, decide_eq_true_eq] at hb
    omega
  · intro i bn hbn
    exact absurd hbn (Nat.not_lt_zero _)
  · intro i
    have hblock : (blankFs sb).img (iblock sb i) = fun _ => 0 := by
      simp [blankFs, Nat.ne_of_lt (iblock_lt i.isLt)]
    simp only [dinode, hblock, Words.num_zero]
    rfl

/-- A disk of eight blocks with three inodes. -/
def smallDisk : Superblock where
  size := 8
  ninodes := 3
  inodestart := 2
  bmapstart := 3
  nmeta := 4
  boot := by decide
  inodes_fit := by decide
  bitmap_fit := by decide
  nmeta_le := by decide
  size_lt := by decide

def firstFile : Fin smallDisk.ninodes := ⟨1, by decide⟩

def secondFile : Fin smallDisk.ninodes := ⟨2, by decide⟩

def twoWrites : List (Op smallDisk) :=
  [.write firstFile [65, 66] 0 2, .write secondFile [67] 0 1]

theorem reachable_smallDisk {ops : List (Op smallDisk)} {fs : Fs smallDisk}
    (hops : ∀ op ∈ ops, op.Uint)
    (h : Run.exec (fun fs op => (call fs op).map Prod.snd) ops (blankFs smallDisk) = some fs) :
    Reachable fs :=
  Run.Reach.script _ (.start (sound_blankFs (by decide))) (fun op hop _ => hops op hop) h

/-! ## What runs do to files and blocks -/

/-- Every block behind the metadata that is in use belongs to exactly one place of one inode,
and a block that an inode names is in use and lies behind the metadata. -/
theorem blocks_accounted (h : Reachable fs) :
    (∀ b, sb.nmeta ≤ b → b < sb.size → used sb fs.img b = true →
      ∃ k : Fin sb.ninodes × Slot, fs.owner k = b ∧ ∀ k', fs.owner k' = b → k' = k) ∧
    ∀ k, fs.owner k ≠ 0 →
      sb.nmeta ≤ fs.owner k ∧ fs.owner k < sb.size ∧ used sb fs.img (fs.owner k) = true := by
  have howns := (sound_of_reach h).owns
  constructor
  · intro b hlo hhi hb
    obtain ⟨k, rfl⟩ := howns.found b hlo hhi hb
    have hpos := sb.nmeta_pos
    exact ⟨k, rfl, fun k' heq => howns.unshared k' k heq (by omega)⟩
  · intro k hk
    obtain ⟨hlo, hhi⟩ := howns.range k hk
    exact ⟨hlo, hhi, howns.marked k hk⟩

theorem blocks_accounted_two_files : ∃ fs : Fs smallDisk, used smallDisk fs.img 4 = false ∧
    used smallDisk fs.img 5 = true ∧ ∃ k, fs.owner k = 5 ∧ ∀ k', fs.owner k' = 5 → k' = k := by
  have hrun : (Run.exec (fun fs op => (call fs op).map Prod.snd) (twoWrites ++ [.trunc firstFile])
      (blankFs smallDisk)).map
      (fun fs => decide (used smallDisk fs.img 4 = false ∧ used smallDisk fs.img 5 = true)) =
        some true := by
    decide +kernel
  obtain ⟨fs, hexec, hfs⟩ := Option.map_eq_some_iff.mp hrun
  obtain ⟨hfree, hused⟩ := of_decide_eq_true hfs
  have hreach : Reachable fs := reachable_smallDisk (by simp [twoWrites, Op.Uint]) hexec
  exact ⟨fs, hfree, hused, (blocks_accounted hreach).1 5 (by decide) (by decide) hused⟩

end ShellXv6.Xv6.FileSystem
