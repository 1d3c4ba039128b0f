import Mathlib.Data.Finset.Card
import Mathlib.Data.Multiset.Count
import Mathlib.Data.Multiset.Dedup
import Mathlib.Data.Fintype.Card
import ShellXv6.Lib.Split
import ShellXv6.Xv6.Directory

/-!
# Inodes in memory and path names

The kernel keeps the inodes that somebody uses in a table, counts their users and locks them.
`iput` frees an inode on disk when its last user and its last name are gone.  `namex` follows a
path from directory to directory and holds one inode at a time, or two while it goes from one
to the next.

What a call does to the table is said by the inodes that are held, with their multiplicity, and
by those that are locked.
-/

namespace ShellXv6.Xv6.FileSystem

def NINODE : ℕ := 50
def ROOTINO : ℕ := 1

variable {sb : Superblock}

/-- The inode table: an inode is in it when `ref` is not zero. -/
structure Kernel (sb : Superblock) where
  fs : Fs sb
  ref : Fin sb.ninodes → ℕ
  valid : Fin sb.ninodes → Bool
  locked : Fin sb.ninodes → Bool

def Inode.setType (ip : Inode) (t : ℕ) : Inode := { ip with type := t }

def Inode.setNlink (ip : Inode) (n : ℕ) : Inode := { ip with nlink := n }

def Kernel.save (k : Kernel sb) (i : Fin sb.ninodes) (ip : Inode) : Kernel sb :=
  { k with fs := k.fs.save i ip }

/-- The panic is "iget: no inodes".  A number behind the inode blocks is not modelled. -/
def iget (inum : ℕ) (k : Kernel sb) : Option (Fin sb.ninodes × Kernel sb) :=
  if h : inum < sb.ninodes then
    let i : Fin sb.ninodes := ⟨inum, h⟩
    if 0 < k.ref i then some (i, { k with ref := Function.update k.ref i (k.ref i + 1) })
    else if (List.finRange sb.ninodes).countP (fun j => 0 < k.ref j) < NINODE then
      some (i, { k with
        ref := Function.update k.ref i 1, valid := Function.update k.valid i false })
    else none
  else none

def idup (i : Fin sb.ninodes) (k : Kernel sb) : Kernel sb :=
  { k with ref := Function.update k.ref i (k.ref i + 1) }

/-- The panics are "ilock" and "ilock: no type"; who waits for a lock of its own waits forever. -/
def ilock (i : Fin sb.ninodes) (k : Kernel sb) : Option (Kernel sb) :=
  if k.ref i < 1 ∨ k.locked i then none
  else
    let k := { k with locked := Function.update k.locked i true }
    if k.valid i then some k
    else
      let ip := dinode sb k.fs.img i
      if ip.type = 0 then none
      else some { k with
        fs := { k.fs with ino := Function.update k.fs.ino i ip }
        valid := Function.update k.valid i true }

def iunlock (i : Fin sb.ninodes) (k : Kernel sb) : Option (Kernel sb) :=
  if k.ref i < 1 ∨ !k.locked i then none
  else some { k with locked := Function.update k.locked i false }

/-- The end of `iput`. -/
def Kernel.drop (k : Kernel sb) (i : Fin sb.ninodes) : Kernel sb :=
  { k with ref := Function.update k.ref i (k.ref i - 1) }

def iput (i : Fin sb.ninodes) (k : Kernel sb) : Option (Kernel sb) :=
  if k.ref i = 1 ∧ k.valid i ∧ (k.fs.ino i).nlink = 0 then
    if k.locked i then none
    else do
      let fs ← itrunc i k.fs
      let k := { k with
        fs := fs.save i ((fs.ino i).setType 0), valid := Function.update k.valid i false }
      pure (k.drop i)
  else some (k.drop i)

def iunlockput (i : Fin sb.ninodes) (k : Kernel sb) : Option (Kernel sb) := do
  let k ← iunlock i k
  iput i k

/-- The inode that `ialloc` writes to disk. -/
def blankInode (type : ℕ) : Inode := ⟨type, 0, 0, 0, 0, fun _ => 0⟩

/-- The first inode whose type on disk is zero. -/
def ialloc (type : ℕ) (k : Kernel sb) : Option (Option (Fin sb.ninodes) × Kernel sb) :=
  let free (i : Fin sb.ninodes) : Bool := 1 ≤ i.val ∧ (dinode sb k.fs.img i).type = 0
  match (List.finRange sb.ninodes).find? free with
  | some i => do
      let img := iupdate sb i (blankInode type) k.fs.img
      let (i, k) ← iget i { k with fs := { k.fs with img := img } }
      pure (some i, k)
  -- prints "ialloc: no inodes"
  | none => some (none, k)

/-- The inode of an entry and the entry's offset. -/
def dirlookup (dp : Fin sb.ninodes) (name : List UInt8) (k : Kernel sb) :
    Option (Option (Fin sb.ninodes × ℕ) × Kernel sb) := do
  let (found, fs) ← findEntry dp name k.fs
  match found with
  | none => pure (none, { k with fs := fs })
  | some (inum, off) =>
    let (ip, k) ← iget inum { k with fs := fs }
    pure (some (ip, off), k)

def dirlink (dp : Fin sb.ninodes) (name : List UInt8) (inum : ℕ) (k : Kernel sb) :
    Option (ℤ × Kernel sb) := do
  let (found, k) ← dirlookup dp name k
  match found with
  | some (ip, _) =>
    let k ← iput ip k
    pure (-1, k)
  | none =>
    let (r, fs) ← addEntry dp name inum k.fs
    pure (r, { k with fs := fs })

/-! ## Paths -/

/-- The character between the elements of a path. -/
def slash : UInt8 := 47

/-- The next element, cut off after `DIRSIZ` bytes, and the rest of the path. -/
def skipelem (path : List UInt8) : Option (List UInt8 × List UInt8) :=
  let s := path.dropWhile (· = slash)
  if s = [] then none
  else some ((s.takeWhile (· ≠ slash)).take DIRSIZ,
    (s.dropWhile (· ≠ slash)).dropWhile (· = slash))

/-- The loop of `namex`; the result is an inode and the last element. -/
def namexLoop (parent : Bool) : ℕ → Fin sb.ninodes → List UInt8 → Kernel sb →
    Option (Option (Fin sb.ninodes × List UInt8) × Kernel sb)
  | 0, _, _, _ => none
  | fuel + 1, ip, path, k =>
    match skipelem path with
    | none =>
      if parent then do
        let k ← iput ip k
        pure (none, k)
      else some (some (ip, []), k)
    | some (name, path) => do
      let k ← ilock ip k
      if (k.fs.ino ip).type ≠ T_DIR then
        let k ← iunlockput ip k
        pure (none, k)
      else if parent ∧ path = [] then
        let k ← iunlock ip k
        pure (some (ip, name), k)
      else
        let (found, k) ← dirlookup ip name k
        let k ← iunlockput ip k
        match found with
        | none => pure (none, k)
        | some (next, _) => namexLoop parent fuel next path k

/-- A path is the bytes before the zero byte of a string. -/
def namex (parent : Bool) (cwd : Fin sb.ninodes) (path : List UInt8) (k : Kernel sb) :
    Option (Option (Fin sb.ninodes × List UInt8) × Kernel sb) :=
  if path.head? = some slash then do
    let (ip, k) ← iget ROOTINO k
    namexLoop parent (path.length + 1) ip path k
  else namexLoop parent (path.length + 1) cwd path (idup cwd k)

def namei (cwd : Fin sb.ninodes) (path : List UInt8) (k : Kernel sb) :
    Option (Option (Fin sb.ninodes) × Kernel sb) := do
  let (r, k) ← namex false cwd path k
  pure (r.map Prod.fst, k)

def nameiparent (cwd : Fin sb.ninodes) (path : List UInt8) (k : Kernel sb) :
    Option (Option (Fin sb.ninodes × List UInt8) × Kernel sb) :=
  namex true cwd path k

/-! ## Inodes that are held and inodes that are locked -/

/-- The inode table when the inodes in `held` are held and those in `locks` are locked.  An
inode without names is in memory as it is on disk, since `iput` looks for it there. -/
structure Table (k : Kernel sb) (fs : Fs sb) (held : Multiset (Fin sb.ninodes))
    (locks : Finset (Fin sb.ninodes)) : Prop where
  fs_eq : k.fs = fs
  ref : ∀ i, k.ref i = held.count i
  locked : ∀ i, k.locked i = decide (i ∈ locks)
  valid : ∀ i ∈ locks, k.valid i = true
  unnamed : ∀ i ∈ held, (fs.ino i).nlink = 0 → k.valid i = true

/-- There is room for `n` more inodes in the table. -/
def Room (n : ℕ) (held : Multiset (Fin sb.ninodes)) : Prop := held.toFinset.card + n ≤ NINODE

variable {k : Kernel sb} {fs : Fs sb} {held : Multiset (Fin sb.ninodes)}
  {locks : Finset (Fin sb.ninodes)} {i : Fin sb.ninodes}

theorem Room.cons {n : ℕ} (h : Room (n + 1) held) (i : Fin sb.ninodes) : Room n (i ::ₘ held) := by
  have hle := Finset.card_insert_le i held.toFinset
  rw [← Multiset.toFinset_cons] at hle
  unfold Room at h ⊢
  omega

theorem Room.mono {m n : ℕ} (h : Room n held) (hmn : m ≤ n) : Room m held :=
  Nat.le_trans (Nat.add_le_add_left hmn _) h

theorem Table.count_ref (h : Table k fs held locks) :
    (List.finRange sb.ninodes).countP (fun j => 0 < k.ref j) = held.toFinset.card := by
  have hset : held.toFinset =
      ((List.finRange sb.ninodes).filter fun j => 0 < k.ref j).toFinset := by
    ext j
    simp [h.ref, Multiset.count_pos]
  rw [hset, List.toFinset_card_of_nodup ((List.nodup_finRange _).filter _),
    List.countP_eq_length_filter]

/-- The count of `i` among what is held goes up by one. -/
theorem Table.ref_cons (h : Table k fs held locks) (i : Fin sb.ninodes) (j : Fin sb.ninodes) :
    Function.update k.ref i (k.ref i + 1) j = (i ::ₘ held).count j := by
  by_cases hji : j = i
  · subst hji
    rw [Function.update_self, h.ref, Multiset.count_cons_self]
  · rw [Function.update_of_ne hji, h.ref, Multiset.count_cons_of_ne hji]

theorem Table.idup (h : Table k fs held locks) (hi : i ∈ held) :
    Table (idup i k) fs (i ::ₘ held) locks where
  fs_eq := h.fs_eq
  ref := h.ref_cons i
  locked := h.locked
  valid := h.valid
  unnamed j hj := h.unnamed j (by
    rcases Multiset.mem_cons.mp hj with rfl | hj
    · exact hi
    · exact hj)

theorem Table.locked_insert (h : Table k fs held locks) (i j : Fin sb.ninodes) :
    Function.update k.locked i true j = decide (j ∈ insert i locks) := by
  by_cases hji : j = i
  · subst hji
    simp
  · simp [hji, h.locked]

theorem Table.dinode_eq (h : Table k fs held locks) (hsound : Sound fs) (i : Fin sb.ninodes) :
    dinode sb k.fs.img i = fs.ino i := by
  rw [h.fs_eq]
  exact hsound.saved i

/-! ## Inodes that nobody uses -/

/-- The kernel with a new entry in the table. -/
def Kernel.enter (k : Kernel sb) (i : Fin sb.ninodes) : Kernel sb :=
  { k with ref := Function.update k.ref i 1, valid := Function.update k.valid i false }

/-- The kernel with a new entry that is locked and has been read. -/
def Kernel.fetch (k : Kernel sb) (i : Fin sb.ninodes) (fs : Fs sb) : Kernel sb :=
  { k.enter i with
    fs := fs
    valid := Function.update (k.enter i).valid i true
    locked := Function.update k.locked i true }

theorem Table.iget_new (h : Table k fs held locks) (hroom : Room 1 held) (hi : i ∉ held)
    (fs' : Fs sb) :
    iget i { k with fs := fs' } = some (i, Kernel.enter { k with fs := fs' } i) := by
  have hnone : ¬0 < k.ref i := by
    rw [h.ref, Multiset.count_pos]
    exact hi
  have hlt : (List.finRange sb.ninodes).countP (fun j => 0 < k.ref j) < NINODE := by
    rw [h.count_ref]
    exact hroom
  rw [iget, dif_pos i.isLt]
  exact (if_neg hnone).trans (if_pos hlt)

theorem ilock_enter (hunlocked : k.locked i = false) (htype : (dinode sb k.fs.img i).type ≠ 0) :
    ilock i (k.enter i) = some (k.fetch i
      { k.fs with ino := Function.update k.fs.ino i (dinode sb k.fs.img i) }) := by
  have hgo : ¬((k.enter i).ref i < 1 ∨ (k.enter i).locked i = true) := by
    simp [Kernel.enter, hunlocked]
  have hvalid : ¬(k.enter i).valid i = true := by simp [Kernel.enter]
  rw [ilock, if_neg hgo]
  exact (if_neg hvalid).trans (if_neg htype)

theorem Table.fetch (h : Table k fs held locks) (hi : i ∉ held) {fs' : Fs sb}
    (hother : ∀ j, j ≠ i → (fs'.ino j).nlink = (fs.ino j).nlink) :
    Table (k.fetch i fs') fs' (i ::ₘ held) (insert i locks) := by
  have hzero : k.ref i = 0 := by rwa [h.ref, Multiset.count_eq_zero]
  have hself : (k.fetch i fs').valid i = true := Function.update_self ..
  have hvalid : ∀ j, j ≠ i → (k.fetch i fs').valid j = k.valid j := fun j hji =>
    (Function.update_of_ne hji _ _).trans (Function.update_of_ne hji _ _)
  refine ⟨rfl, fun j => ?_, h.locked_insert i, fun j hj => ?_, fun j hj hz => ?_⟩
  · rw [← h.ref_cons i j, hzero]
    rfl
  · by_cases hji : j = i
    · exact hji ▸ hself
    · exact (hvalid j hji).trans (h.valid j (Finset.mem_of_mem_insert_of_ne hj hji))
  · by_cases hji : j = i
    · exact hji ▸ hself
    · rw [hother j hji] at hz
      exact (hvalid j hji).trans (h.unnamed j ((Multiset.mem_cons.mp hj).resolve_left hji) hz)

theorem Table.iget (h : Table k fs held locks) (hroom : Room 1 held)
    (hnamed : i ∉ held → (fs.ino i).nlink ≠ 0) (hlocks : ∀ j ∈ locks, j ∈ held) :
    ∃ k', iget i k = some (i, k') ∧ Table k' fs (i ::ₘ held) locks := by
  by_cases hi : i ∈ held
  · have hpos : 0 < k.ref i := by rwa [h.ref, Multiset.count_pos]
    refine ⟨_, ?_, h.idup hi⟩
    rw [FileSystem.iget, dif_pos i.isLt]
    exact if_pos hpos
  · have hzero : k.ref i = 0 := by rwa [h.ref, Multiset.count_eq_zero]
    refine ⟨_, h.iget_new hroom hi k.fs, h.fs_eq, ?_, h.locked, ?_, ?_⟩
    · intro j
      rw [← h.ref_cons i j, hzero]
      rfl
    · intro j hj
      have hji : j ≠ i := fun heq => hi (heq ▸ hlocks j hj)
      exact (Function.update_of_ne hji _ _).trans (h.valid j hj)
    · intro j hj hz
      rcases Multiset.mem_cons.mp hj with rfl | hj
      · exact absurd hz (hnamed hi)
      · have hji : j ≠ i := fun heq => hi (heq ▸ hj)
        exact (Function.update_of_ne hji _ _).trans (h.unnamed j hj hz)

theorem Table.ilock (h : Table k fs held locks) (hsound : Sound fs) (hi : i ∈ held)
    (hfree : i ∉ locks) (htype : (fs.ino i).type ≠ 0) :
    ∃ k', ilock i k = some k' ∧ Table k' fs held (insert i locks) := by
  have hpos : 0 < k.ref i := by rwa [h.ref, Multiset.count_pos]
  have hunlocked : k.locked i = false := by rw [h.locked, decide_eq_false hfree]
  have hlocked := h.locked_insert i
  have hgo : ¬(k.ref i < 1 ∨ k.locked i = true) := by
    simp only [hunlocked, Bool.false_eq_true, or_false]
    omega
  rw [FileSystem.ilock, if_neg hgo]
  dsimp only
  by_cases hvalid : k.valid i = true
  · refine ⟨_, if_pos hvalid, h.fs_eq, h.ref, hlocked, ?_, h.unnamed⟩
    intro j hj
    rcases Finset.mem_insert.mp hj with rfl | hj
    · exact hvalid
    · exact h.valid j hj
  · have hdisk := h.dinode_eq hsound i
    have hmem : ∀ j, k.valid j = true → Function.update k.valid i true j = true := by
      intro j hj
      by_cases hji : j = i
      · subst hji
        exact Function.update_self ..
      · rwa [Function.update_of_ne hji]
    rw [if_neg hvalid, hdisk, if_neg htype]
    refine ⟨_, rfl, ?_, h.ref, hlocked, ?_, fun j hj hz => hmem j (h.unnamed j hj hz)⟩
    · simp [h.fs_eq]
    · intro j hj
      rcases Finset.mem_insert.mp hj with rfl | hj
      · exact Function.update_self ..
      · exact hmem j (h.valid j hj)

theorem Table.iunlock (h : Table k fs held locks) (hi : i ∈ held) (hlock : i ∈ locks) :
    ∃ k', iunlock i k = some k' ∧ Table k' fs held (locks.erase i) := by
  have hpos : 0 < k.ref i := by rwa [h.ref, Multiset.count_pos]
  have hgo : ¬(k.ref i < 1 ∨ (!k.locked i) = true) := by
    rw [h.locked, decide_eq_true hlock]
    simp only [Bool.not_true, Bool.false_eq_true, or_false]
    omega
  refine ⟨_, if_neg hgo, h.fs_eq, h.ref, fun j => ?_, fun j hj => ?_, h.unnamed⟩
  · by_cases hji : j = i
    · subst hji
      simp
    · simp [hji, h.locked]
  · exact h.valid j (Finset.mem_of_mem_erase hj)

theorem Table.drop (h : Table k fs (i ::ₘ held) locks) : Table (k.drop i) fs held locks where
  fs_eq := h.fs_eq
  ref j := by
    by_cases hji : j = i
    · subst hji
      have hself : (k.drop j).ref j = k.ref j - 1 := Function.update_self ..
      rw [hself, h.ref, Multiset.count_cons_self, Nat.add_sub_cancel]
    · have hother : (k.drop i).ref j = k.ref j := Function.update_of_ne hji _ _
      rw [hother, h.ref, Multiset.count_cons_of_ne hji]
  locked := h.locked
  valid := h.valid
  unnamed j hj := h.unnamed j (Multiset.mem_cons_of_mem hj)

/-- An inode that has a name or another user stays. -/
theorem Table.iput (h : Table k fs (i ::ₘ held) locks)
    (hstay : i ∈ held ∨ (fs.ino i).nlink ≠ 0) :
    ∃ k', iput i k = some k' ∧ Table k' fs held locks := by
  have hkeep : ¬(k.ref i = 1 ∧ k.valid i = true ∧ (k.fs.ino i).nlink = 0) := by
    rintro ⟨hone, -, hz⟩
    rcases hstay with hi | hne
    · have := Multiset.count_pos.mpr hi
      rw [h.ref, Multiset.count_cons_self] at hone
      omega
    · rw [h.fs_eq] at hz
      exact hne hz
  exact ⟨_, if_neg hkeep, h.drop⟩

theorem Table.iunlockput (h : Table k fs (i ::ₘ held) locks) (hlock : i ∈ locks)
    (hstay : i ∈ held ∨ (fs.ino i).nlink ≠ 0) :
    ∃ k', iunlockput i k = some k' ∧ Table k' fs held (locks.erase i) := by
  obtain ⟨k₁, hrun₁, h₁⟩ := h.iunlock (Multiset.mem_cons_self i held) hlock
  obtain ⟨k₂, hrun₂, h₂⟩ := h₁.iput hstay
  refine ⟨k₂, ?_, h₂⟩
  rw [FileSystem.iunlockput, hrun₁]
  exact hrun₂

/-! ## Looking up a name -/

/-- An inode that is in use and has a name. -/
def Fs.Linked (fs : Fs sb) (i : Fin sb.ninodes) : Prop :=
  (fs.ino i).type ≠ 0 ∧ (fs.ino i).nlink ≠ 0

/-- A directory whose entries lead to inodes that are in use. -/
structure ClosedAt (fs : Fs sb) (d : Fin sb.ninodes) : Prop where
  aligned : Aligned (fs.contents d)
  entry : ∀ e ∈ fs.dir d, e.inum ≠ 0 → ∃ i : Fin sb.ninodes, (i : ℕ) = e.inum ∧ fs.Linked i

structure Closed (fs : Fs sb) : Prop where
  sound : Sound fs
  closed : ∀ d, (fs.ino d).type = T_DIR → (fs.ino d).nlink ≠ 0 → ClosedAt fs d

/-- The results of `dirlookup`. -/
inductive Looked (fs : Fs sb) (d : Fin sb.ninodes) (name : List UInt8) :
    Option (Fin sb.ninodes × ℕ) → Prop
  | absent (h : ∀ e ∈ fs.dir d, ¬e.Named name) : Looked fs d name none
  | found (e : Dirent) (n : ℕ) (i : Fin sb.ninodes) (hget : (fs.dir d)[n]? = some e)
      (hname : e.Named name) (hinum : (i : ℕ) = e.inum) (hlinked : fs.Linked i) :
      Looked fs d name (some (i, 16 * n))

/-- What is held when a call has returned an inode. -/
def hold (r : Option (Fin sb.ninodes)) (held : Multiset (Fin sb.ninodes)) :
    Multiset (Fin sb.ninodes) :=
  r.elim held (· ::ₘ held)

/-- One step along a path. -/
def Fs.step (fs : Fs sb) (d : Fin sb.ninodes) (name : List UInt8) : Option (Fin sb.ninodes) :=
  if (fs.ino d).type = T_DIR then
    (search (isName name) (fs.dir d) 0).bind fun x =>
      if h : x.1.inum < sb.ninodes then some ⟨x.1.inum, h⟩ else none
  else none

theorem Table.dirlookup {d : Fin sb.ninodes} (h : Table k fs held locks) (hsound : Sound fs)
    (hdir : (fs.ino d).type = T_DIR) (hclosed : ClosedAt fs d) (hroom : Room 1 held)
    (hlocks : ∀ j ∈ locks, j ∈ held) (name : List UInt8) :
    ∃ found k', dirlookup d name k = some (found, k') ∧ Looked fs d name found ∧
      found.map Prod.fst = fs.step d name ∧ Table k' fs (hold (found.map Prod.fst) held) locks := by
  have hfind := findEntry_eq hsound ⟨hdir, hclosed.aligned⟩ name
  have hsame : { k with fs := fs } = k := by rw [← h.fs_eq]
  rw [FileSystem.dirlookup, h.fs_eq, hfind, Fs.step, if_pos hdir]
  cases hs : search (isName name) (fs.dir d) 0 with
  | none =>
      refine ⟨none, k, congrArg (fun k => some (none, k)) hsame,
        .absent fun e he hname => ?_, rfl, h⟩
      exact Bool.eq_false_iff.mp (search_eq_none.mp hs e he) (isName_iff.mpr hname)
  | some x =>
      obtain ⟨e, n⟩ := x
      obtain ⟨-, hget, hp⟩ := search_eq_some hs
      rw [Nat.sub_zero] at hget
      have hname := isName_iff.mp hp
      obtain ⟨i, hi, hlinked⟩ := hclosed.entry e (List.mem_of_getElem? hget) hname.1
      obtain ⟨k', hrun, h'⟩ := h.iget hroom (fun _ => hlinked.2) hlocks
      rw [hi] at hrun
      have hlt : e.inum < sb.ninodes := hi ▸ i.isLt
      refine ⟨some (i, 16 * n), k', ?_, .found e n i hget hname hi hlinked, ?_, h'⟩
      · simp only [Option.map_some, Option.bind_eq_bind, Option.bind_some, hsame, hrun]
        rfl
      · rw [Option.bind_some, dif_pos hlt]
        exact congrArg some (Fin.ext hi)

/-- The outcomes of `dirlink`. -/
inductive Dirlinked (d : Fin sb.ninodes) (name : List UInt8) (inum : ℕ) (fs : Fs sb) :
    ℤ → Fs sb → Prop
  | present (e : Dirent) (he : e ∈ fs.dir d) (hname : e.Named name) :
      Dirlinked d name inum fs (-1) fs
  | failed (fs' : Fs sb) (h : Unchanged d fs fs') : Dirlinked d name inum fs (-1) fs'
  | added (fs' : Fs sb) (n : ℕ) (hn : n ≤ (fs.dir d).length)
      (hfree : ∀ e, (fs.dir d)[n]? = some e → e.inum = 0)
      (hnew : ∀ e ∈ fs.dir d, ¬e.Named name)
      (h : Edited d n ⟨inum % 65536, CString.strncpy DIRSIZ name⟩ fs fs') :
      Dirlinked d name inum fs 0 fs'

theorem Touches.nlink {fs' : Fs sb} (h : Touches i fs fs') (j : Fin sb.ninodes) :
    (fs'.ino j).nlink = (fs.ino j).nlink := by
  by_cases hji : j = i
  · subst hji
    rw [h.self]
  · rw [h.other j hji]

theorem Touches.type {fs' : Fs sb} (h : Touches i fs fs') (j : Fin sb.ninodes) :
    (fs'.ino j).type = (fs.ino j).type := by
  by_cases hji : j = i
  · subst hji
    rw [h.self]
  · rw [h.other j hji]

/-- An operation on the contents of files does not change the table. -/
theorem Table.withFs {fs' : Fs sb} (h : Table k fs held locks)
    (hnlink : ∀ j, (fs'.ino j).nlink = (fs.ino j).nlink) :
    Table { k with fs := fs' } fs' held locks where
  fs_eq := rfl
  ref := h.ref
  locked := h.locked
  valid := h.valid
  unnamed j hj hz := h.unnamed j hj ((hnlink j).symm.trans hz)

theorem Table.dirlink {d : Fin sb.ninodes} (h : Table k fs held locks) (hsound : Sound fs)
    (hdir : (fs.ino d).type = T_DIR) (hclosed : ClosedAt fs d) (hroom : Room 1 held)
    (hlocks : ∀ j ∈ locks, j ∈ held) (name : List UInt8) (inum : ℕ) :
    ∃ r k' fs', dirlink d name inum k = some (r, k') ∧ Table k' fs' held locks ∧
      Dirlinked d name inum fs r fs' := by
  obtain ⟨found, k₁, hrun₁, hlooked, -, h₁⟩ := h.dirlookup hsound hdir hclosed hroom hlocks name
  rw [FileSystem.dirlink, hrun₁]
  cases hlooked with
  | found e n i hget hname hinum hlinked =>
      obtain ⟨k₂, hrun₂, h₂⟩ := h₁.iput (.inr hlinked.2)
      refine ⟨-1, k₂, fs, ?_, h₂, .present e (List.mem_of_getElem? hget) hname⟩
      simp [hrun₂]
  | absent hnew =>
      obtain ⟨⟨r, fs'⟩, hrun₂, hadded⟩ := exists_addEntry hsound hclosed.aligned name inum
      have hresult : Table { k₁ with fs := fs' } fs' held locks := by
        apply h₁.withFs
        intro j
        cases hadded with
        | failed _ hsame => exact hsame.touches.nlink j
        | added _ _ _ _ hedited => exact hedited.touches.nlink j
      refine ⟨r, _, fs', ?_, hresult, ?_⟩
      · simp only [Option.bind_eq_bind, Option.bind_some, h₁.fs_eq, hrun₂]
        rfl
      · cases hadded with
        | failed _ hsame => exact .failed fs' hsame
        | added _ n hn hfree hedited => exact .added fs' n hn hfree hnew hedited

/-! ## Following a path -/

/-- The elements of a path. -/
def components (path : List UInt8) : List (List UInt8) :=
  ((path.splitOnP (· = slash)).filter (· ≠ [])).map (List.take DIRSIZ)

theorem components_slash (path : List UInt8) : components (slash :: path) = components path := by
  rw [components, components, List.splitOnP_cons_eq_if_modifyHead, if_pos (decide_eq_true rfl)]
  rfl

theorem components_dropWhile (path : List UInt8) :
    components (path.dropWhile (· = slash)) = components path := by
  induction path with
  | nil => rfl
  | cons c path ih =>
      by_cases hc : c = slash
      · rw [hc, components_slash, List.dropWhile_cons_of_pos (by simp), ih]
      · rw [List.dropWhile_cons_of_neg (by simpa using hc)]

/-- A path that does not start with a slash starts with an element. -/
theorem components_append {name rest : List UInt8} (hname : name ≠ [])
    (hslash : ∀ c ∈ name, c ≠ slash) (hrest : ∀ c ∈ rest.head?, c = slash) :
    components (name ++ rest) = name.take DIRSIZ :: components rest := by
  have hno : ∀ c ∈ name, decide (c = slash) = false := fun c hc => decide_eq_false (hslash c hc)
  rw [components, Split.splitOnP_append_of_forall hno]
  cases rest with
  | nil => simp [components, hname]
  | cons c rest =>
      obtain rfl : c = slash := hrest c rfl
      rw [components_slash, components, List.splitOnP_cons_eq_if_modifyHead,
        if_pos (decide_eq_true rfl)]
      simp [hname]

theorem head?_dropWhile_slash (path : List UInt8) :
    (path.dropWhile (· = slash)).head? ≠ some slash := by
  intro heq
  have := List.head?_dropWhile_not (fun c => decide (c = slash)) path
  rw [heq] at this
  simp at this

/-- The first element of a path that does not start with a slash. -/
theorem components_cut {s : List UInt8} (hs : s ≠ []) (hhead : s.head? ≠ some slash) :
    s.takeWhile (· ≠ slash) ≠ [] ∧
      components s = (s.takeWhile (· ≠ slash)).take DIRSIZ ::
        components (s.dropWhile (· ≠ slash)) := by
  have hname : s.takeWhile (fun c => decide (c ≠ slash)) ≠ [] := by
    cases s with
    | nil => exact absurd rfl hs
    | cons c s =>
        have hc : c ≠ slash := fun hc => hhead (congrArg some hc)
        simp [hc]
  refine ⟨hname, ?_⟩
  rw [← components_append hname]
  · rw [List.takeWhile_append_dropWhile]
  · intro c hc
    simpa using List.mem_takeWhile_imp hc
  · intro c hc
    have := List.head?_dropWhile_not (fun c => decide (c ≠ slash)) s
    rw [Option.mem_def.mp hc] at this
    simpa using this

/-- What `skipelem` returns. -/
inductive Skips (path : List UInt8) : Option (List UInt8 × List UInt8) → Prop
  | done (h : components path = []) : Skips path none
  | next (name rest : List UInt8) (h : components path = name :: components rest)
      (hlt : rest.length < path.length) (hlast : rest = [] ↔ components rest = []) :
      Skips path (some (name, rest))

theorem skips_skipelem (path : List UInt8) : Skips path (skipelem path) := by
  have hcomp := components_dropWhile path
  have hlen := (List.dropWhile_sublist (l := path) (fun c => decide (c = slash))).length_le
  have hhead := head?_dropWhile_slash path
  unfold skipelem
  generalize path.dropWhile (fun c => decide (c = slash)) = s at hcomp hlen hhead ⊢
  dsimp only
  by_cases hnil : s = []
  · rw [if_pos hnil]
    refine .done ?_
    rw [← hcomp, hnil]
    rfl
  · obtain ⟨hname, hcut⟩ := components_cut hnil hhead
    have hparts := congrArg List.length
      (List.takeWhile_append_dropWhile (p := fun c => decide (c ≠ slash)) (l := s))
    rw [List.length_append] at hparts
    have hpos := List.length_pos_iff.mpr hname
    generalize s.dropWhile (fun c => decide (c ≠ slash)) = rest at hcut hparts ⊢
    have hle := (List.dropWhile_sublist (l := rest) (fun c => decide (c = slash))).length_le
    rw [if_neg hnil]
    refine .next _ _ ?_ (by omega) ⟨fun hrest => by rw [hrest]; rfl, fun hnone => ?_⟩
    · rw [components_dropWhile, ← hcomp, hcut]
    · by_contra hrest
      obtain ⟨-, hmore⟩ := components_cut hrest (head?_dropWhile_slash rest)
      rw [hmore] at hnone
      cases hnone

/-- Where a path leads.  With `parent` the last element is not followed but returned. -/
def Fs.resolve (fs : Fs sb) (parent : Bool) :
    Fin sb.ninodes → List (List UInt8) → Option (Fin sb.ninodes × List UInt8)
  | d, [] => if parent then none else some (d, [])
  | d, c :: cs =>
    if parent ∧ cs = [] then if (fs.ino d).type = T_DIR then some (d, c) else none
    else (fs.step d c).bind fun e => fs.resolve parent e cs

theorem Table.namexLoop (hclosed : Closed fs) (hroom : Room 2 held) (parent : Bool) :
    ∀ (fuel : ℕ) (ip : Fin sb.ninodes) (path : List UInt8) (k : Kernel sb), path.length < fuel →
      fs.Linked ip → Table k fs (ip ::ₘ held) ∅ →
      ∃ k', namexLoop parent fuel ip path k =
          some (fs.resolve parent ip (components path), k') ∧
        Table k' fs (hold ((fs.resolve parent ip (components path)).map Prod.fst) held) ∅ ∧
        ∀ r ∈ fs.resolve parent ip (components path),
          fs.Linked r.1 ∧ (parent = true → (fs.ino r.1).type = T_DIR) := by
  intro fuel
  induction fuel with
  | zero => intro ip path k hfuel; omega
  | succ fuel ih =>
      intro ip path k hfuel hip h
      have hempty : (insert ip (∅ : Finset (Fin sb.ninodes))).erase ip = ∅ := by simp
      rw [FileSystem.namexLoop]
      have hskip := skips_skipelem path
      generalize skipelem path = s at hskip
      cases hskip with
      | done hdone =>
          rw [hdone, Fs.resolve]
          cases parent with
          | true =>
              obtain ⟨k', hrun, h'⟩ := h.iput (.inr hip.2)
              refine ⟨k', ?_, h', fun r hr => by cases hr⟩
              simp [hrun]
          | false =>
              refine ⟨k, rfl, h, fun r hr => ?_⟩
              obtain rfl : (ip, []) = r := Option.some.inj hr
              exact ⟨hip, fun hp => by cases hp⟩
      | next name rest hnext hlt hlast =>
          obtain ⟨k₁, hrun₁, h₁⟩ := h.ilock hclosed.sound (Multiset.mem_cons_self ip held)
            (Finset.notMem_empty ip) hip.1
          have hin : ip ∈ insert ip (∅ : Finset (Fin sb.ninodes)) := Finset.mem_insert_self ip ∅
          rw [hnext, Fs.resolve]
          simp only [hrun₁, Option.bind_eq_bind, Option.bind_some, h₁.fs_eq]
          by_cases htype : (fs.ino ip).type = T_DIR
          · rw [if_neg (fun hne => hne htype)]
            by_cases hstop : parent = true ∧ rest = []
            · obtain ⟨k₂, hrun₂, h₂⟩ := h₁.iunlock (Multiset.mem_cons_self ip held) hin
              rw [hempty] at h₂
              rw [if_pos hstop, if_pos ⟨hstop.1, hlast.mp hstop.2⟩, if_pos htype]
              refine ⟨k₂, by rw [hrun₂]; rfl, h₂, fun r hr => ?_⟩
              obtain rfl : (ip, name) = r := Option.some.inj hr
              exact ⟨hip, fun _ => htype⟩
            · have hstop' : ¬(parent = true ∧ components rest = []) := by rwa [← hlast]
              obtain ⟨found, k₂, hrun₂, hlooked, hstep, h₂⟩ :=
                h₁.dirlookup hclosed.sound htype (hclosed.closed ip htype hip.2) (hroom.cons ip)
                  (by simp) name
              rw [if_neg hstop, if_neg hstop', hrun₂, Option.bind_some, ← hstep]
              cases hlooked with
              | absent =>
                  obtain ⟨k₃, hrun₃, h₃⟩ := h₂.iunlockput hin (.inr hip.2)
                  rw [hempty] at h₃
                  refine ⟨k₃, ?_, h₃, fun r hr => by cases hr⟩
                  simp [hrun₃]
              | found e n next hget hname hinum hlinked =>
                  rw [Option.map_some, hold, Option.elim_some, Multiset.cons_swap] at h₂
                  obtain ⟨k₃, hrun₃, h₃⟩ := h₂.iunlockput hin (.inr hip.2)
                  rw [hempty] at h₃
                  simp only [hrun₃, Option.bind_some, Option.map_some]
                  exact ih next rest k₃ (by omega) hlinked h₃
          · obtain ⟨k₂, hrun₂, h₂⟩ := h₁.iunlockput hin (.inr hip.2)
            rw [hempty] at h₂
            have hnone : (if parent = true ∧ components rest = [] then
                if (fs.ino ip).type = T_DIR then some (ip, name) else none
                else (fs.step ip name).bind fun e => fs.resolve parent e (components rest)) =
                  none := by
              simp [htype, Fs.step]
            rw [if_pos htype, hrun₂, hnone]
            exact ⟨k₂, rfl, h₂, fun r hr => by cases hr⟩

theorem Table.namex {root cwd : Fin sb.ninodes} (h : Table k fs held ∅) (hclosed : Closed fs)
    (hroom : Room 2 held) (hroot : (root : ℕ) = ROOTINO) (htop : fs.Linked root)
    (hcwd : cwd ∈ held) (path : List UInt8)
    (hlink : path.head? = some slash ∨ fs.Linked cwd) (parent : Bool) :
    let start := if path.head? = some slash then root else cwd
    let r := fs.resolve parent start (components path)
    ∃ k', namex parent cwd path k = some (r, k') ∧ Table k' fs (hold (r.map Prod.fst) held) ∅ ∧
      ∀ x ∈ r, fs.Linked x.1 ∧ (parent = true → (fs.ino x.1).type = T_DIR) := by
  dsimp only
  rw [FileSystem.namex]
  by_cases habs : path.head? = some slash
  · obtain ⟨k₁, hrun, h₁⟩ := h.iget (hroom.mono (by omega)) (fun _ => htop.2) (by simp)
    rw [hroot] at hrun
    rw [if_pos habs, if_pos habs, hrun]
    exact namexLoop hclosed hroom parent _ root path k₁ (Nat.lt_succ_self _) htop h₁
  · rw [if_neg habs, if_neg habs]
    exact namexLoop hclosed hroom parent _ cwd path _ (Nat.lt_succ_self _)
      (hlink.resolve_left habs) (h.idup hcwd)

/-! ## Changing and freeing inodes -/

/-- Two inodes with the same contents. -/
structure Inode.SameData (ip ip' : Inode) : Prop where
  size : ip.size = ip'.size
  addrs : ip.addrs = ip'.addrs

theorem Inode.sameData_setType (ip : Inode) (t : ℕ) : (ip.setType t).SameData ip := ⟨rfl, rfl⟩

theorem Inode.sameData_setNlink (ip : Inode) (n : ℕ) : (ip.setNlink n).SameData ip := ⟨rfl, rfl⟩

theorem size_save {ip : Inode} (hdata : ip.SameData (fs.ino i)) (j : Fin sb.ninodes) :
    ((fs.save i ip).ino j).size = (fs.ino j).size := by
  by_cases hji : j = i
  · subst hji
    rw [ino_save_self, hdata.size]
  · rw [ino_save_of_ne hji]

theorem Sound.save (h : Sound fs) {ip : Inode} (hdata : ip.SameData (fs.ino i))
    (hshort : ip.Short) : Sound (fs.save i ip) := by
  refine ⟨h.owns.save hdata.addrs, ?_, ?_, dinode_save ?_ fun j _ => h.saved j⟩
  · intro j bn hbn
    rw [size_save hdata] at hbn
    rw [blockAddr_save h.owns hdata.addrs]
    exact h.whole j bn hbn
  · intro j
    rw [size_save hdata]
    exact h.bound j
  · have hmax : MAXFILE * BSIZE < 4294967296 := by decide
    refine .of_lt hshort.type hshort.major hshort.minor hshort.nlink ?_ ?_
    · rw [hdata.size]
      exact Nat.lt_of_le_of_lt (h.bound i) hmax
    · rw [hdata.addrs]
      exact h.owns.addr_lt i

theorem contents_save (h : Sound fs) {ip : Inode} (hdata : ip.SameData (fs.ino i)) :
    (fs.save i ip).contents = fs.contents := by
  funext j
  unfold Fs.contents
  rw [size_save hdata]
  apply List.map_congr_left
  intro p hp
  have hb := h.whole j (p / BSIZE) (by
    have := Nat.div_mul_le_self p BSIZE
    have := List.mem_range.mp hp
    omega)
  exact byte_save h.owns hdata.addrs hb

theorem Table.save {ip : Inode} (h : Table k fs held locks) (hi : i ∈ locks) :
    Table (k.save i ip) (fs.save i ip) held locks where
  fs_eq := by rw [Kernel.save, h.fs_eq]
  ref := h.ref
  locked := h.locked
  valid := h.valid
  unnamed j hj hz := by
    by_cases hji : j = i
    · subst hji
      exact h.valid j hi
    · rw [ino_save_of_ne hji] at hz
      exact h.unnamed j hj hz

/-- An inode and its blocks were given back. -/
structure Freed (i : Fin sb.ninodes) (fs fs' : Fs sb) : Prop where
  sound : Sound fs'
  other : ∀ j, j ≠ i → fs'.ino j = fs.ino j
  contents : ∀ j, j ≠ i → fs'.contents j = fs.contents j
  type : (fs'.ino i).type = 0
  nlink : (fs'.ino i).nlink = (fs.ino i).nlink
  size : (fs'.ino i).size = 0
  addrs : ∀ k, (fs'.ino i).addrs k = 0

theorem exists_free (h : Sound fs) (i : Fin sb.ninodes) : ∃ fs', itrunc i fs = some fs' ∧
    Freed i fs (fs'.save i ((fs'.ino i).setType 0)) := by
  obtain ⟨fs', hrun, hsound, htouches, haddrs, hserves⟩ := serves_itrunc h i
  generalize hc : fs'.contents = files at hserves
  cases hserves
  have hsize : (fs'.ino i).size = 0 := by
    rw [← length_contents, hc, Function.update_self]
    rfl
  obtain ⟨-, hmajor, hminor, hnlink⟩ := hsound.short i
  have hdata := (fs'.ino i).sameData_setType 0
  have hshort : ((fs'.ino i).setType 0).Short := ⟨Nat.zero_lt_succ _, hmajor, hminor, hnlink⟩
  refine ⟨fs', hrun, hsound.save hdata hshort, ?_, ?_, ?_, ?_, ?_, ?_⟩
  · intro j hj
    rw [ino_save_of_ne hj, htouches.other j hj]
  · intro j hj
    rw [contents_save hsound hdata, hc, Function.update_of_ne hj]
  · rw [ino_save_self]
    rfl
  · rw [ino_save_self, Inode.setType, htouches.self]
  · rw [ino_save_self]
    exact hsize
  · rw [ino_save_self]
    exact haddrs

/-- The last user of an inode without names frees it. -/
theorem Table.iput_free (h : Table k fs (i ::ₘ held) locks) (hsound : Sound fs) (hi : i ∉ held)
    (hfree : i ∉ locks) (hz : (fs.ino i).nlink = 0) :
    ∃ k' fs', FileSystem.iput i k = some k' ∧ Table k' fs' held locks ∧ Freed i fs fs' := by
  obtain ⟨fs', hrun, hfreed⟩ := exists_free hsound i
  have hlast : k.ref i = 1 ∧ k.valid i = true ∧ (k.fs.ino i).nlink = 0 := by
    refine ⟨?_, h.unnamed i (Multiset.mem_cons_self i held) hz, h.fs_eq ▸ hz⟩
    rw [h.ref, Multiset.count_cons_self, Multiset.count_eq_zero.mpr hi]
  have hunlocked : k.locked i ≠ true := by
    rw [h.locked, decide_eq_false hfree]
    exact Bool.false_ne_true
  let k₁ : Kernel sb := { k with
    fs := fs'.save i ((fs'.ino i).setType 0), valid := Function.update k.valid i false }
  refine ⟨k₁.drop i, _, ?_, ?_, hfreed⟩
  · rw [FileSystem.iput, if_pos hlast, if_neg hunlocked, h.fs_eq, hrun]
    rfl
  · refine ⟨rfl, h.drop.ref, h.locked, fun j hj => ?_, fun j hj hj0 => ?_⟩
    · have hji : j ≠ i := fun heq => hfree (heq ▸ hj)
      exact (Function.update_of_ne hji _ _).trans (h.valid j hj)
    · have hji : j ≠ i := fun heq => hi (heq ▸ hj)
      rw [hfreed.other j hji] at hj0
      exact (Function.update_of_ne hji _ _).trans
        (h.unnamed j (Multiset.mem_cons_of_mem hj) hj0)

/-- What `ialloc` returns, and the state when its caller has locked the new inode. -/
inductive Fresh (type : ℕ) (k : Kernel sb) (fs : Fs sb) (held : Multiset (Fin sb.ninodes))
    (locks : Finset (Fin sb.ninodes)) : Prop
  | full (hrun : ialloc type k = some (none, k))
  | found (i : Fin sb.ninodes) (k₁ k₂ : Kernel sb) (hrun : ialloc type k = some (some i, k₁))
      (hlock : FileSystem.ilock i k₁ = some k₂) (hpos : (i : ℕ) ≠ 0) (hfree : (fs.ino i).type = 0)
      (h : Table k₂ (fs.save i (blankInode type)) (i ::ₘ held) (insert i locks))

theorem Table.ialloc {type : ℕ} (h : Table k fs held locks) (hsound : Sound fs)
    (hroom : Room 1 held) (hheld : ∀ j ∈ held, (fs.ino j).type ≠ 0)
    (hlocks : ∀ j ∈ locks, j ∈ held) (htype : type ≠ 0) (hshort : type < 65536) :
    Fresh type k fs held locks := by
  cases hfind : (List.finRange sb.ninodes).find? fun i : Fin sb.ninodes =>
      decide (1 ≤ i.val ∧ (dinode sb k.fs.img i).type = 0) with
  | none =>
      refine .full ?_
      rw [FileSystem.ialloc]
      dsimp only
      rw [hfind]
  | some i =>
      have hfound := List.find?_some hfind
      obtain ⟨hpos, hdisk⟩ := of_decide_eq_true hfound
      have hfree : (fs.ino i).type = 0 := by rw [← hsound.saved i, ← h.fs_eq, hdisk]
      have hi : i ∉ held := fun hi => hheld i hi hfree
      have hunlocked : k.locked i = false := by
        rw [h.locked, decide_eq_false fun hil => hi (hlocks i hil)]
      have hzeros : (0 : ℕ) < 65536 ∧ (0 : ℕ) < 4294967296 := by decide
      have hfits : (blankInode type).Fits := .of_lt hshort hzeros.1 hzeros.1 hzeros.1 hzeros.2
        fun _ => hzeros.2
      have hread : dinode sb (iupdate sb i (blankInode type) fs.img) i = blankInode type :=
        dinode_iupdate hfits
      let k₁ : Kernel sb := { k with
        fs := { fs with img := iupdate sb i (blankInode type) fs.img } }
      refine .found i (k₁.enter i) (k.fetch i (fs.save i (blankInode type))) ?_ ?_ (by omega) hfree
        (h.fetch hi fun j hji => by rw [ino_save_of_ne hji])
      · rw [FileSystem.ialloc]
        dsimp only
        rw [hfind, h.fs_eq]
        simp only [h.iget_new hroom hi]
        rfl
      · have hdinode : dinode sb k₁.fs.img i = blankInode type := hread
        have hrun : FileSystem.ilock i (k₁.enter i) = _ :=
          ilock_enter hunlocked (by rw [hdinode]; exact htype)
        rw [hrun, hdinode]
        rfl

end ShellXv6.Xv6.FileSystem
