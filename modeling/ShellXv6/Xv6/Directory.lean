import ShellXv6.Lib.CString
import ShellXv6.Xv6.FileArrays

/-!
# Directories

A directory is a file of records with an inode number and a name.  `dirlookup`, `dirlink`,
the emptiness check of `unlink` and the removal of an entry scan it record by record.  On the
entries of the directory they are a search, an insertion, a test and a removal.
-/

namespace ShellXv6.Xv6.FileSystem

open ShellXv6.CString

def DIRSIZ : ℕ := 14
def T_DIR : ℕ := 1
def T_FILE : ℕ := 2
def T_DEVICE : ℕ := 3

/-- An entry of 16 bytes, two of them for the number. -/
structure Dirent where
  inum : ℕ
  name : List UInt8
  deriving DecidableEq

def Dirent.ofBytes (bs : List UInt8) : Dirent :=
  ⟨(bs.headD 0).toNat + 256 * (bs.tail.headD 0).toNat, bs.drop 2⟩

def Dirent.bytes (de : Dirent) : List UInt8 :=
  UInt8.ofNat de.inum :: UInt8.ofNat (de.inum / 256) :: de.name

variable {sb : Superblock}

/-- The loop over the entries of a directory: it ends with the first entry that `p` holds for,
and `off` is where it ended.  `none` is the panic for a short read. -/
def scan (p : Dirent → Bool) (dp : Fin sb.ninodes) :
    ℕ → (off : ℕ) → Fs sb → Option (Option Dirent × ℕ × Fs sb)
  | 0, off, fs => some (none, off, fs)
  | fuel + 1, off, fs =>
    if off < (fs.ino dp).size then
      (readi dp 16 off 16 fs).bind fun (r, out, fs) =>
        if r = 16 then
          if p (.ofBytes out) then some (some (.ofBytes out), off, fs)
          else scan p dp fuel (off + 16) fs
        else none
    else some (none, off, fs)

def isName (name : List UInt8) (de : Dirent) : Bool :=
  de.inum ≠ 0 && strncmp DIRSIZ name de.name = 0

/-- The loop of `dirlookup`: the inode number and the offset of an entry.  The panics are
"dirlookup not DIR" and "dirlookup read". -/
def findEntry (dp : Fin sb.ninodes) (name : List UInt8) (fs : Fs sb) :
    Option (Option (ℕ × ℕ) × Fs sb) :=
  if (fs.ino dp).type ≠ T_DIR then none
  else (scan (isName name) dp (fs.ino dp).size 0 fs).map fun (de, off, fs) =>
    (de.map fun de => (de.inum, off), fs)

/-- The rest of `dirlink` when the name is not present. -/
def addEntry (dp : Fin sb.ninodes) (name : List UInt8) (inum : ℕ) (fs : Fs sb) :
    Option (ℤ × Fs sb) :=
  (scan (fun de => de.inum = 0) dp (fs.ino dp).size 0 fs).bind fun (_, off, fs) =>
    (writei dp (Dirent.bytes ⟨inum % 65536, strncpy DIRSIZ name⟩) off 16 fs).map
      fun (r, fs) => (if r = 16 then 0 else -1, fs)

def isdirempty (dp : Fin sb.ninodes) (fs : Fs sb) : Option (Bool × Fs sb) :=
  (scan (fun de => de.inum ≠ 0) dp (fs.ino dp).size (2 * 16) fs).map fun (de, _, fs) =>
    (de.isNone, fs)

/-- The write of a zero entry in `sys_unlink`; `none` is the panic "unlink: writei". -/
def clearEntry (dp : Fin sb.ninodes) (off : ℕ) (fs : Fs sb) : Option (Fs sb) :=
  (writei dp (List.replicate 16 0) off 16 fs).bind fun (r, fs) =>
    if r = 16 then some fs else none

/-! ## The entries of a directory -/

def record (file : List UInt8) (k : ℕ) : List UInt8 := (file.drop (16 * k)).take 16

def entries (file : List UInt8) : List Dirent :=
  (List.range (file.length / 16)).map fun k => .ofBytes (record file k)

/-- A directory holds whole entries. -/
def Aligned (file : List UInt8) : Prop := 16 * (file.length / 16) = file.length

theorem ofBytes_bytes (de : Dirent) (h : de.inum < 65536) : Dirent.ofBytes de.bytes = de := by
  cases de with | mk inum name => ?_
  dsimp only at h
  simp only [Dirent.ofBytes, Dirent.bytes, List.headD_cons, List.tail_cons, List.drop_succ_cons,
    List.drop_zero, UInt8.toNat_ofNat', Dirent.mk.injEq, and_true]
  omega

@[simp] theorem length_entries (file : List UInt8) :
    (entries file).length = file.length / 16 := by
  simp [entries]

theorem getElem?_entries {file : List UInt8} {k : ℕ} (h : k < file.length / 16) :
    (entries file)[k]? = some (.ofBytes (record file k)) := by
  simp [entries, h]

theorem drop_entries {file : List UInt8} {k : ℕ} (h : k < file.length / 16) :
    (entries file).drop k = .ofBytes (record file k) :: (entries file).drop (k + 1) := by
  have hlt : k < (entries file).length := by rwa [length_entries]
  rw [List.drop_eq_getElem_cons hlt]
  congr 1
  simp [entries]

theorem record_overwrite {file bs : List UInt8} {j k : ℕ} (hbs : bs.length = 16)
    (hk : 16 * k ≤ file.length) :
    record (overwrite file (16 * k) bs) j = if j = k then bs else record file j := by
  apply List.ext_getElem?
  intro p
  unfold record
  by_cases hp : p < 16
  · rw [List.getElem?_take_of_lt hp, List.getElem?_drop, getElem?_overwrite hk]
    by_cases hj : j = k
    · subst hj
      rw [if_pos (by omega), if_pos rfl, Nat.add_sub_cancel_left]
    · rw [if_neg (by omega), if_neg hj, List.getElem?_take_of_lt hp, List.getElem?_drop]
  · rw [List.getElem?_eq_none (by rw [List.length_take]; omega), eq_comm]
    split
    · exact List.getElem?_eq_none (by omega)
    · exact List.getElem?_eq_none (by rw [List.length_take]; omega)

/-- The entry with number `k`, or one behind the last, is replaced. -/
def edit (es : List Dirent) (k : ℕ) (e : Dirent) : List Dirent := es.take k ++ e :: es.drop (k + 1)

theorem entries_overwrite {file bs : List UInt8} {k : ℕ} (hfile : Aligned file)
    (hbs : bs.length = 16) (hk : k ≤ file.length / 16) :
    Aligned (overwrite file (16 * k) bs) ∧
      entries (overwrite file (16 * k) bs) = edit (entries file) k (.ofBytes bs) := by
  unfold Aligned at hfile
  have hle : 16 * k ≤ file.length := by omega
  have hlen : (overwrite file (16 * k) bs).length = max file.length (16 * k + bs.length) :=
    length_overwrite hle
  have hcount : (overwrite file (16 * k) bs).length / 16 = max (file.length / 16) (k + 1) := by
    omega
  refine ⟨by unfold Aligned; omega, ?_⟩
  apply List.ext_getElem?
  intro j
  have htake : ((entries file).take k).length = k := by
    rw [List.length_take, length_entries]
    omega
  unfold edit
  by_cases hj : j < max (file.length / 16) (k + 1)
  · rw [getElem?_entries (by omega), record_overwrite hbs hle]
    rcases Nat.lt_trichotomy j k with hlt | rfl | hgt
    · rw [if_neg (by omega), List.getElem?_append_left (by omega), List.getElem?_take_of_lt hlt,
        getElem?_entries (by omega)]
    · rw [if_pos rfl, List.getElem?_append_right (by omega), htake, Nat.sub_self,
        List.getElem?_cons_zero]
    · have hidx : k + 1 + (j - k - 1) = j := by omega
      rw [if_neg (by omega), List.getElem?_append_right (by omega), htake,
        List.getElem?_cons, if_neg (by omega), List.getElem?_drop, hidx,
        getElem?_entries (by omega)]
  · rw [List.getElem?_eq_none (by rw [length_entries]; omega), List.getElem?_eq_none]
    rw [List.length_append, htake, List.length_cons, List.length_drop, length_entries]
    omega

/-! ## Scanning -/

variable {fs fs' : Fs sb} {dp : Fin sb.ninodes} {name : List UInt8}

/-- What a scan of the entries `es`, numbered from `k`, finds. -/
def search (p : Dirent → Bool) (es : List Dirent) (k : ℕ) : Option (Dirent × ℕ) :=
  (es.zipIdx k).find? fun x => p x.1

theorem search_cons (p : Dirent → Bool) (e : Dirent) (es : List Dirent) (k : ℕ) :
    search p (e :: es) k = if p e then some (e, k) else search p es (k + 1) := by
  rw [search, List.zipIdx_cons, List.find?_cons]
  cases p e <;> rfl

theorem search_eq_none {p : Dirent → Bool} {es : List Dirent} {k : ℕ} :
    search p es k = none ↔ ∀ e ∈ es, p e = false := by
  induction es generalizing k with
  | nil => simp [search]
  | cons e es ih =>
      rw [search_cons, List.forall_mem_cons]
      cases hp : p e <;> simp [ih]

theorem search_eq_some {p : Dirent → Bool} {es : List Dirent} {e : Dirent} {k j : ℕ}
    (h : search p es k = some (e, j)) : k ≤ j ∧ es[j - k]? = some e ∧ p e = true := by
  induction es generalizing k with
  | nil => simp [search] at h
  | cons d es ih =>
      rw [search_cons] at h
      cases hp : p d with
      | true =>
          rw [hp, if_pos rfl] at h
          cases h
          exact ⟨Nat.le_refl _, by simp, hp⟩
      | false =>
          rw [hp, if_neg Bool.false_ne_true] at h
          obtain ⟨hle, hget, hpe⟩ := ih h
          have hsub : j - k = j - (k + 1) + 1 := by omega
          exact ⟨by omega, by rw [hsub, List.getElem?_cons_succ, hget], hpe⟩

/-- Reading one entry. -/
theorem readi_entry (h : Sound fs) (hdir : Aligned (fs.contents dp)) {k : ℕ}
    (hk : k < (fs.contents dp).length / 16) :
    readi dp 16 (16 * k) 16 fs = some (16, record (fs.contents dp) k, fs) := by
  have hmax : MAXFILE * BSIZE < 4294967296 := by decide
  have hbound := h.bound dp
  have hlength : (fs.contents dp).length = (fs.ino dp).size := length_contents
  unfold Aligned at hdir
  have huint : 16 * k < 4294967296 ∧ 16 < 4294967296 := by omega
  obtain ⟨r, out, hrun, hserves⟩ := serves_readi h True dp 16 huint
  rw [hrun]
  have hlen : (((fs.contents dp).drop (16 * k)).take 16).length = 16 := by
    rw [List.length_take, List.length_drop]
    omega
  cases hserves with
  | beyond hbad => omega
  | read hoff hroom => rw [hlen]; rfl
  | unreadable hoff hroom => omega

theorem scan_eq (h : Sound fs) (hdir : Aligned (fs.contents dp)) (p : Dirent → Bool) :
    ∀ fuel k, (fs.contents dp).length / 16 ≤ fuel + k →
      scan p dp fuel (16 * k) fs =
        match search p ((entries (fs.contents dp)).drop k) k with
        | some (e, j) => some (some e, 16 * j, fs)
        | none => some (none, 16 * max k ((fs.contents dp).length / 16), fs) := by
  have hlength : (fs.contents dp).length = (fs.ino dp).size := length_contents
  have hend : ∀ k, (fs.contents dp).length / 16 ≤ k →
      (entries (fs.contents dp)).drop k = [] ∧
        max k ((fs.contents dp).length / 16) = k := by
    intro k hk
    exact ⟨List.drop_eq_nil_of_le (by rwa [length_entries]), Nat.max_eq_left hk⟩
  intro fuel
  induction fuel with
  | zero =>
      intro k hk
      obtain ⟨hnil, hmax⟩ := hend k (by omega)
      rw [hnil, hmax]
      rfl
  | succ fuel ih =>
      intro k hk
      by_cases hlt : k < (fs.contents dp).length / 16
      · have hoff : 16 * k < (fs.ino dp).size := by omega
        have hnext : 16 * k + 16 = 16 * (k + 1) := by omega
        rw [scan, if_pos hoff, readi_entry h hdir hlt, drop_entries hlt, search_cons]
        simp only [Option.bind_some]
        rw [if_pos trivial]
        cases hp : p (.ofBytes (record (fs.contents dp) k)) with
        | true => simp
        | false =>
            have hmax : max (k + 1) ((fs.contents dp).length / 16) =
                max k ((fs.contents dp).length / 16) := by omega
            simp only [Bool.false_eq_true, if_false]
            rw [hnext, ih (k + 1) (by omega), hmax]
      · obtain ⟨hnil, hmax⟩ := hend k (by omega)
        unfold Aligned at hdir
        rw [scan, if_neg (by omega), hnil, hmax]
        rfl

/-- A directory can be searched. -/
structure IsDir (fs : Fs sb) (dp : Fin sb.ninodes) : Prop where
  type : (fs.ino dp).type = T_DIR
  aligned : Aligned (fs.contents dp)

def Fs.dir (fs : Fs sb) (dp : Fin sb.ninodes) : List Dirent := entries (fs.contents dp)

theorem findEntry_eq (h : Sound fs) (hdir : IsDir fs dp) (name : List UInt8) :
    findEntry dp name fs =
      some ((search (isName name) (fs.dir dp) 0).map fun (e, k) => (e.inum, 16 * k), fs) := by
  have hfuel : (fs.contents dp).length / 16 ≤ (fs.ino dp).size + 0 := by
    rw [length_contents]
    exact Nat.div_le_self _ _
  have hscan := scan_eq h hdir.aligned (isName name) (fs.ino dp).size 0 hfuel
  rw [Nat.mul_zero, List.drop_zero] at hscan
  rw [findEntry, if_neg (fun hne => hne hdir.type), hscan, Fs.dir]
  cases search (isName name) (entries (fs.contents dp)) 0 with
  | none => rfl
  | some x => rfl

theorem isdirempty_eq (h : Sound fs) (hdir : IsDir fs dp) :
    isdirempty dp fs =
      some (((fs.dir dp).drop 2).all fun e => e.inum = 0, fs) := by
  have hfuel : (fs.contents dp).length / 16 ≤ (fs.ino dp).size + 2 := by
    rw [length_contents]
    exact Nat.le_trans (Nat.div_le_self _ _) (Nat.le_add_right _ _)
  have hscan := scan_eq h hdir.aligned (fun de => de.inum ≠ 0) (fs.ino dp).size 2 hfuel
  rw [isdirempty, Nat.mul_comm 2, hscan, Fs.dir]
  cases hs : search (fun de => decide (de.inum ≠ 0)) ((entries (fs.contents dp)).drop 2) 2 with
  | none =>
      have hall := search_eq_none.mp hs
      simp only [Option.map_some, Option.isNone_none, Option.some.injEq, Prod.mk.injEq, and_true]
      rw [eq_comm, List.all_eq_true]
      intro e he
      simpa using hall e he
  | some x =>
      obtain ⟨e, j⟩ := x
      obtain ⟨-, hget, hp⟩ := search_eq_some hs
      simp only [Option.map_some, Option.isNone_some, Option.some.injEq, Prod.mk.injEq, and_true]
      rw [eq_comm, List.all_eq_false]
      exact ⟨e, List.mem_of_getElem? hget, by simpa using hp⟩

/-! ## Writing an entry -/

/-- The name of an entry that is in use. -/
def Dirent.Named (e : Dirent) (name : List UInt8) : Prop :=
  e.inum ≠ 0 ∧ cstr DIRSIZ e.name = cstr DIRSIZ name

theorem isName_iff {e : Dirent} : isName name e = true ↔ e.Named name := by
  rw [isName, Bool.and_eq_true, decide_eq_true_eq, decide_eq_true_eq, strncmp_eq_zero_iff,
    Dirent.Named, eq_comm (a := cstr DIRSIZ name)]

/-- The contents of no file have changed. -/
structure Unchanged (dp : Fin sb.ninodes) (fs fs' : Fs sb) : Prop where
  sound : Sound fs'
  touches : Touches dp fs fs'
  contents : fs'.contents = fs.contents

/-- One entry of one directory was written. -/
structure Edited (dp : Fin sb.ninodes) (k : ℕ) (e : Dirent) (fs fs' : Fs sb) : Prop where
  sound : Sound fs'
  touches : Touches dp fs fs'
  aligned : Aligned (fs'.contents dp)
  dir : fs'.dir dp = edit (fs.dir dp) k e
  other : ∀ j, j ≠ dp → fs'.contents j = fs.contents j

/-- An entry lies in one block, so it is written as a whole or not at all, and only a new entry
cannot be written. -/
theorem writei_entry (h : Sound fs) (hdir : Aligned (fs.contents dp)) {bs : List UInt8}
    (hbs : bs.length = 16) {k : ℕ} (hk : k ≤ (fs.dir dp).length) :
    ∃ r fs', writei dp bs (16 * k) 16 fs = some (r, fs') ∧
      (r = 16 ∧ Edited dp k (.ofBytes bs) fs fs' ∨
        r ≠ 16 ∧ Unchanged dp fs fs' ∧ k = (fs.dir dp).length) := by
  have hbsize : BSIZE = 1024 := rfl
  have hmax : MAXFILE * BSIZE < 4294967296 := by decide
  have hbound := h.bound dp
  have hlength : (fs.contents dp).length = (fs.ino dp).size := length_contents
  rw [Fs.dir, length_entries] at hk
  have hcount := hdir
  unfold Aligned at hcount
  have huint : 16 * k < 4294967296 ∧ 16 < 4294967296 := by omega
  obtain ⟨r, fs', hrun, hsound, htouches, hserves⟩ := serves_writei h dp bs huint
  refine ⟨r, fs', hrun, ?_⟩
  generalize hc : fs'.contents = files at hserves
  cases hserves with
  | refused hbad =>
      refine .inr ⟨by omega, ⟨hsound, htouches, hc⟩, ?_⟩
      rw [Fs.dir, length_entries]
      omega
  | written hoff hlimit hsrc =>
      rw [List.take_of_length_le (by omega)] at hc
      have hself : fs'.contents dp = overwrite (fs.contents dp) (16 * k) bs := by
        rw [hc, Function.update_self]
      obtain ⟨haligned, hentries⟩ := entries_overwrite hdir hbs hk
      refine .inl ⟨rfl, hsound, htouches, by rwa [hself], ?_, fun j hj => ?_⟩
      · rw [Fs.dir, hself, hentries, Fs.dir]
      · rw [hc, Function.update_of_ne hj]
  | short tot hoff htot hsrc hblock hend hfull =>
      have hzero : tot = 0 := by
        rw [hbsize] at hblock
        omega
      subst hzero
      have hlast : k = (fs.dir dp).length := by
        rw [Fs.dir, length_entries]
        omega
      refine .inr ⟨by omega, ⟨hsound, htouches, ?_⟩, hlast⟩
      have hsame : overwrite (fs.contents dp) (16 * k) (bs.take 0) = fs.contents dp := by
        simp [overwrite]
      rw [hc, hsame, Function.update_eq_self]
  | fault tot hoff hsrc htot => omega

/-- The outcomes of `addEntry`. -/
inductive Added (dp : Fin sb.ninodes) (name : List UInt8) (inum : ℕ) (fs : Fs sb) :
    ℤ × Fs sb → Prop
  | failed (fs' : Fs sb) (h : Unchanged dp fs fs') : Added dp name inum fs (-1, fs')
  | added (fs' : Fs sb) (k : ℕ) (hk : k ≤ (fs.dir dp).length)
      (hfree : ∀ e, (fs.dir dp)[k]? = some e → e.inum = 0)
      (h : Edited dp k ⟨inum % 65536, strncpy DIRSIZ name⟩ fs fs') :
      Added dp name inum fs (0, fs')

theorem exists_addEntry (h : Sound fs) (hdir : Aligned (fs.contents dp)) (name : List UInt8)
    (inum : ℕ) : ∃ r, addEntry dp name inum fs = some r ∧ Added dp name inum fs r := by
  have hfuel : (fs.contents dp).length / 16 ≤ (fs.ino dp).size + 0 := by
    rw [length_contents]
    exact Nat.div_le_self _ _
  have hscan := scan_eq h hdir (fun de => de.inum = 0) (fs.ino dp).size 0 hfuel
  rw [Nat.mul_zero, List.drop_zero] at hscan
  have hlen : (Dirent.bytes ⟨inum % 65536, strncpy DIRSIZ name⟩).length = 16 := by
    rw [Dirent.bytes, List.length_cons, List.length_cons, length_strncpy]
    rfl
  -- the loop ends at an entry that is not in use or behind the last one
  obtain ⟨de, k, hrun, hk, hfree⟩ : ∃ de k,
      scan (fun de => de.inum = 0) dp (fs.ino dp).size 0 fs = some (de, 16 * k, fs) ∧
        k ≤ (fs.dir dp).length ∧ ∀ e, (fs.dir dp)[k]? = some e → e.inum = 0 := by
    rw [hscan]
    cases hf : search (fun de => decide (de.inum = 0)) (entries (fs.contents dp)) 0 with
    | some x =>
        obtain ⟨e, k⟩ := x
        obtain ⟨-, hget, hp⟩ := search_eq_some hf
        rw [Nat.sub_zero] at hget
        refine ⟨some e, k, rfl, ?_, fun e' he' => ?_⟩
        · exact Nat.le_of_lt (List.getElem?_eq_some_iff.mp hget).1
        · rw [Fs.dir, hget] at he'
          cases he'
          exact of_decide_eq_true hp
    | none =>
        refine ⟨none, (fs.contents dp).length / 16, by rw [Nat.zero_max], ?_, fun e he => ?_⟩
        · rw [Fs.dir, length_entries]
        · have := (List.getElem?_eq_some_iff.mp he).1
          rw [Fs.dir, length_entries] at this
          omega
  obtain ⟨r, fs', hwrite, hcases⟩ := writei_entry h hdir hlen hk
  simp only [addEntry, hrun, Option.bind_some, hwrite, Option.map_some]
  refine ⟨_, rfl, ?_⟩
  rcases hcases with ⟨hr, hedited⟩ | ⟨hr, hsame, -⟩
  · rw [ofBytes_bytes _ (Nat.mod_lt _ (by decide))] at hedited
    rw [if_pos hr]
    exact .added fs' k hk hfree hedited
  · rw [if_neg hr]
    exact .failed fs' hsame

/-- Removing an entry cannot fail: its block is there. -/
theorem exists_clearEntry (h : Sound fs) (hdir : Aligned (fs.contents dp)) {k : ℕ}
    (hk : k < (fs.dir dp).length) :
    ∃ fs', clearEntry dp (16 * k) fs = some fs' ∧
      Edited dp k ⟨0, List.replicate 14 0⟩ fs fs' := by
  have hlen : (List.replicate 16 (0 : UInt8)).length = 16 := List.length_replicate
  obtain ⟨r, fs', hwrite, ⟨hr, hedited⟩ | ⟨-, -, hlast⟩⟩ :=
    writei_entry h hdir hlen (Nat.le_of_lt hk)
  · refine ⟨fs', ?_, hedited⟩
    rw [clearEntry, hwrite, Option.bind_some]
    exact if_pos hr
  · omega

end ShellXv6.Xv6.FileSystem
