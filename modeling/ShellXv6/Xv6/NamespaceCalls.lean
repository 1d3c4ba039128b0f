import ShellXv6.Xv6.Namespace

/-!
# What the calls do to the namespace

Every call returns, and leaves a tree of names in which links are counted right.  In the middle
of a call the tree is broken: `sys_link` counts a link before it has made the name, and
`sys_unlink` removes the name before it takes back the count.  What a path leads to is not
affected by that.
-/

namespace ShellXv6.Xv6.FileSystem

open ShellXv6.CString
open ShellXv6.LinkTree

variable {sb : Superblock}

/-- Inodes are in use as long as they have a name or a user. -/
structure Users (fs : Fs sb) (held : Multiset (Fin sb.ninodes)) : Prop where
  inUse : ∀ i ∈ held, (fs.ino i).type ≠ 0
  kept : ∀ i, (fs.ino i).type ≠ 0 → (fs.ino i).nlink = 0 → i ∈ held

structure Good (root : Fin sb.ninodes) (k : Kernel sb) (held : Multiset (Fin sb.ninodes))
    (locks : Finset (Fin sb.ninodes)) : Prop where
  table : Table k k.fs held locks
  lawful : Lawful root k.fs
  users : Users k.fs held

/-- What somebody holds does not turn into something else. -/
def Keeps (held : Multiset (Fin sb.ninodes)) (fs fs' : Fs sb) : Prop :=
  ∀ i ∈ held, (fs'.ino i).type = (fs.ino i).type

variable {k : Kernel sb} {fs fs' : Fs sb} {held : Multiset (Fin sb.ninodes)}
  {locks : Finset (Fin sb.ninodes)} {root cwd d i : Fin sb.ninodes} {name path : List UInt8}

theorem Keeps.refl : Keeps held fs fs := fun _ _ => rfl

theorem Keeps.mono {held' : Multiset (Fin sb.ninodes)} (h : Keeps held fs fs')
    (hle : ∀ i ∈ held', i ∈ held) : Keeps held' fs fs' := fun i hi => h i (hle i hi)

theorem Keeps.trans {fs'' : Fs sb} (h : Keeps held fs fs') (h' : Keeps held fs' fs'') :
    Keeps held fs fs'' := fun i hi => (h' i hi).trans (h i hi)

theorem Good.of_table (h : Table k fs held locks) (hlawful : Lawful root fs)
    (husers : Users fs held) : Good root k held locks := by
  have hfs := h.fs_eq
  subst hfs
  exact ⟨h, hlawful, husers⟩

theorem Users.hold (h : Users fs held) {r : Option (Fin sb.ninodes)}
    (hr : ∀ i ∈ r, fs.Linked i) : Users fs (hold r held) := by
  cases r with
  | none => exact h
  | some i =>
      refine ⟨fun j hj => ?_, fun j hj hz => Multiset.mem_cons_of_mem (h.kept j hj hz)⟩
      rcases Multiset.mem_cons.mp hj with rfl | hj
      · exact (hr j rfl).1
      · exact h.inUse j hj

/-! ## Dropping an inode -/

theorem Lawful.freed (h : Lawful root fs) (hfreed : Freed i fs fs') (hz : (fs.ino i).nlink = 0) :
    Lawful root fs' := by
  have hdead : ¬fs.graph.Live i := fun hlive => (live_graph.mp hlive).2 hz
  have hroot : root ≠ i := h.tree.top.ne _ hdead
  have hgraph := graph_freed hfreed hz
  refine ⟨hfreed.sound, ?_, ?_, ?_, ?_, ?_, ?_⟩
  · rw [hgraph]
    exact h.tree.rekind .free (fun _ => hz) hdead
  · rw [hgraph]
    exact (Function.update_of_ne hroot _ _).trans h.top
  · intro d hd
    have hdi : d ≠ i := by
      rintro rfl
      rw [hfreed.type] at hd
      cases hd
    rw [hfreed.other d hdi] at hd
    exact (h.dots d hd).congr (hfreed.contents d hdi)
  · intro j hj
    by_cases hji : j = i
    · subst hji
      exact ⟨hfreed.nlink.trans hz, hfreed.size, hfreed.addrs⟩
    · rw [hfreed.other j hji] at hj ⊢
      exact h.bare j hj
  · intro j
    by_cases hji : j = i
    · subst hji
      rw [hfreed.nlink]
      exact h.short j
    · rw [hfreed.other j hji]
      exact h.short j
  · intro j hj
    by_cases hji : j = i
    · rw [hji, hfreed.type]
    · rw [hfreed.other j hji]
      exact h.unused j hj

theorem Good.iput (h : Good root k (i ::ₘ held) locks) (hlock : i ∉ locks) :
    ∃ k', iput i k = some k' ∧ Good root k' held locks ∧ Keeps held k.fs k'.fs := by
  by_cases hstay : i ∈ held ∨ (k.fs.ino i).nlink ≠ 0
  · obtain ⟨k', hrun, h'⟩ := h.table.iput hstay
    refine ⟨k', hrun, .of_table h' h.lawful ⟨fun j hj => ?_, fun j hj hz => ?_⟩, ?_⟩
    · exact h.users.inUse j (Multiset.mem_cons_of_mem hj)
    · rcases Multiset.mem_cons.mp (h.users.kept j hj hz) with rfl | hj
      · exact hstay.resolve_right fun hne => hne hz
      · exact hj
    · rw [h'.fs_eq]
      exact .refl
  · rw [not_or, not_not] at hstay
    obtain ⟨k', fs', hrun, h', hfreed⟩ := h.table.iput_free h.lawful.sound hstay.1 hlock hstay.2
    have hother : ∀ j ∈ held, fs'.ino j = k.fs.ino j := fun j hj =>
      hfreed.other j fun heq => hstay.1 (heq ▸ hj)
    refine ⟨k', hrun, .of_table h' (h.lawful.freed hfreed hstay.2) ⟨?_, ?_⟩, ?_⟩
    · intro j hj
      rw [hother j hj]
      exact h.users.inUse j (Multiset.mem_cons_of_mem hj)
    · intro j hj hz
      have hji : j ≠ i := by
        rintro rfl
        exact hj hfreed.type
      rw [hfreed.other j hji] at hj hz
      exact (Multiset.mem_cons.mp (h.users.kept j hj hz)).resolve_left hji
    · intro j hj
      rw [h'.fs_eq, hother j hj]

theorem Good.iunlock (h : Good root k held locks) (hi : i ∈ held) (hlock : i ∈ locks) :
    ∃ k', iunlock i k = some k' ∧ k'.fs = k.fs ∧ Good root k' held (locks.erase i) := by
  obtain ⟨k', hrun, h'⟩ := h.table.iunlock hi hlock
  exact ⟨k', hrun, h'.fs_eq, .of_table h' h.lawful h.users⟩

theorem Good.ilock (h : Good root k held locks) (hi : i ∈ held) (hlock : i ∉ locks) :
    ∃ k', ilock i k = some k' ∧ k'.fs = k.fs ∧ Good root k' held (insert i locks) := by
  obtain ⟨k', hrun, h'⟩ := h.table.ilock h.lawful.sound hi hlock (h.users.inUse i hi)
  exact ⟨k', hrun, h'.fs_eq, .of_table h' h.lawful h.users⟩

theorem Good.iunlockput (h : Good root k (i ::ₘ held) locks) (hlock : i ∈ locks) :
    ∃ k', iunlockput i k = some k' ∧ Good root k' held (locks.erase i) ∧
      Keeps held k.fs k'.fs := by
  obtain ⟨k₁, hrun₁, hfs₁, h₁⟩ := h.iunlock (Multiset.mem_cons_self i held) hlock
  obtain ⟨k₂, hrun₂, h₂, hkeeps⟩ := h₁.iput (Finset.notMem_erase i locks)
  refine ⟨k₂, ?_, h₂, hfs₁ ▸ hkeeps⟩
  rw [FileSystem.iunlockput, hrun₁]
  exact hrun₂

/-! ## Following a path -/

/-- A call may follow a path from the root, or from a directory that was not removed. -/
def Starts (fs : Fs sb) (cwd : Fin sb.ninodes) (path : List UInt8) : Prop :=
  path.head? = some slash ∨ fs.Linked cwd

section

variable (hroot : (root : ℕ) = ROOTINO) (hroom : Room 2 held) (hcwd : cwd ∈ held)
include hroot hroom hcwd

theorem Good.namei (h : Good root k held ∅) (hstart : Starts k.fs cwd path) :
    ∃ r k', namei cwd path k = some (r, k') ∧ k'.fs = k.fs ∧ Good root k' (hold r held) ∅ ∧
      ∀ i ∈ r, k.fs.Linked i := by
  obtain ⟨k', hrun, h', hlinked⟩ := h.table.namex h.lawful.closed hroom hroot
    h.lawful.linked_root hcwd path hstart false
  generalize k.fs.resolve false _ _ = r at hrun h' hlinked
  have hr : ∀ i ∈ r.map Prod.fst, k.fs.Linked i := by
    intro i hi
    obtain ⟨x, hx, rfl⟩ := Option.map_eq_some_iff.mp hi
    exact (hlinked x hx).1
  refine ⟨r.map Prod.fst, k', ?_, h'.fs_eq, .of_table h' h.lawful (h.users.hold hr), hr⟩
  rw [FileSystem.namei, hrun]
  rfl

/-- The parent of a path, in a state in which links may be miscounted. -/
theorem Table.nameiparent (h : Table k fs held ∅) (hclosed : Closed fs) (htop : fs.Linked root)
    (hstart : Starts fs cwd path) :
    ∃ r k', nameiparent cwd path k = some (r, k') ∧ Table k' fs (hold (r.map Prod.fst) held) ∅ ∧
      ∀ x ∈ r, fs.Linked x.1 ∧ (fs.ino x.1).type = T_DIR := by
  obtain ⟨k', hrun, h', hlinked⟩ := h.namex hclosed hroom hroot htop hcwd path hstart true
  exact ⟨_, k', hrun, h', fun x hx => ⟨(hlinked x hx).1, (hlinked x hx).2 rfl⟩⟩

theorem Good.nameiparent (h : Good root k held ∅) (hstart : Starts k.fs cwd path) :
    ∃ r k', nameiparent cwd path k = some (r, k') ∧ k'.fs = k.fs ∧
      Good root k' (hold (r.map Prod.fst) held) ∅ ∧
      ∀ x ∈ r, k.fs.Linked x.1 ∧ (k.fs.ino x.1).type = T_DIR := by
  obtain ⟨r, k', hrun, h', hlinked⟩ := h.table.nameiparent hroot hroom hcwd h.lawful.closed
    h.lawful.linked_root hstart
  have hr : ∀ i ∈ r.map Prod.fst, k.fs.Linked i := by
    intro i hi
    obtain ⟨x, hx, rfl⟩ := Option.map_eq_some_iff.mp hi
    exact (hlinked x hx).1
  exact ⟨r, k', hrun, h'.fs_eq, .of_table h' h.lawful (h.users.hold hr), hlinked⟩

end

theorem Good.dirlookup (h : Good root k held locks) (hdir : (k.fs.ino d).type = T_DIR)
    (hlink : (k.fs.ino d).nlink ≠ 0) (hroom : Room 1 held) (hlocks : ∀ j ∈ locks, j ∈ held)
    (name : List UInt8) :
    ∃ found k', dirlookup d name k = some (found, k') ∧ k'.fs = k.fs ∧
      Looked k.fs d name found ∧ Good root k' (hold (found.map Prod.fst) held) locks := by
  obtain ⟨found, k', hrun, hlooked, -, h'⟩ := h.table.dirlookup h.lawful.sound hdir
    (h.lawful.closed.closed d hdir hlink) hroom hlocks name
  refine ⟨found, k', hrun, h'.fs_eq, hlooked, .of_table h' h.lawful (h.users.hold fun i hi => ?_)⟩
  cases hlooked with
  | absent => cases hi
  | found _ _ j _ _ _ hlinked =>
      obtain rfl : j = i := Option.some.inj hi
      exact hlinked

/-! ## Counting links -/

theorem addLink_eq {ip : Inode} (h : ip.nlink < 32768) :
    ip.addLink = ip.setNlink (ip.nlink + 1) := by
  rw [Inode.addLink, Nat.mod_eq_of_lt (by omega)]

theorem dropLink_eq {ip : Inode} (hpos : ip.nlink ≠ 0) (h : ip.nlink < 65536) :
    ip.dropLink = ip.setNlink (ip.nlink - 1) := by
  have hmod : (ip.nlink + 65535) % 65536 = ip.nlink - 1 := by omega
  rw [Inode.dropLink, hmod]

theorem Sound.setNlink (h : Sound fs) {n : ℕ} (hn : n < 65536) :
    Sound (fs.save i ((fs.ino i).setNlink n)) := by
  obtain ⟨htype, hmajor, hminor, -⟩ := h.short i
  exact h.save ((fs.ino i).sameData_setNlink n) ⟨htype, hmajor, hminor, hn⟩

theorem type_setNlink (n : ℕ) (j : Fin sb.ninodes) :
    ((fs.save i ((fs.ino i).setNlink n)).ino j).type = (fs.ino j).type := by
  by_cases hji : j = i
  · subst hji
    rw [ino_save_self]
    rfl
  · rw [ino_save_of_ne hji]

theorem nlink_setNlink (n : ℕ) (j : Fin sb.ninodes) :
    ((fs.save i ((fs.ino i).setNlink n)).ino j).nlink =
      if j = i then n else (fs.ino j).nlink := by
  by_cases hji : j = i
  · subst hji
    rw [ino_save_self, if_pos rfl]
    rfl
  · rw [ino_save_of_ne hji, if_neg hji]

theorem contents_setNlink (h : Sound fs) (n : ℕ) :
    (fs.save i ((fs.ino i).setNlink n)).contents = fs.contents :=
  contents_save h ((fs.ino i).sameData_setNlink n)

/-- Counts do not matter to who follows a path. -/
theorem Closed.congr (h : Closed fs) (hsound : Sound fs')
    (htype : ∀ j, (fs'.ino j).type = (fs.ino j).type)
    (hnlink : ∀ j, (fs'.ino j).nlink = 0 ↔ (fs.ino j).nlink = 0)
    (hcontents : fs'.contents = fs.contents) : Closed fs' := by
  refine ⟨hsound, fun d hd hlink => ?_⟩
  rw [htype] at hd
  rw [Ne, hnlink] at hlink
  obtain ⟨haligned, hentry⟩ := h.closed d hd hlink
  refine ⟨by rwa [hcontents], fun e he hz => ?_⟩
  have hdir : fs'.dir d = fs.dir d := congrArg entries (congrFun hcontents d)
  obtain ⟨i, hi, hlinked⟩ := hentry e (hdir ▸ he) hz
  refine ⟨i, hi, ?_, ?_⟩
  · rw [htype]
    exact hlinked.1
  · rw [Ne, hnlink]
    exact hlinked.2

/-! ## Entries and names -/

theorem Dots.two_le (h : Dots fs d) {n : ℕ}
    (hfree : ∀ e, (fs.dir d)[n]? = some e → e.inum = 0) : 2 ≤ n := by
  obtain ⟨e₀, he₀, hname₀, -⟩ := h.self
  obtain ⟨e₁, he₁, hname₁⟩ := h.up
  match n with
  | 0 => exact absurd (hfree e₀ he₀) hname₀.1
  | 1 => exact absurd (hfree e₁ he₁) hname₁.1
  | n + 2 => exact Nat.le_add_left 2 n

/-- A name that a directory does not have is not one of the first two. -/
theorem Dots.not_named (h : Dots fs d) (hnew : ∀ e ∈ fs.dir d, ¬e.Named name) (inum : ℕ) :
    ¬Dirent.Named ⟨inum, strncpy DIRSIZ name⟩ dot ∧
      ¬Dirent.Named ⟨inum, strncpy DIRSIZ name⟩ dotdot := by
  obtain ⟨e₀, he₀, hname₀, -⟩ := h.self
  obtain ⟨e₁, he₁, hname₁⟩ := h.up
  constructor <;> intro hnamed
  · exact hnew e₀ (List.mem_of_getElem? he₀)
      ⟨hname₀.1, hname₀.2.trans (hnamed.2.symm.trans (cstr_strncpy DIRSIZ name))⟩
  · exact hnew e₁ (List.mem_of_getElem? he₁)
      ⟨hname₁.1, hname₁.2.trans (hnamed.2.symm.trans (cstr_strncpy DIRSIZ name))⟩

theorem names_of_entry (hd : (fs.ino d).type = T_DIR) {n : ℕ} (hn : 2 ≤ n) :
    fs.graph.names d = (((fs.dir d)[n]?.bind (Dirent.target sb)).toList : List _) +
      ((((fs.dir d).drop 2).eraseIdx (n - 2)).filterMap (Dirent.target sb) : List _) := by
  rw [names_graph hd, coe_filterMap_eq _ (n - 2), List.getElem?_drop, Nat.add_sub_cancel' hn]

theorem names_of_free (hd : (fs.ino d).type = T_DIR) {n : ℕ} (hn : 2 ≤ n)
    (hfree : ∀ e, (fs.dir d)[n]? = some e → e.inum = 0) :
    ((((fs.dir d).drop 2).eraseIdx (n - 2)).filterMap (Dirent.target sb) : List _) =
      fs.graph.names d := by
  have hnone : (fs.dir d)[n]?.bind (Dirent.target sb) = none := by
    cases he : (fs.dir d)[n]? with
    | none => rfl
    | some e => exact target_zero (hfree e he)
  rw [names_of_entry hd hn, hnone]
  exact (zero_add _).symm

theorem notMem_names (hd : (fs.ino d).type = T_DIR)
    (hnew : ∀ e ∈ fs.dir d, ¬e.Named name) :
    cstr DIRSIZ name ∉ (fs.graph.names d).map Prod.fst := by
  rw [names_graph hd, Multiset.map_coe, Multiset.mem_coe, List.mem_map]
  rintro ⟨x, hx, hname⟩
  obtain ⟨e, he, htarget⟩ := List.mem_filterMap.mp hx
  obtain ⟨hz, -, hcstr⟩ := of_target_eq_some htarget
  exact hnew e (List.mem_of_mem_drop he) ⟨hz, hcstr.trans hname⟩

theorem target_new (hmany : sb.ninodes < 32768) (hpos : (i : ℕ) ≠ 0) (name : List UInt8) :
    Dirent.target sb ⟨i % 65536, strncpy DIRSIZ name⟩ = some (cstr DIRSIZ name, i) := by
  have hmod : (i : ℕ) % 65536 = i := Nat.mod_eq_of_lt (by omega)
  rw [target_eq_some hmod.symm (by rwa [hmod]), cstr_strncpy]

/-- The inodes but not the counts are as they were. -/
theorem Lawful.relink (h : Lawful root fs) (hsound : Sound fs') (htree : IsTree root fs'.graph)
    (hparent : fs'.graph.parent = fs.graph.parent)
    (htype : ∀ j, (fs'.ino j).type = (fs.ino j).type)
    (hdots : ∀ d, (fs.ino d).type = T_DIR → Dots fs' d)
    (hbare : ∀ j, (fs.ino j).type = 0 → fs'.ino j = fs.ino j)
    (hshort : ∀ j, (fs'.ino j).nlink < 32768) : Lawful root fs' := by
  refine ⟨hsound, htree, hparent ▸ h.top, fun d hd => ?_, fun j hj => ?_, hshort,
    fun j hj => (htype j).trans (h.unused j hj)⟩
  · exact hdots d (by rwa [← htype])
  · rw [htype] at hj
    rw [hbare j hj]
    exact h.bare j hj

/-! ## link -/

/-- An inode has one link too many. -/
structure Overcounts (i : Fin sb.ninodes) (fs fs' : Fs sb) : Prop where
  sound : Sound fs'
  type : ∀ j, (fs'.ino j).type = (fs.ino j).type
  nlink : ∀ j, (fs'.ino j).nlink = if j = i then (fs.ino i).nlink + 1 else (fs.ino j).nlink
  contents : fs'.contents = fs.contents
  free : ∀ j, (fs.ino j).type = 0 → fs'.ino j = fs.ino j

theorem Overcounts.linked (h : Overcounts i fs fs') {j : Fin sb.ninodes} (hj : fs.Linked j) :
    fs'.Linked j := by
  refine ⟨by rw [h.type]; exact hj.1, ?_⟩
  rw [h.nlink]
  split
  · exact Nat.succ_ne_zero _
  · exact hj.2

theorem Overcounts.closed (h : Overcounts i fs fs') (hclosed : Closed fs)
    (hi : fs.Linked i) : Closed fs' := by
  refine hclosed.congr h.sound h.type (fun j => ?_) h.contents
  rw [h.nlink]
  split
  · next hji =>
    rw [hji]
    exact iff_of_false (Nat.succ_ne_zero _) hi.2
  · rfl

theorem overcounts_addLink (h : Lawful root fs) (hi : fs.Linked i) :
    Overcounts i fs (fs.save i (fs.ino i).addLink) := by
  have hshort := h.short i
  rw [addLink_eq hshort]
  refine ⟨h.sound.setNlink (by omega), type_setNlink _, nlink_setNlink _,
    contents_setNlink h.sound _, fun j hj => ino_save_of_ne ?_⟩
  rintro rfl
  exact hi.1 hj

theorem Overcounts.unchanged {fs'' : Fs sb} (h : Overcounts i fs fs') (hd : (fs.ino d).type ≠ 0)
    (hsame : Unchanged d fs' fs'') : Overcounts i fs fs'' where
  sound := hsame.sound
  type j := (hsame.touches.type j).trans (h.type j)
  nlink j := (hsame.touches.nlink j).trans (h.nlink j)
  contents := hsame.contents.trans h.contents
  free j hj := (hsame.touches.other j fun heq => hd (heq ▸ hj)).trans (h.free j hj)

theorem Overcounts.linkBad (hover : Overcounts i fs fs') (h : Table k fs' (i ::ₘ held) ∅)
    (hlawful : Lawful root fs) (husers : Users fs held) (hi : fs.Linked i) :
    ∃ k', linkBad i k = some (-1, k') ∧ Good root k' held ∅ ∧ Keeps held fs k'.fs := by
  have hmem := Multiset.mem_cons_self i held
  obtain ⟨k₁, hrun₁, h₁⟩ := h.ilock hover.sound hmem (Finset.notMem_empty i)
    (hover.linked hi).1
  have hin : i ∈ insert i (∅ : Finset (Fin sb.ninodes)) := Finset.mem_insert_self i ∅
  have hnlink : (fs'.ino i).nlink = (fs.ino i).nlink + 1 := by rw [hover.nlink, if_pos rfl]
  have hshort := hlawful.short i
  have hdrop : (fs'.ino i).dropLink = (fs'.ino i).setNlink (fs.ino i).nlink := by
    rw [dropLink_eq (by omega) (by omega), hnlink, Nat.add_sub_cancel]
  have h₂ : Table (k₁.save i ((fs'.ino i).setNlink (fs.ino i).nlink)) _ (i ::ₘ held) _ :=
    h₁.save hin
  generalize hfs₂ : fs'.save i ((fs'.ino i).setNlink (fs.ino i).nlink) = fs₂ at h₂
  have hcontents : fs₂.contents = fs'.contents := by
    rw [← hfs₂, contents_setNlink hover.sound]
  have halike : ∀ j, Alike fs fs₂ j := by
    intro j
    refine ⟨?_, ?_, fun _ => by rw [hcontents, hover.contents]⟩
    · rw [← hfs₂, type_setNlink, hover.type]
    · rw [← hfs₂, nlink_setNlink, hover.nlink]
      split
      · next hji => rw [hji]
      · rfl
  have hlaw₂ : Lawful root fs₂ := by
    refine hlawful.congr (hfs₂ ▸ hover.sound.setNlink (by omega)) halike fun j hj => ?_
    have hji : j ≠ i := fun heq => hi.1 (heq ▸ hj)
    rw [← hfs₂, ino_save_of_ne hji, hover.free j hj]
    exact (hlawful.bare j hj).2
  have husers₂ : Users fs₂ (i ::ₘ held) := by
    refine ⟨fun j hj => ?_, fun j hj hz => ?_⟩
    · rw [(halike j).type]
      rcases Multiset.mem_cons.mp hj with rfl | hj
      · exact hi.1
      · exact husers.inUse j hj
    · rw [(halike j).type] at hj
      rw [(halike j).nlink] at hz
      exact Multiset.mem_cons_of_mem (husers.kept j hj hz)
  have hgood := Good.of_table h₂ hlaw₂ husers₂
  obtain ⟨k₃, hrun₃, h₃, hkeeps⟩ := hgood.iunlockput hin
  refine ⟨k₃, ?_, by simpa using h₃, fun j hj => ?_⟩
  · rw [FileSystem.linkBad, hrun₁]
    simp only [Option.bind_eq_bind, Option.bind_some, h₁.fs_eq, hdrop, hrun₃]
    rfl
  · rw [hkeeps j hj, h₂.fs_eq, (halike j).type]

theorem Overcounts.alike (h : Overcounts i fs fs') {j : Fin sb.ninodes} (hj : j ≠ i) :
    Alike fs fs' j :=
  ⟨h.type j, by rw [h.nlink, if_neg hj], fun _ => by rw [h.contents]⟩

theorem Overcounts.dir (h : Overcounts i fs fs') (j : Fin sb.ninodes) : fs'.dir j = fs.dir j :=
  congrArg entries (congrFun h.contents j)

theorem Overcounts.graph (h : Overcounts i fs fs') : fs'.graph =
    { fs.graph with nlink := Function.update fs.graph.nlink i ((fs.ino i).nlink + 1) } := by
  have hnlink : (fs'.ino i).nlink = (fs.ino i).nlink + 1 := by rw [h.nlink, if_pos rfl]
  have hkind : kindOf (fs'.ino i) = fs.graph.kind i := by
    rw [kindOf, h.type]
    rfl
  have hnames : (namesOf (fs'.ino i) (fs'.dir i) : Multiset _) = fs.graph.names i := by
    rw [namesOf, h.type, h.dir]
    rfl
  have hparent : parentOf i (fs'.ino i) (fs'.dir i) = fs.graph.parent i := by
    rw [parentOf, h.type, h.dir]
    rfl
  rw [graph_update fun j hj => h.alike hj, hkind, hnlink, hnames, hparent,
    Function.update_eq_self, Function.update_eq_self, Function.update_eq_self]

theorem Edited.dots {n : ℕ} {e : Dirent} (hed : Edited d n e fs fs')
    (h : ∀ d, (fs.ino d).type = T_DIR → Dots fs d) (hlo : 2 ≤ n) (hn : n ≤ (fs.dir d).length)
    (he : e.inum < sb.ninodes) (hname : ¬e.Named dot ∧ ¬e.Named dotdot) (c : Fin sb.ninodes)
    (hc : (fs.ino c).type = T_DIR) : Dots fs' c := by
  by_cases hcd : c = d
  · subst hcd
    exact (h c hc).edited hed hlo hn he hname
  · exact (h c hc).congr (hed.other c hcd)

/-- The name has been made, so the count is right. -/
theorem Lawful.link {fs₁ fs₂ : Fs sb} {n : ℕ} (h : Lawful root fs) (hmany : sb.ninodes < 32768)
    (hover : Overcounts i fs fs₁) (hd : (fs.ino d).type = T_DIR) (hlink : (fs.ino d).nlink ≠ 0)
    (hi : kindOf (fs.ino i) = .leaf) (hshort : (fs.ino i).nlink < 32767)
    (hn : n ≤ (fs₁.dir d).length) (hfree : ∀ e, (fs₁.dir d)[n]? = some e → e.inum = 0)
    (hnew : ∀ e ∈ fs₁.dir d, ¬e.Named name)
    (hed : Edited d n ⟨i % 65536, strncpy DIRSIZ name⟩ fs₁ fs₂) : Lawful root fs₂ := by
  have hleaf := kindOf_eq_leaf.mp hi
  have hpos := h.ne_zero hleaf.1
  have hd₁ : (fs₁.ino d).type = T_DIR := (hover.type d).trans hd
  have hdots₁ : ∀ c, (fs₁.ino c).type = T_DIR → Dots fs₁ c := fun c hc =>
    (h.dots c ((hover.type c).symm.trans hc)).congr (congrFun hover.contents c)
  have hlo := (hdots₁ d hd₁).two_le hfree
  have hgraph : fs₂.graph = fs.graph.link d (cstr DIRSIZ name) i := by
    rw [graph_edited_names hed hd₁ hlo hn, target_new hmany hpos, names_of_free hd₁ hlo hfree,
      hover.graph]
    rfl
  have hcount : ∀ j, (fs₂.ino j).nlink < 32768 := by
    intro j
    rw [hed.touches.nlink, hover.nlink]
    split
    · omega
    · exact h.short j
  have htarget : (i : ℕ) % 65536 < sb.ninodes := by
    rw [Nat.mod_eq_of_lt (by omega)]
    exact i.isLt
  refine h.relink hed.sound ?_ (by rw [hgraph]; rfl) ?_ ?_ ?_ hcount
  · rw [hgraph]
    refine h.tree.link (live_graph.mpr ⟨hd, hlink⟩) hi ?_
    exact notMem_names hd fun e he => hnew e (by rwa [hover.dir])
  · exact fun j => (hed.touches.type j).trans (hover.type j)
  · intro c hc
    exact hed.dots hdots₁ hlo hn htarget ((hdots₁ d hd₁).not_named hnew _) c
      ((hover.type c).trans hc)
  · intro j hj
    have hjd : j ≠ d := by
      rintro rfl
      rw [hd] at hj
      cases hj
    exact (hed.touches.other j hjd).trans (hover.free j hj)

theorem Users.congr (h : Users fs held) (htype : ∀ j, (fs'.ino j).type = (fs.ino j).type)
    (hnlink : ∀ j, (fs'.ino j).nlink = 0 → (fs.ino j).nlink = 0) : Users fs' held := by
  refine ⟨fun j hj => ?_, fun j hj hz => ?_⟩
  · rw [htype]
    exact h.inUse j hj
  · rw [htype] at hj
    exact h.kept j hj (hnlink j hz)

section

variable (hroot : (root : ℕ) = ROOTINO) (hmany : sb.ninodes < 32768) (hroom : Room 3 held)
  (hcwd : cwd ∈ held)
include hroot hmany hroom hcwd

/-- The state in which `fs'` differs from `fs` by a link of `i` that has no name yet. -/
theorem Overcounts.linkName (hover : Overcounts i fs fs') (h : Table k fs' (i ::ₘ held) ∅)
    (hlawful : Lawful root fs) (husers : Users fs held) (hi : fs.Linked i)
    (hleaf : (fs.ino i).type ≠ T_DIR) (hshort : (fs.ino i).nlink < 32767)
    (hstart : Starts fs cwd path) :
    ∃ r k', linkName cwd i path k = some (r, k') ∧ Good root k' held ∅ ∧
      Keeps held fs k'.fs := by
  have hclosed := hover.closed hlawful.closed hi
  obtain ⟨r, k₁, hrun₁, h₁, hdp⟩ := h.nameiparent hroot (hroom.cons i)
    (Multiset.mem_cons_of_mem hcwd) hclosed (hover.linked hlawful.linked_root)
    (hstart.imp_right hover.linked)
  rw [FileSystem.linkName, hrun₁]
  cases r with
  | none => exact ⟨-1, hover.linkBad h₁ hlawful husers hi⟩
  | some x =>
      obtain ⟨dp, name⟩ := x
      obtain ⟨hlinked, hdir⟩ := hdp (dp, name) rfl
      replace h₁ : Table k₁ fs' (dp ::ₘ i ::ₘ held) ∅ := h₁
      have hin : dp ∈ insert dp (∅ : Finset (Fin sb.ninodes)) := Finset.mem_insert_self dp ∅
      obtain ⟨k₂, hrun₂, h₂⟩ := h₁.ilock hover.sound (Multiset.mem_cons_self dp _)
        (Finset.notMem_empty dp) hlinked.1
      obtain ⟨r, k₃, fs₃, hrun₃, h₃, hdirlinked⟩ := h₂.dirlink hover.sound hdir
        (hclosed.closed dp hdir hlinked.2) ((hroom.cons i).cons dp) (by simp) name i
      have hnlink₃ : ∀ j, fs'.Linked j → (fs₃.ino j).nlink ≠ 0 := by
        intro j hj
        cases hdirlinked with
        | present => exact hj.2
        | failed _ hsame => rw [hsame.touches.nlink]; exact hj.2
        | added _ _ _ _ _ hed => rw [hed.touches.nlink]; exact hj.2
      obtain ⟨k₄, hrun₄, h₄⟩ := h₃.iunlockput hin (.inr (hnlink₃ dp hlinked))
      rw [Finset.erase_insert (Finset.notMem_empty dp)] at h₄
      simp only [Option.bind_eq_bind, Option.bind_some, hrun₂, hrun₃, hrun₄]
      have hd : (fs.ino dp).type = T_DIR := by rw [← hover.type, hdir]
      cases hdirlinked with
      | present e he hname => exact ⟨-1, hover.linkBad h₄ hlawful husers hi⟩
      | failed _ hsame =>
          have hover' := hover.unchanged (by rw [hd]; decide) hsame
          exact ⟨-1, hover'.linkBad h₄ hlawful husers hi⟩
      | added _ n hn hfree hfresh hed =>
          obtain ⟨k₅, hrun₅, h₅⟩ := h₄.iput (.inr (hnlink₃ i (hover.linked hi)))
          have htypes : ∀ j, (fs₃.ino j).type = (fs.ino j).type := fun j =>
            (hed.touches.type j).trans (hover.type j)
          have hlink : (fs.ino dp).nlink ≠ 0 := by
            have hne : dp ≠ i := fun heq => hleaf (heq ▸ hd)
            have := hlinked.2
            rwa [hover.nlink, if_neg hne] at this
          have hlaw := hlawful.link hmany hover hd hlink (kindOf_eq_leaf.mpr ⟨hi.1, hleaf⟩)
            hshort hn hfree hfresh hed
          refine ⟨0, k₅, ?_, .of_table h₅ hlaw (husers.congr htypes fun j hz => ?_), ?_⟩
          · simp [hrun₅]
          · rw [hed.touches.nlink, hover.nlink] at hz
            split at hz
            · cases hz
            · exact hz
          · intro j _
            rw [h₅.fs_eq, htypes]

theorem Good.sysLink (h : Good root k held ∅) {old new : List UInt8}
    (hold : Starts k.fs cwd old) (hnew : Starts k.fs cwd new)
    (hshort : ∀ i, (k.fs.ino i).nlink < 32767) :
    ∃ r k', sysLink cwd old new k = some (r, k') ∧ Good root k' held ∅ ∧
      Keeps held k.fs k'.fs := by
  obtain ⟨r, k₁, hrun₁, hfs₁, h₁, hr⟩ := h.namei hroot (hroom.mono (by omega)) hcwd hold
  rw [FileSystem.sysLink, hrun₁]
  cases r with
  | none => exact ⟨-1, k₁, rfl, h₁, hfs₁ ▸ .refl⟩
  | some ip =>
      have hip : k.fs.Linked ip := hr ip rfl
      have hmem := Multiset.mem_cons_self ip held
      have hin : ip ∈ insert ip (∅ : Finset (Fin sb.ninodes)) := Finset.mem_insert_self ip ∅
      have hempty := Finset.erase_insert (Finset.notMem_empty ip)
      obtain ⟨k₂, hrun₂, hfs₂, h₂⟩ := h₁.ilock hmem (Finset.notMem_empty ip)
      have hfs : k₂.fs = k.fs := hfs₂.trans hfs₁
      simp only [Option.bind_eq_bind, Option.bind_some, hrun₂, hfs]
      by_cases htype : (k.fs.ino ip).type = T_DIR
      · obtain ⟨k₃, hrun₃, h₃, hkeeps⟩ := h₂.iunlockput hin
        rw [hempty] at h₃
        rw [if_pos htype, hrun₃]
        exact ⟨-1, k₃, rfl, h₃, hfs ▸ hkeeps⟩
      · have h₃ : Table (k₂.save ip (k.fs.ino ip).addLink) (k.fs.save ip (k.fs.ino ip).addLink)
            (ip ::ₘ held) _ := (hfs ▸ h₂.table).save hin
        obtain ⟨k₄, hrun₄, h₄⟩ := h₃.iunlock hmem hin
        rw [hempty] at h₄
        rw [if_neg htype, hrun₄]
        exact (overcounts_addLink h.lawful hip).linkName hroot hmany hroom hcwd h₄ h.lawful h.users
          hip htype (hshort ip) hnew

end

end ShellXv6.Xv6.FileSystem
