import ShellXv6.Xv6.NamespaceCalls

/-!
# Removing names

`sys_unlink` clears the entry and takes back the links that it stood for.  A directory is
removed only when it is empty; then the directory above it loses the link of its `..`.
-/

namespace ShellXv6.Xv6.FileSystem

open ShellXv6.CString
open ShellXv6.LinkTree

variable {sb : Superblock} {k : Kernel sb} {fs fs₁ : Fs sb} {held : Multiset (Fin sb.ninodes)}
  {root cwd d i : Fin sb.ninodes} {name path : List UInt8} {n : ℕ}

/-- The entry that `memset` leaves. -/
def noEntry : Dirent := ⟨0, List.replicate 14 0⟩

/-- The names that stay when entry `n` goes. -/
def otherNames (fs : Fs sb) (d : Fin sb.ninodes) (n : ℕ) :
    Multiset (List UInt8 × Fin sb.ninodes) :=
  ((((fs.dir d).drop 2).eraseIdx (n - 2)).filterMap (Dirent.target sb) : List _)

/-- An entry of a live directory and its inode. -/
structure Entry (fs : Fs sb) (d : Fin sb.ninodes) (n : ℕ) (a : List UInt8) (i : Fin sb.ninodes) :
    Prop where
  dir : (fs.ino d).type = T_DIR
  link : (fs.ino d).nlink ≠ 0
  behind : 2 ≤ n
  lt : n < (fs.dir d).length
  names : fs.graph.names d = (a, i) ::ₘ otherNames fs d n

variable {a : List UInt8}

theorem Entry.live (h : Entry fs d n a i) : fs.graph.Live d := live_graph.mpr ⟨h.dir, h.link⟩

theorem Entry.mem (h : Entry fs d n a i) : (a, i) ∈ fs.graph.names d :=
  h.names ▸ Multiset.mem_cons_self _ _

/-- What `dirlookup` finds for a name that is neither `.` nor `..`. -/
theorem entry_of_looked {e : Dirent} (hlawful : Lawful root fs) (hd : (fs.ino d).type = T_DIR)
    (hlink : (fs.ino d).nlink ≠ 0) (hget : (fs.dir d)[n]? = some e) (hname : e.Named name)
    (hinum : (i : ℕ) = e.inum) (hdot : ¬strncmp DIRSIZ name dot = 0)
    (hdotdot : ¬strncmp DIRSIZ name dotdot = 0) : Entry fs d n (cstr DIRSIZ e.name) i := by
  have hdots := hlawful.dots d hd
  rw [strncmp_eq_zero_iff] at hdot hdotdot
  have hn : 2 ≤ n := by
    obtain ⟨e₀, he₀, hname₀, -⟩ := hdots.self
    obtain ⟨e₁, he₁, hname₁⟩ := hdots.up
    match n with
    | 0 =>
        obtain rfl : e₀ = e := Option.some.inj (he₀.symm.trans hget)
        exact absurd (hname.2.symm.trans hname₀.2) hdot
    | 1 =>
        obtain rfl : e₁ = e := Option.some.inj (he₁.symm.trans hget)
        exact absurd (hname.2.symm.trans hname₁.2) hdotdot
    | n + 2 => exact Nat.le_add_left 2 n
  refine ⟨hd, hlink, hn, (List.getElem?_eq_some_iff.mp hget).1, ?_⟩
  rw [names_of_entry hd hn, hget, Option.bind_some, target_eq_some hinum hname.1]
  rfl

theorem graph_cleared (h : Entry fs d n a i) (hed : Edited d n noEntry fs fs₁) :
    fs₁.graph = { fs.graph with
      names := Function.update fs.graph.names d (otherNames fs d n) } := by
  have hnone : noEntry.target sb = none := target_zero rfl
  rw [graph_edited_names hed h.dir h.behind (Nat.le_of_lt h.lt), hnone]
  exact congrArg (fun x => { fs.graph with names := Function.update fs.graph.names d x })
    (zero_add (otherNames fs d n))

theorem Edited.clear_dots (hlawful : Lawful root fs) (h : Entry fs d n a i)
    (hed : Edited d n noEntry fs fs₁) (c : Fin sb.ninodes) (hc : (fs.ino c).type = T_DIR) :
    Dots fs₁ c :=
  hed.dots hlawful.dots h.behind (Nat.le_of_lt h.lt) (Nat.zero_lt_of_lt i.isLt)
    ⟨fun hnamed => hnamed.1 rfl, fun hnamed => hnamed.1 rfl⟩ c hc

theorem Edited.clear_free (h : Entry fs d n a i) (hed : Edited d n noEntry fs fs₁)
    {j : Fin sb.ninodes} (hj : (fs.ino j).type = 0) : fs₁.ino j = fs.ino j := by
  refine hed.touches.other j ?_
  rintro rfl
  rw [h.dir] at hj
  cases hj

theorem Lawful.unlink (hlawful : Lawful root fs) (h : Entry fs d n a i)
    (hi : kindOf (fs.ino i) = .leaf) (hed : Edited d n noEntry fs fs₁) :
    Lawful root (fs₁.save i ((fs₁.ino i).setNlink ((fs.ino i).nlink - 1))) := by
  have hshort := hlawful.short i
  have hgraph : (fs₁.save i ((fs₁.ino i).setNlink ((fs.ino i).nlink - 1))).graph =
      fs.graph.unlink d (otherNames fs d n) i := by
    rw [graph_setNlink hed.sound, graph_cleared h hed]
    rfl
  refine hlawful.relink (hed.sound.setNlink (by omega)) ?_ (by rw [hgraph]; rfl) ?_ ?_ ?_ ?_
  · rw [hgraph]
    exact hlawful.tree.unlink h.live hi h.names
  · exact fun j => (type_setNlink _ j).trans (hed.touches.type j)
  · intro c hc
    refine (hed.clear_dots hlawful h c hc).congr ?_
    rw [contents_setNlink hed.sound]
  · intro j hj
    have hji : j ≠ i := fun heq => (kindOf_eq_leaf.mp hi).1 (heq ▸ hj)
    rw [ino_save_of_ne hji, hed.clear_free h hj]
  · intro j
    rw [nlink_setNlink, hed.touches.nlink]
    have := hlawful.short j
    split <;> omega

/-- The name of an empty directory is gone, its link and the link of its `..`. -/
theorem Lawful.rmdir {fs₂ : Fs sb} (hlawful : Lawful root fs) (h : Entry fs d n a i)
    (hi : kindOf (fs.ino i) = .dir) (hempty : fs.graph.names i = 0)
    (hed : Edited d n noEntry fs fs₁)
    (hfs₂ : fs₁.save d ((fs₁.ino d).setNlink ((fs.ino d).nlink - 1)) = fs₂) :
    Lawful root (fs₂.save i ((fs₂.ino i).setNlink ((fs.ino i).nlink - 1))) := by
  have hshort : ∀ j, (fs.ino j).nlink - 1 < 65536 := fun j => by
    have := hlawful.short j
    omega
  have hsound₂ : Sound fs₂ := hfs₂ ▸ hed.sound.setNlink (hshort d)
  have hgraph₂ : fs₂.graph = { fs₁.graph with
      nlink := Function.update fs₁.graph.nlink d ((fs.ino d).nlink - 1) } := by
    rw [← hfs₂, graph_setNlink hed.sound]
  have hgraph : (fs₂.save i ((fs₂.ino i).setNlink ((fs.ino i).nlink - 1))).graph =
      fs.graph.detach d (otherNames fs d n) i := by
    rw [graph_setNlink hsound₂, hgraph₂, graph_cleared h hed]
    rfl
  have htype₂ : ∀ j, (fs₂.ino j).type = (fs.ino j).type := by
    intro j
    rw [← hfs₂, type_setNlink, hed.touches.type]
  refine hlawful.relink (hsound₂.setNlink (hshort i)) ?_ (by rw [hgraph]; rfl) ?_ ?_ ?_ ?_
  · rw [hgraph]
    exact hlawful.tree.detach h.live hi hempty h.names
  · exact fun j => (type_setNlink _ j).trans (htype₂ j)
  · intro c hc
    refine (hed.clear_dots hlawful h c hc).congr ?_
    rw [contents_setNlink hsound₂, ← hfs₂, contents_setNlink hed.sound]
  · intro j hj
    have hji : j ≠ i := by
      rintro rfl
      rw [kindOf_eq_dir.mp hi] at hj
      cases hj
    have hjd : j ≠ d := by
      rintro rfl
      rw [h.dir] at hj
      cases hj
    rw [ino_save_of_ne hji, ← hfs₂, ino_save_of_ne hjd, hed.clear_free h hj]
  · intro j
    have hj := hlawful.short j
    have hd := hlawful.short d
    have hi := hlawful.short i
    rw [nlink_setNlink, ← hfs₂, nlink_setNlink, hed.touches.nlink]
    split
    · omega
    · split <;> omega

/-- A directory without names is empty to `isdirempty`, and a file passes the check as well. -/
theorem exists_removable (hlawful : Lawful root fs) (i : Fin sb.ninodes) :
    ∃ b, removable i fs = some (b, fs) ∧ (b = true → fs.graph.names i = 0) := by
  unfold removable
  by_cases hi : (fs.ino i).type = T_DIR
  · have hdir : IsDir fs i := ⟨hi, (hlawful.dots i hi).aligned⟩
    refine ⟨_, by rw [if_pos hi, isdirempty_eq hlawful.sound hdir], fun hall => ?_⟩
    rw [names_graph hi, List.filterMap_eq_nil_iff.mpr]
    · rfl
    · intro e he
      exact target_zero (of_decide_eq_true (List.all_eq_true.mp hall e he))
  · refine ⟨true, if_neg hi, fun _ => ?_⟩
    exact if_neg hi

/-- The end of `sys_unlink`: the directory is put, then the inode loses its link and is put. -/
theorem Table.unlinkEnd (h : Table k fs (i ::ₘ d ::ₘ held) (insert i (insert d ∅))) (hid : i ≠ d)
    (hd : (fs.ino d).nlink ≠ 0) (hi : (fs.ino i).nlink ≠ 0) (hshort : (fs.ino i).nlink < 65536)
    (hlawful : Lawful root (fs.save i ((fs.ino i).setNlink ((fs.ino i).nlink - 1))))
    (husers : Users fs (i ::ₘ d ::ₘ held)) :
    ∃ k₁ k₂, FileSystem.iunlockput d k = some k₁ ∧
      FileSystem.iunlockput i (k₁.save i (k₁.fs.ino i).dropLink) = some k₂ ∧ Good root k₂ held ∅ ∧
      Keeps held fs k₂.fs := by
  have hlocks : (insert i (insert d (∅ : Finset (Fin sb.ninodes)))).erase d = insert i ∅ := by
    rw [Finset.insert_comm, Finset.erase_insert]
    simpa using hid.symm
  rw [Multiset.cons_swap] at h
  obtain ⟨k₁, hrun₁, h₁⟩ := h.iunlockput (by simp) (.inr hd)
  rw [hlocks] at h₁
  have hin : i ∈ insert i (∅ : Finset (Fin sb.ninodes)) := Finset.mem_insert_self i ∅
  have h₂ : Table (k₁.save i ((fs.ino i).setNlink ((fs.ino i).nlink - 1))) _ (i ::ₘ held) _ :=
    h₁.save hin
  have husers₂ : Users (fs.save i ((fs.ino i).setNlink ((fs.ino i).nlink - 1))) (i ::ₘ held) := by
    refine ⟨fun j hj => ?_, fun j hj hz => ?_⟩
    · rw [type_setNlink]
      refine husers.inUse j ?_
      rcases Multiset.mem_cons.mp hj with rfl | hj
      · exact Multiset.mem_cons_self _ _
      · exact Multiset.mem_cons_of_mem (Multiset.mem_cons_of_mem hj)
    · rw [type_setNlink] at hj
      rw [nlink_setNlink] at hz
      by_cases hji : j = i
      · exact hji ▸ Multiset.mem_cons_self _ _
      · rw [if_neg hji] at hz
        have hjd : j ≠ d := fun heq => hd (heq ▸ hz)
        have hmem := (Multiset.mem_cons.mp (husers.kept j hj hz)).resolve_left hji
        exact Multiset.mem_cons_of_mem ((Multiset.mem_cons.mp hmem).resolve_left hjd)
  have hgood := Good.of_table h₂ hlawful husers₂
  obtain ⟨k₂, hrun₂, hgood₂, hkeeps⟩ := hgood.iunlockput hin
  rw [Finset.erase_insert (Finset.notMem_empty i)] at hgood₂
  refine ⟨k₁, k₂, hrun₁, ?_, hgood₂, fun j hj => ?_⟩
  · rwa [h₁.fs_eq, dropLink_eq hi hshort]
  · rw [hkeeps j hj, h₂.fs_eq, type_setNlink]

theorem Good.removeEntry (h : Good root k (i ::ₘ d ::ₘ held) (insert i (insert d ∅)))
    (hentry : Entry k.fs d n a i) :
    ∃ r k', removeEntry d i (16 * n) k = some (r, k') ∧ Good root k' held ∅ ∧
      Keeps held k.fs k'.fs := by
  have hlawful := h.lawful
  have htree := hlawful.tree
  have hid : i ≠ d := htree.ne_of_named hentry.live hentry.mem
  have hnlink : (k.fs.ino i).nlink ≠ 0 :=
    Nat.ne_of_gt (htree.nlink_pos hentry.live hentry.mem)
  have hshort := hlawful.short
  have hgo : ¬((k.fs.ino i).nlink = 0 ∨ 32768 ≤ (k.fs.ino i).nlink) := by
    have := hshort i
    omega
  have hnot : i ∉ insert d (∅ : Finset (Fin sb.ninodes)) := by simpa using hid
  have hin : i ∈ insert i (insert d (∅ : Finset (Fin sb.ninodes))) := Finset.mem_insert_self i _
  have hdin : d ∈ insert i (insert d (∅ : Finset (Fin sb.ninodes))) := by simp
  obtain ⟨b, hcheck, hempty⟩ := exists_removable hlawful i
  have hsame : { k with fs := k.fs } = k := rfl
  rw [FileSystem.removeEntry, if_neg hgo, hcheck]
  simp only [Option.bind_eq_bind, Option.bind_some]
  cases b with
  | false =>
      obtain ⟨k₁, hrun₁, h₁, hkeeps₁⟩ := h.iunlockput hin
      rw [Finset.erase_insert hnot] at h₁
      obtain ⟨k₂, hrun₂, h₂, hkeeps₂⟩ := h₁.iunlockput (Finset.mem_insert_self d ∅)
      rw [Finset.erase_insert (Finset.notMem_empty d)] at h₂
      refine ⟨-1, k₂, ?_, h₂, Keeps.trans (hkeeps₁.mono fun j => Multiset.mem_cons_of_mem) hkeeps₂⟩
      simp [hrun₁, hrun₂]
  | true =>
      have haligned := (hlawful.dots d hentry.dir).aligned
      obtain ⟨fs₁, hclear, hed⟩ := exists_clearEntry hlawful.sound haligned hentry.lt
      replace hed : Edited d n noEntry k.fs fs₁ := hed
      have h₁ := h.table.withFs hed.touches.nlink
      have htype₁ := hed.touches.type
      have hnlink₁ := hed.touches.nlink
      have husers₁ := h.users.congr htype₁ fun j hz => (hnlink₁ j).symm.trans hz
      simp only [Bool.not_true, Bool.false_eq_true, if_false, hclear, Option.bind_some, htype₁]
      by_cases htype : (k.fs.ino i).type = T_DIR
      · have hdet := htree.detaches hentry.live (kindOf_eq_dir.mpr htype) (hempty rfl) hentry.names
        have htwo : 2 ≤ (k.fs.ino d).nlink := hdet.two
        have hdrop : (fs₁.ino d).dropLink = (fs₁.ino d).setNlink ((k.fs.ino d).nlink - 1) := by
          have := hshort d
          rw [dropLink_eq (by rw [hnlink₁]; omega) (by rw [hnlink₁]; omega), hnlink₁]
        rw [if_pos htype, hdrop]
        generalize hfs₂ : fs₁.save d ((fs₁.ino d).setNlink ((k.fs.ino d).nlink - 1)) = fs₂
        have h₂ : Table (Kernel.save { k with fs := fs₁ } d
            ((fs₁.ino d).setNlink ((k.fs.ino d).nlink - 1))) fs₂ _ _ := hfs₂ ▸ h₁.save hdin
        have hnlink₂ : ∀ j, (fs₂.ino j).nlink =
            if j = d then (k.fs.ino d).nlink - 1 else (k.fs.ino j).nlink := by
          intro j
          rw [← hfs₂, nlink_setNlink, hnlink₁]
        have htype₂ : ∀ j, (fs₂.ino j).type = (k.fs.ino j).type := by
          intro j
          rw [← hfs₂, type_setNlink, htype₁]
        have hi₂ : (fs₂.ino i).nlink = (k.fs.ino i).nlink := by rw [hnlink₂, if_neg hid]
        have hd₂ : (fs₂.ino d).nlink ≠ 0 := by
          rw [hnlink₂, if_pos rfl]
          omega
        have husers₂ : Users fs₂ (i ::ₘ d ::ₘ held) := by
          refine h.users.congr htype₂ fun j hz => ?_
          have hjd : j ≠ d := fun heq => hd₂ (heq ▸ hz)
          rwa [hnlink₂, if_neg hjd] at hz
        have hlaw := hlawful.rmdir hentry (kindOf_eq_dir.mpr htype) (hempty rfl) hed hfs₂
        rw [← hi₂] at hlaw
        obtain ⟨k₂, k₃, hrun₂, hrun₃, h₃, hkeeps⟩ := h₂.unlinkEnd hid hd₂
          (by rw [hi₂]; exact hnlink) (by rw [hi₂]; have := hshort i; omega) hlaw husers₂
        refine ⟨0, k₃, ?_, h₃, fun j hj => (hkeeps j hj).trans (htype₂ j)⟩
        simp [hrun₂, hrun₃]
      · rw [if_neg htype]
        have hlaw := hlawful.unlink hentry (kindOf_eq_leaf.mpr
          ⟨h.users.inUse i (Multiset.mem_cons_self i _), htype⟩) hed
        rw [← hnlink₁ i] at hlaw
        obtain ⟨k₂, k₃, hrun₂, hrun₃, h₃, hkeeps⟩ := h₁.unlinkEnd hid
          (by rw [hnlink₁]; exact hentry.link) (by rw [hnlink₁]; exact hnlink)
          (by rw [hnlink₁]; have := hshort i; omega) hlaw husers₁
        refine ⟨0, k₃, ?_, h₃, fun j hj => (hkeeps j hj).trans (htype₁ j)⟩
        simp [hrun₂, hrun₃]

theorem Good.sysUnlink (h : Good root k held ∅) (hroot : (root : ℕ) = ROOTINO)
    (hroom : Room 3 held) (hcwd : cwd ∈ held) (hstart : Starts k.fs cwd path) :
    ∃ r k', sysUnlink cwd path k = some (r, k') ∧ Good root k' held ∅ ∧
      Keeps held k.fs k'.fs := by
  obtain ⟨r, k₁, hrun₁, hfs₁, h₁, hr⟩ := h.nameiparent hroot (hroom.mono (by omega)) hcwd hstart
  rw [FileSystem.sysUnlink, hrun₁]
  cases r with
  | none => exact ⟨-1, k₁, rfl, h₁, hfs₁ ▸ .refl⟩
  | some x =>
      obtain ⟨dp, name⟩ := x
      obtain ⟨hlinked, hdir⟩ := hr (dp, name) rfl
      replace h₁ : Good root k₁ (dp ::ₘ held) ∅ := h₁
      have hin : dp ∈ insert dp (∅ : Finset (Fin sb.ninodes)) := Finset.mem_insert_self dp ∅
      have hempty := Finset.erase_insert (Finset.notMem_empty dp)
      obtain ⟨k₂, hrun₂, hfs₂, h₂⟩ := h₁.ilock (Multiset.mem_cons_self dp held)
        (Finset.notMem_empty dp)
      have hfs : k₂.fs = k.fs := hfs₂.trans hfs₁
      simp only [Option.bind_eq_bind, Option.bind_some, hrun₂]
      by_cases hname : strncmp DIRSIZ name dot = 0 ∨ strncmp DIRSIZ name dotdot = 0
      · obtain ⟨k₃, hrun₃, h₃, hkeeps⟩ := h₂.iunlockput hin
        rw [hempty] at h₃
        rw [if_pos hname, hrun₃]
        exact ⟨-1, k₃, rfl, h₃, hfs ▸ hkeeps⟩
      obtain ⟨found, k₃, hrun₃, hfs₃, hlooked, h₃⟩ := h₂.dirlookup (hfs ▸ hdir) (hfs ▸ hlinked.2)
        (hroom.mono (by omega) |>.cons dp) (by simp) name
      rw [if_neg hname, hrun₃, Option.bind_some]
      cases hlooked with
      | absent hnone =>
          obtain ⟨k₄, hrun₄, h₄, hkeeps⟩ := h₃.iunlockput hin
          rw [hempty] at h₄
          refine ⟨-1, k₄, ?_, h₄, ?_⟩
          · simp [hrun₄]
          · rwa [hfs₃, hfs] at hkeeps
      | found e n ip hget hnamed hinum hip =>
          replace h₃ : Good root k₃ (ip ::ₘ dp ::ₘ held) (insert dp ∅) := h₃
          rw [not_or] at hname
          have hentry : Entry k₂.fs dp n (cstr DIRSIZ e.name) ip :=
            entry_of_looked h₂.lawful (hfs ▸ hdir) (hfs ▸ hlinked.2) hget hnamed hinum hname.1
              hname.2
          have hne : ip ≠ dp := h₂.lawful.tree.ne_of_named hentry.live hentry.mem
          obtain ⟨k₄, hrun₄, hfs₄, h₄⟩ := h₃.ilock (Multiset.mem_cons_self ip _)
            (by simpa using hne)
          have hfs₄' : k₄.fs = k₂.fs := hfs₄.trans hfs₃
          obtain ⟨r, k₅, hrun₅, h₅, hkeeps⟩ := h₄.removeEntry (hfs₄' ▸ hentry)
          refine ⟨r, k₅, ?_, h₅, ?_⟩
          · simp [hrun₄, hrun₅]
          · rwa [hfs₄', hfs] at hkeeps

end ShellXv6.Xv6.FileSystem
