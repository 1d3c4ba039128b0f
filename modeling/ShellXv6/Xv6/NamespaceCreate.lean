import ShellXv6.Xv6.NamespaceCalls

/-!
# Making inodes with names

`create` takes a free inode, counts the link of the name it will have, gives a directory its
first two entries and makes the name.  When there is no room for an entry, the inode is given
back with all its blocks.
-/

namespace ShellXv6.Xv6.FileSystem

open ShellXv6.CString
open ShellXv6.LinkTree

variable {sb : Superblock} {k : Kernel sb} {fs fs₁ fs₂ : Fs sb}
  {held : Multiset (Fin sb.ninodes)} {locks : Finset (Fin sb.ninodes)}
  {root cwd d i : Fin sb.ninodes} {name path : List UInt8} {n type major minor : ℕ}

/-- A free inode has been taken; other inodes look as before. -/
structure Begun (i : Fin sb.ninodes) (type : ℕ) (fs fs' : Fs sb) : Prop where
  sound : Sound fs'
  alike : ∀ j, j ≠ i → Alike fs fs' j
  free : ∀ j, j ≠ i → (fs.ino j).type = 0 → fs'.ino j = fs.ino j
  type : (fs'.ino i).type = type
  nlink : (fs'.ino i).nlink = 1

theorem Begun.linked (h : Begun i type fs fs₁) (hfree : (fs.ino i).type = 0) {j : Fin sb.ninodes}
    (hj : fs.Linked j) : fs₁.Linked j := by
  have hji : j ≠ i := fun heq => hj.1 (heq ▸ hfree)
  refine ⟨?_, ?_⟩
  · rw [(h.alike j hji).type]
    exact hj.1
  · rw [(h.alike j hji).nlink]
    exact hj.2

theorem Begun.closedAt (h : Begun i type fs fs₁) (hfree : (fs.ino i).type = 0)
    (hd : (fs.ino d).type = T_DIR) (hdi : d ≠ i) (hclosed : ClosedAt fs d) : ClosedAt fs₁ d := by
  have hcontents := (h.alike d hdi).contents hd
  have hdir : fs₁.dir d = fs.dir d := congrArg entries hcontents
  refine ⟨hcontents ▸ hclosed.aligned, fun e he hz => ?_⟩
  obtain ⟨j, hj, hlinked⟩ := hclosed.entry e (hdir ▸ he) hz
  exact ⟨j, hj, h.linked hfree hlinked⟩

theorem Begun.unchanged (h : Begun i type fs fs₁) (hd : d = i ∨ (fs.ino d).type ≠ 0)
    (hsame : Unchanged d fs₁ fs₂) : Begun i type fs fs₂ where
  sound := hsame.sound
  alike j hj := by
    obtain ⟨htype, hnlink, hcontents⟩ := h.alike j hj
    obtain ⟨htype', hnlink', hcontents'⟩ := hsame.alike j
    exact ⟨htype'.trans htype, hnlink'.trans hnlink, fun hdir =>
      (hcontents' (htype.trans hdir)).trans (hcontents hdir)⟩
  free j hj hz := by
    have hjd : j ≠ d := by
      rintro rfl
      exact hd.elim hj fun hne => hne hz
    exact (hsame.touches.other j hjd).trans (h.free j hj hz)
  type := (hsame.touches.type i).trans h.type
  nlink := (hsame.touches.nlink i).trans h.nlink

theorem Begun.edited {e : Dirent} (h : Begun i type fs fs₁) (hed : Edited i n e fs₁ fs₂) :
    Begun i type fs fs₂ where
  sound := hed.sound
  alike j hj := by
    obtain ⟨htype, hnlink, hcontents⟩ := h.alike j hj
    obtain ⟨htype', hnlink', hcontents'⟩ := hed.alike hj
    exact ⟨htype'.trans htype, hnlink'.trans hnlink, fun hdir =>
      (hcontents' (htype.trans hdir)).trans (hcontents hdir)⟩
  free j hj hz := (hed.touches.other j hj).trans (h.free j hj hz)
  type := (hed.touches.type i).trans h.type
  nlink := (hed.touches.nlink i).trans h.nlink

/-- The inode that `ialloc` found, with the members that `create` sets. -/
theorem begun_initial (hsound : Sound fs)
    (hbare : (fs.ino i).size = 0 ∧ ∀ k, (fs.ino i).addrs k = 0) (hshort : type < 65536)
    (major minor : ℕ) :
    let fs' := (fs.save i (blankInode type)).save i ((blankInode type).initial major minor)
    Begun i type fs fs' ∧ fs'.contents i = [] := by
  intro fs'
  have hdata := sameData_blank type hbare.1 hbare.2
  have hzero : (0 : ℕ) < 65536 := by decide
  have hblank := hsound.save hdata ⟨hshort, hzero, hzero, hzero⟩
  have hmod : ∀ m : ℕ, m % 65536 < 65536 := fun m => Nat.mod_lt m hzero
  have hdata' : ((blankInode type).initial major minor).SameData
      ((fs.save i (blankInode type)).ino i) := by
    rw [ino_save_self]
    exact ⟨rfl, rfl⟩
  have hcontents : fs'.contents = fs.contents :=
    (contents_save hblank hdata').trans (contents_save hsound hdata)
  have hother : ∀ j, j ≠ i → fs'.ino j = fs.ino j := fun j hj =>
    (ino_save_of_ne hj).trans (ino_save_of_ne hj)
  have hself : fs'.ino i = (blankInode type).initial major minor := ino_save_self
  refine ⟨⟨hblank.save hdata' ⟨hshort, hmod major, hmod minor, ?_⟩, fun j hj => ?_,
    fun j hj _ => hother j hj, ?_, ?_⟩, ?_⟩
  · exact Nat.one_lt_succ_succ _
  · exact ⟨by rw [hother j hj], by rw [hother j hj], fun _ => by rw [hcontents]⟩
  · rw [hself]
    rfl
  · rw [hself]
    rfl
  · rw [hcontents, contents_eq_nil hbare.1]

/-! ## The first two entries -/

/-- What a new directory holds. -/
structure Begins (i d : Fin sb.ninodes) (fs : Fs sb) : Prop where
  aligned : Aligned (fs.contents i)
  dir : fs.dir i = [⟨i % 65536, strncpy DIRSIZ dot⟩, ⟨d % 65536, strncpy DIRSIZ dotdot⟩]

theorem Begins.dots (h : Begins i d fs) (hmany : sb.ninodes < 32768) (hi : (i : ℕ) ≠ 0)
    (hd : (d : ℕ) ≠ 0) : Dots fs i := by
  have hmod : ∀ j : Fin sb.ninodes, (j : ℕ) % 65536 = j := fun j =>
    Nat.mod_eq_of_lt (by omega)
  refine ⟨h.aligned, ⟨_, by rw [h.dir]; rfl, ⟨?_, cstr_strncpy DIRSIZ dot⟩, hmod i⟩,
    ⟨_, by rw [h.dir]; rfl, ?_, cstr_strncpy DIRSIZ dotdot⟩, fun e he => ?_, fun e he => ?_⟩
  · rwa [hmod]
  · rwa [hmod]
  · rw [h.dir] at he
    exact absurd he List.not_mem_nil
  · rw [h.dir] at he
    simp only [List.mem_cons, List.not_mem_nil, or_false] at he
    rcases he with rfl | rfl
    · exact (hmod i).symm ▸ i.isLt
    · exact (hmod d).symm ▸ d.isLt

theorem Begun.makeDots (hbegun : Begun i T_DIR fs fs₁) (h : Table k fs₁ held locks)
    (hnil : fs₁.contents i = []) (hmany : sb.ninodes < 32768) (hi : (i : ℕ) ≠ 0)
    (hroom : Room 1 held) (hlocks : ∀ j ∈ locks, j ∈ held) :
    ∃ r k' fs', makeDots T_DIR i d k = some (r, k') ∧ Table k' fs' held locks ∧
      Begun i T_DIR fs fs' ∧ (r < 0 ∨ r = 0 ∧ Begins i d fs') := by
  have hmod : (i : ℕ) % 65536 = i := Nat.mod_eq_of_lt (by omega)
  have hdir₁ : fs₁.dir i = [] := by
    rw [Fs.dir, hnil]
    rfl
  have hclosed₁ : ClosedAt fs₁ i := ⟨by rw [hnil]; rfl, fun e he => by rw [hdir₁] at he; cases he⟩
  obtain ⟨r, k₂, fs₂, hrun₂, h₂, hdirlinked⟩ := h.dirlink hbegun.sound hbegun.type hclosed₁ hroom
    hlocks dot i
  rw [FileSystem.makeDots, if_pos rfl, hrun₂]
  cases hdirlinked with
  | present e he => exact ⟨-1, k₂, fs₁, rfl, h₂, hbegun, .inl (by decide)⟩
  | failed _ hsame =>
      exact ⟨-1, k₂, fs₂, rfl, h₂, hbegun.unchanged (.inl rfl) hsame, .inl (by decide)⟩
  | added _ n hn hfree hnew hed =>
      have hbegun₂ := hbegun.edited hed
      have hdir₂ : fs₂.dir i = [⟨i % 65536, strncpy DIRSIZ dot⟩] := by
        rw [hdir₁, List.length_nil, Nat.le_zero] at hn
        rw [hed.dir, hdir₁, hn]
        rfl
      have hclosed₂ : ClosedAt fs₂ i := by
        refine ⟨hed.aligned, fun e he _ => ⟨i, ?_, ?_⟩⟩
        · rw [hdir₂, List.mem_singleton] at he
          rw [he, hmod]
        · exact ⟨by rw [hbegun₂.type]; decide, by rw [hbegun₂.nlink]; decide⟩
      obtain ⟨r, k₃, fs₃, hrun₃, h₃, hdirlinked⟩ := h₂.dirlink hbegun₂.sound hbegun₂.type hclosed₂
        hroom hlocks dotdot d
      refine ⟨r, k₃, fs₃, hrun₃, h₃, ?_⟩
      cases hdirlinked with
      | present e he => exact ⟨hbegun₂, .inl (by decide)⟩
      | failed _ hsame => exact ⟨hbegun₂.unchanged (.inl rfl) hsame, .inl (by decide)⟩
      | added _ n hn hfree hnew hed₃ =>
          refine ⟨hbegun₂.edited hed₃, .inr ⟨rfl, hed₃.aligned, ?_⟩⟩
          rw [hdir₂] at hn hfree
          have hone : n = 1 := by
            have hpos : n ≠ 0 := by
              rintro rfl
              exact hi (hmod.symm.trans (hfree _ rfl))
            rw [List.length_singleton] at hn
            omega
          rw [hed₃.dir, hdir₂, hone]
          rfl

theorem Begun.makeEntries (hbegun : Begun i type fs fs₁) (h : Table k fs₁ held locks)
    (hnil : fs₁.contents i = []) (hmany : sb.ninodes < 32768) (hi : (i : ℕ) ≠ 0)
    (hroom : Room 1 held) (hlocks : ∀ j ∈ locks, j ∈ held) (d : Fin sb.ninodes) :
    ∃ r k' fs', FileSystem.makeDots type i d k = some (r, k') ∧ Table k' fs' held locks ∧
      Begun i type fs fs' ∧ (r < 0 ∨ r = 0 ∧ (type = T_DIR → Begins i d fs')) := by
  by_cases htype : type = T_DIR
  · subst htype
    obtain ⟨r, k', fs', hrun, h', hbegun', hr⟩ :=
      hbegun.makeDots (d := d) h hnil hmany hi hroom hlocks
    exact ⟨r, k', fs', hrun, h', hbegun', hr.imp_right fun hr => ⟨hr.1, fun _ => hr.2⟩⟩
  · exact ⟨0, k, fs₁, if_neg htype, h, hbegun, .inr ⟨rfl, fun heq => absurd heq htype⟩⟩

/-! ## Giving the inode back -/

theorem Begun.createFail (hbegun : Begun i type fs fs₁)
    (h : Table k fs₁ (i ::ₘ d ::ₘ held) (insert i (insert d ∅))) (hlawful : Lawful root fs)
    (husers : Users fs (d ::ₘ held)) (hfree : (fs.ino i).type = 0) :
    ∃ k', createFail d i k = some (none, k') ∧ Good root k' held ∅ ∧ Keeps held fs k'.fs := by
  have hunheld : ∀ j ∈ d ::ₘ held, j ≠ i := fun j hj heq => husers.inUse j hj (heq ▸ hfree)
  have hdi := hunheld d (Multiset.mem_cons_self d held)
  have hnot : i ∉ insert d (∅ : Finset (Fin sb.ninodes)) := by simpa using hdi.symm
  have hin : i ∈ insert i (insert d (∅ : Finset (Fin sb.ninodes))) := Finset.mem_insert_self i _
  have hsound₂ : Sound (fs₁.save i ((fs₁.ino i).setNlink 0)) := hbegun.sound.setNlink (by decide)
  have h₂ : Table (k.save i ((fs₁.ino i).setNlink 0)) (fs₁.save i ((fs₁.ino i).setNlink 0)) _ _ :=
    h.save hin
  obtain ⟨k₃, hrun₃, h₃⟩ := h₂.iunlock (Multiset.mem_cons_self i _) hin
  rw [Finset.erase_insert hnot] at h₃
  obtain ⟨k₄, fs₄, hrun₄, h₄, hfreed⟩ := h₃.iput_free hsound₂
    (fun hi => hunheld i hi rfl) hnot (by rw [ino_save_self]; rfl)
  have hcontents : (fs₁.save i ((fs₁.ino i).setNlink 0)).contents = fs₁.contents :=
    contents_setNlink hbegun.sound 0
  have halike : ∀ j, Alike fs fs₄ j := by
    intro j
    by_cases hji : j = i
    · subst hji
      refine ⟨hfreed.type.trans hfree.symm, ?_, fun hdir => ?_⟩
      · rw [hfreed.nlink, ino_save_self, (hlawful.bare j hfree).1]
        rfl
      · rw [hfree] at hdir
        cases hdir
    · obtain ⟨htype, hnlink, hsame⟩ := hbegun.alike j hji
      obtain ⟨htype', hnlink', hsame'⟩ := hfreed.alike hji
      rw [ino_save_of_ne hji] at htype' hnlink' hsame'
      refine ⟨htype'.trans htype, hnlink'.trans hnlink, fun hdir => ?_⟩
      rw [hsame' (htype.trans hdir), hcontents, hsame hdir]
  have hlaw : Lawful root fs₄ := by
    refine hlawful.congr hfreed.sound halike fun j hj => ?_
    by_cases hji : j = i
    · subst hji
      exact ⟨hfreed.size, hfreed.addrs⟩
    · rw [hfreed.other j hji, ino_save_of_ne hji, hbegun.free j hji hj]
      exact (hlawful.bare j hj).2
  have husers₄ : Users fs₄ (d ::ₘ held) :=
    husers.congr (fun j => (halike j).type) fun j hz => (halike j).nlink.symm.trans hz
  obtain ⟨k₅, hrun₅, h₅, hkeeps⟩ :=
    (Good.of_table h₄ hlaw husers₄).iunlockput (Finset.mem_insert_self d ∅)
  rw [Finset.erase_insert (Finset.notMem_empty d)] at h₅
  refine ⟨k₅, ?_, h₅, fun j hj => ?_⟩
  · rw [FileSystem.createFail, FileSystem.iunlockput, h.fs_eq, hrun₃]
    simp [hrun₄, hrun₅]
  · rw [hkeeps j hj, h₄.fs_eq, (halike j).type]

/-! ## The new name -/

theorem Begun.names (hbegun : Begun i type fs fs₁) (hdi : d ≠ i) :
    fs₁.graph.names d = fs.graph.names d :=
  (hbegun.alike d hdi).names

theorem Begun.graph (hbegun : Begun i type fs fs₁) : fs₁.graph =
    { kind := Function.update fs.graph.kind i (kindOf (fs₁.ino i))
      nlink := Function.update fs.graph.nlink i 1
      names := Function.update fs.graph.names i (namesOf (fs₁.ino i) (fs₁.dir i))
      parent := Function.update fs.graph.parent i (parentOf i (fs₁.ino i) (fs₁.dir i)) } := by
  rw [graph_update hbegun.alike, hbegun.nlink]

/-- The directory in which the name of the new inode is made. -/
structure Place (d i : Fin sb.ninodes) (n : ℕ) (name : List UInt8) (fs fs₁ fs₂ : Fs sb) :
    Prop where
  dir : (fs.ino d).type = T_DIR
  link : (fs.ino d).nlink ≠ 0
  free : (fs.ino i).type = 0
  pos : (i : ℕ) ≠ 0
  le : n ≤ (fs₁.dir d).length
  gap : ∀ e, (fs₁.dir d)[n]? = some e → e.inum = 0
  fresh : ∀ e ∈ fs₁.dir d, ¬e.Named name
  edited : Edited d n ⟨i % 65536, strncpy DIRSIZ name⟩ fs₁ fs₂

theorem Place.ne (h : Place d i n name fs fs₁ fs₂) : d ≠ i := by
  intro heq
  have := h.dir
  rw [heq, h.free] at this
  cases this

theorem Place.unlive (h : Place d i n name fs fs₁ fs₂) : ¬fs.graph.Live i := by
  intro hlive
  have := (live_graph.mp hlive).1
  rw [h.free] at this
  cases this

theorem Place.free_eq (h : Place d i n name fs fs₁ fs₂) (hbegun : Begun i type fs fs₁)
    {j : Fin sb.ninodes} (hji : j ≠ i) (hj : (fs.ino j).type = 0) :
    j ≠ d ∧ fs₂.ino j = fs.ino j := by
  have hjd : j ≠ d := by
    rintro rfl
    rw [h.dir] at hj
    cases hj
  exact ⟨hjd, (h.edited.touches.other j hjd).trans (hbegun.free j hji hj)⟩

section

variable (h : Place d i n name fs fs₁ fs₂) (hbegun : Begun i type fs fs₁)
  (hlawful : Lawful root fs)
include h hbegun hlawful

theorem Place.dots : Dots fs₁ d :=
  (hlawful.dots d h.dir).congr ((hbegun.alike d h.ne).contents h.dir)

theorem Place.graph (hmany : sb.ninodes < 32768) : fs₂.graph = { fs₁.graph with
    names := Function.update fs₁.graph.names d ((cstr DIRSIZ name, i) ::ₘ fs.graph.names d) } := by
  have hd₁ : (fs₁.ino d).type = T_DIR := (hbegun.alike d h.ne).type.trans h.dir
  have hlo := (h.dots hbegun hlawful).two_le h.gap
  rw [graph_edited_names h.edited hd₁ hlo h.le, target_new hmany h.pos,
    names_of_free hd₁ hlo h.gap, hbegun.names h.ne]
  rfl

/-- The new inode is in the tree, but has no name yet. -/
theorem Place.tree (m : Kind) : IsTree root (fs.graph.rekind i m) ∧
    (fs.graph.rekind i m).Live d ∧
    cstr DIRSIZ name ∉ ((fs.graph.rekind i m).names d).map Prod.fst := by
  have hdead := h.unlive
  have hnames : (fs.graph.rekind i m).names d = fs.graph.names d := Function.update_of_ne h.ne _ _
  refine ⟨hlawful.tree.rekind m (fun _ => (hlawful.bare i h.free).1) hdead,
    (live_rekind hdead).mpr (live_graph.mpr ⟨h.dir, h.link⟩), ?_⟩
  rw [hnames, ← hbegun.names h.ne]
  exact notMem_names ((hbegun.alike d h.ne).type.trans h.dir) h.fresh

theorem Place.dots_of_ne (hmany : sb.ninodes < 32768) {c : Fin sb.ninodes} (hci : c ≠ i)
    (hc : (fs.ino c).type = T_DIR) : Dots fs₂ c := by
  have hlo := (h.dots hbegun hlawful).two_le h.gap
  have htarget : (i : ℕ) % 65536 < sb.ninodes := by
    rw [Nat.mod_eq_of_lt (by omega)]
    exact i.isLt
  by_cases hcd : c = d
  · subst hcd
    have hdots := h.dots hbegun hlawful
    exact hdots.edited h.edited hlo h.le htarget (hdots.not_named h.fresh _)
  · refine (hlawful.dots c hc).congr ?_
    rw [h.edited.other c hcd, (hbegun.alike c hci).contents hc]

/-- The name is made, and perhaps the count of the directory has changed. -/
theorem Place.lawful {fs₃ : Fs sb} (hmany : sb.ninodes < 32768) (hzero : type ≠ 0)
    (hsound : Sound fs₃) (htype₃ : ∀ j, (fs₃.ino j).type = (fs₂.ino j).type)
    (hino : ∀ j, j ≠ d → fs₃.ino j = fs₂.ino j) (hcontents : fs₃.contents = fs₂.contents)
    (htree : IsTree root fs₃.graph)
    (hparent : ∀ j, j ≠ i → fs₃.graph.parent j = fs.graph.parent j)
    (hdots : type = T_DIR → Dots fs₃ i) (hshort : (fs₃.ino d).nlink < 32768) :
    Lawful root fs₃ := by
  have hroot : root ≠ i := hlawful.tree.top.ne _ h.unlive
  have hself : (fs₃.ino i).type = type := by
    rw [htype₃, h.edited.touches.type, hbegun.type]
  have htypes : ∀ j, j ≠ i → (fs₃.ino j).type = (fs.ino j).type := fun j hj =>
    (htype₃ j).trans ((h.edited.touches.type j).trans (hbegun.alike j hj).type)
  refine ⟨hsound, htree, (hparent root hroot).trans hlawful.top, fun c hc => ?_, fun j hj => ?_,
    fun j => ?_, fun j hj => ?_⟩
  · by_cases hci : c = i
    · subst hci
      exact hdots (hself.symm.trans hc)
    · refine (h.dots_of_ne hbegun hlawful hmany hci ((htypes c hci).symm.trans hc)).congr ?_
      rw [hcontents]
  · have hji : j ≠ i := by
      rintro rfl
      exact hzero (hself.symm.trans hj)
    have hj' := (htypes j hji).symm.trans hj
    obtain ⟨hjd, heq⟩ := h.free_eq hbegun hji hj'
    rw [hino j hjd, heq]
    exact hlawful.bare j hj'
  · by_cases hjd : j = d
    · rwa [hjd]
    · rw [hino j hjd, h.edited.touches.nlink]
      by_cases hji : j = i
      · rw [hji, hbegun.nlink]
        decide
      · rw [(hbegun.alike j hji).nlink]
        exact hlawful.short j
  · have hji : j ≠ i := fun heq => h.pos (heq ▸ hj)
    rw [htypes j hji]
    exact hlawful.unused j hj

theorem Lawful.create (hmany : sb.ninodes < 32768) (hzero : type ≠ 0) (htype : type ≠ T_DIR) :
    Lawful root fs₂ := by
  have hne : (fs₁.ino i).type ≠ T_DIR := by rwa [hbegun.type]
  have hleaf : kindOf (fs₁.ino i) = .leaf := by
    rw [kindOf_eq_leaf, hbegun.type]
    exact ⟨hzero, htype⟩
  have hgraph : fs₂.graph = (fs.graph.rekind i .leaf).link d (cstr DIRSIZ name) i := by
    rw [h.graph hbegun hlawful hmany, hbegun.graph, hleaf, namesOf, parentOf, if_neg hne,
      if_neg hne, LinkGraph.link, LinkGraph.rekind]
    simp [h.ne]
  obtain ⟨htree, hlive, hnew⟩ := h.tree hbegun hlawful .leaf
  refine h.lawful hbegun hlawful hmany hzero h.edited.sound (fun _ => rfl) (fun _ _ => rfl) rfl ?_
    (fun j hj => ?_) (fun heq => absurd heq htype) ?_
  · rw [hgraph]
    exact htree.link hlive (Function.update_self ..) hnew
  · rw [hgraph]
    exact Function.update_of_ne hj _ _
  · rw [h.edited.touches.nlink, (hbegun.alike d h.ne).nlink]
    exact hlawful.short d

end

theorem Lawful.mkdir (h : Place d i n name fs fs₁ fs₂) (hbegun : Begun i T_DIR fs fs₁)
    (hlawful : Lawful root fs) (hmany : sb.ninodes < 32768) (hbegins : Begins i d fs₁) :
    Lawful root (fs₂.save d ((fs₂.ino d).setNlink ((fs.ino d).nlink + 1))) := by
  have hd : (d : ℕ) ≠ 0 := hlawful.ne_zero (by rw [h.dir]; decide)
  have hdots₁ := hbegins.dots hmany h.pos hd
  have hshort := hlawful.short d
  have hdir : kindOf (fs₁.ino i) = .dir := kindOf_eq_dir.mpr hbegun.type
  have hnames : (namesOf (fs₁.ino i) (fs₁.dir i) : Multiset (List UInt8 × Fin sb.ninodes)) = 0 := by
    rw [namesOf, if_pos hbegun.type, hbegins.dir]
    rfl
  have hparent : parentOf i (fs₁.ino i) (fs₁.dir i) = d := by
    rw [parentOf, if_pos hbegun.type, hbegins.dir]
    exact congrArg (fun x => Option.elim x i Prod.snd) (target_new hmany hd dotdot)
  have hgraph : (fs₂.save d ((fs₂.ino d).setNlink ((fs.ino d).nlink + 1))).graph =
      (fs.graph.rekind i .dir).attach d (cstr DIRSIZ name) i := by
    rw [graph_setNlink h.edited.sound, h.graph hbegun hlawful hmany, hbegun.graph, hdir, hnames,
      hparent, LinkGraph.attach, LinkGraph.rekind]
    simp only [LinkGraph.mk.injEq, Function.update_idem, true_and, and_true,
      Function.update_of_ne h.ne]
    rw [Function.update_comm h.ne.symm, Function.update_comm h.ne.symm, Function.update_idem]
    rfl
  obtain ⟨htree, hlive, hnew⟩ := h.tree hbegun hlawful .dir
  have htree' := htree.attach hlive (Function.update_self ..) (Function.update_self ..) hnew
  rw [← hgraph] at htree'
  have hlive' : (fs₂.save d ((fs₂.ino d).setNlink ((fs.ino d).nlink + 1))).graph.Live d := by
    rw [hgraph]
    exact (live_attach hlive (Function.update_self ..) d).mpr (.inl hlive)
  have hcount := htree'.nlink_le hlive'
  rw [Fintype.card_fin] at hcount
  refine h.lawful hbegun hlawful hmany (by decide) (h.edited.sound.setNlink (by omega))
    (type_setNlink _) (fun j hj => ino_save_of_ne hj) (contents_setNlink h.edited.sound _) htree'
    (fun j hj => ?_) (fun _ => ?_) (Nat.lt_of_le_of_lt hcount hmany)
  · rw [hgraph]
    exact (Function.update_of_ne hj _ _).trans (Function.update_of_ne hj _ _)
  · refine hdots₁.congr ?_
    rw [contents_setNlink h.edited.sound, h.edited.other i h.ne.symm]

/-! ## create -/

/-- The inode that a call returns is locked. -/
def lockOf (r : Option (Fin sb.ninodes)) : Finset (Fin sb.ninodes) := r.elim ∅ (insert · ∅)

/-- The end of `create` when the name has been made. -/
theorem Begun.createEnd (hbegun : Begun i type fs fs₁)
    (h : Table k fs₂ (i ::ₘ d ::ₘ held) (insert i (insert d ∅))) (hlawful : Lawful root fs₂)
    (husers : Users fs (d ::ₘ held)) (hzero : type ≠ 0) (hfree : (fs.ino i).type = 0)
    (hd : (fs₂.ino d).nlink ≠ 0) (htype : ∀ j, (fs₂.ino j).type = (fs₁.ino j).type)
    (hnlink : ∀ j, j ≠ d → (fs₂.ino j).nlink = (fs₁.ino j).nlink) :
    ∃ k', iunlockput d k = some k' ∧ Good root k' (i ::ₘ held) (insert i ∅) ∧
      Keeps held fs k'.fs ∧ (k'.fs.ino i).type = type := by
  have hunheld : ∀ j ∈ d ::ₘ held, j ≠ i := fun j hj heq => husers.inUse j hj (heq ▸ hfree)
  have hdi := hunheld d (Multiset.mem_cons_self d held)
  have hlocks : (insert i (insert d (∅ : Finset (Fin sb.ninodes)))).erase d = insert i ∅ := by
    rw [Finset.insert_comm, Finset.erase_insert]
    simpa using hdi
  rw [Multiset.cons_swap] at h
  obtain ⟨k', hrun, h'⟩ := h.iunlockput (by simp) (.inr hd)
  rw [hlocks] at h'
  have hself : (fs₂.ino i).type = type := (htype i).trans hbegun.type
  have hkeeps : Keeps held fs fs₂ := fun j hj =>
    (htype j).trans (hbegun.alike j (hunheld j (Multiset.mem_cons_of_mem hj))).type
  refine ⟨k', hrun, .of_table h' hlawful ⟨fun j hj => ?_, fun j hj hz => ?_⟩, h'.fs_eq ▸ hkeeps,
    h'.fs_eq ▸ hself⟩
  · rcases Multiset.mem_cons.mp hj with rfl | hj
    · rwa [hself]
    · rw [hkeeps j hj]
      exact husers.inUse j (Multiset.mem_cons_of_mem hj)
  · by_cases hji : j = i
    · exact hji ▸ Multiset.mem_cons_self _ _
    · have hjd : j ≠ d := fun heq => hd (heq ▸ hz)
      rw [htype, (hbegun.alike j hji).type] at hj
      rw [hnlink j hjd, (hbegun.alike j hji).nlink] at hz
      exact Multiset.mem_cons_of_mem
        ((Multiset.mem_cons.mp (husers.kept j hj hz)).resolve_left hjd)

theorem Good.createInode (h : Good root k (d ::ₘ held) (insert d ∅))
    (hmany : sb.ninodes < 32768) (hroom : Room 2 (d ::ₘ held))
    (hd : (k.fs.ino d).type = T_DIR) (hlink : (k.fs.ino d).nlink ≠ 0) (hzero : type ≠ 0)
    (hshort : type < 65536) (name : List UInt8) (major minor : ℕ) :
    ∃ r k', createInode d name type major minor k = some (r, k') ∧
      Good root k' (hold r held) (lockOf r) ∧ Keeps held k.fs k'.fs ∧
      ∀ i ∈ r, (k'.fs.ino i).type = type := by
  have hlocks : ∀ j ∈ insert d (∅ : Finset (Fin sb.ninodes)), j ∈ d ::ₘ held := by simp
  rw [FileSystem.createInode]
  cases h.table.ialloc h.lawful.sound (hroom.mono (by omega)) h.users.inUse hlocks hzero hshort with
  | full hrun =>
      obtain ⟨k₁, hrun₁, h₁, hkeeps⟩ := h.iunlockput (Finset.mem_insert_self d ∅)
      rw [Finset.erase_insert (Finset.notMem_empty d)] at h₁
      refine ⟨none, k₁, ?_, h₁, hkeeps, fun i hi => by cases hi⟩
      simp [hrun, hrun₁]
  | found i k₁ k₂ hrun hlock hpos hfree h₂ =>
      have hin : i ∈ insert i (insert d (∅ : Finset (Fin sb.ninodes))) := Finset.mem_insert_self i _
      have hlocks₂ : ∀ j ∈ insert i (insert d (∅ : Finset (Fin sb.ninodes))),
          j ∈ i ::ₘ d ::ₘ held := by
        intro j hj
        rcases Finset.mem_insert.mp hj with rfl | hj
        · exact Multiset.mem_cons_self _ _
        · exact Multiset.mem_cons_of_mem (hlocks j hj)
      have hino : k₂.fs.ino i = blankInode type := by
        rw [h₂.fs_eq, ino_save_self]
      obtain ⟨hbegun, hnil⟩ := begun_initial h.lawful.sound (h.lawful.bare i hfree).2 hshort
        major minor
      have h₃ : Table (k₂.save i ((blankInode type).initial major minor)) _ _ _ := h₂.save hin
      generalize (k.fs.save i (blankInode type)).save i ((blankInode type).initial major minor)
        = fs₃ at hbegun hnil h₃
      obtain ⟨r, k₄, fs₄, hrun₄, h₄, hbegun₄, hr⟩ := hbegun.makeEntries h₃ hnil hmany hpos
        (hroom.cons i) hlocks₂ d
      simp only [Option.bind_eq_bind, hrun, Option.bind_some, hlock, hino, hrun₄]
      have hfail : ∀ {k₅ : Kernel sb} {fs₅ : Fs sb}, Begun i type k.fs fs₅ →
          Table k₅ fs₅ (i ::ₘ d ::ₘ held) (insert i (insert d ∅)) →
          ∃ r k', createFail d i k₅ = some (r, k') ∧ Good root k' (hold r held) (lockOf r) ∧
            Keeps held k.fs k'.fs ∧ ∀ i ∈ r, (k'.fs.ino i).type = type := by
        intro k₅ fs₅ hbegun₅ h₅
        obtain ⟨k', hrun', h', hkeeps⟩ := hbegun₅.createFail h₅ h.lawful h.users hfree
        exact ⟨none, k', hrun', h', hkeeps, fun i hi => by cases hi⟩
      rcases hr with hneg | ⟨rfl, hbegins⟩
      · rw [if_pos hneg]
        exact hfail hbegun₄ h₄
      have hdi : d ≠ i := by
        rintro rfl
        rw [hfree] at hd
        cases hd
      have hlinked : k.fs.Linked d := ⟨by rw [hd]; decide, hlink⟩
      have hlinked₄ := hbegun₄.linked hfree hlinked
      obtain ⟨r, k₅, fs₅, hrun₅, h₅, hdirlinked⟩ := h₄.dirlink hbegun₄.sound
        ((hbegun₄.alike d hdi).type.trans hd)
        (hbegun₄.closedAt hfree hd hdi (h.lawful.closed.closed d hd hlink)) (hroom.cons i) hlocks₂
        name i
      rw [if_neg (Int.lt_irrefl 0), hrun₅]
      cases hdirlinked with
      | present e he hname => exact hfail hbegun₄ h₅
      | failed _ hsame => exact hfail (hbegun₄.unchanged (.inr hlinked.1) hsame) h₅
      | added _ n hn hgap hfresh hed =>
          have hplace : Place d i n name k.fs fs₄ fs₅ :=
            ⟨hd, hlink, hfree, hpos, hn, hgap, hfresh, hed⟩
          have hnlink₅ : (fs₅.ino d).nlink = (k.fs.ino d).nlink :=
            (hed.touches.nlink d).trans (hbegun₄.alike d hdi).nlink
          have htype₅ : (fs₅.ino i).type = type := (hed.touches.type i).trans hbegun₄.type
          simp only [Option.bind_some, if_neg (Int.lt_irrefl 0), h₅.fs_eq]
          by_cases htype : type = T_DIR
          · subst htype
            have hadd : (fs₅.ino d).addLink = (fs₅.ino d).setNlink ((k.fs.ino d).nlink + 1) := by
              rw [addLink_eq (by rw [hnlink₅]; exact h.lawful.short d), hnlink₅]
            have h₆ : Table (k₅.save d ((fs₅.ino d).setNlink ((k.fs.ino d).nlink + 1))) _ _ _ :=
              h₅.save (by simp)
            have hlaw := Lawful.mkdir hplace hbegun₄ h.lawful hmany (hbegins rfl)
            obtain ⟨k₇, hrun₇, h₇, hkeeps, hself⟩ := hbegun₄.createEnd h₆ hlaw h.users hzero hfree
              (by rw [nlink_setNlink, if_pos rfl]; exact Nat.succ_ne_zero _)
              (fun j => (type_setNlink _ j).trans (hed.touches.type j))
              (fun j hj => by rw [nlink_setNlink, if_neg hj, hed.touches.nlink])
            rw [if_pos rfl, hadd, hrun₇]
            refine ⟨some i, k₇, rfl, h₇, hkeeps, ?_⟩
            rintro j ⟨⟩
            exact hself
          · have hlaw := Lawful.create hplace hbegun₄ h.lawful hmany hzero htype
            obtain ⟨k₆, hrun₆, h₆, hkeeps, hself⟩ := hbegun₄.createEnd h₅ hlaw h.users hzero hfree
              (hnlink₅ ▸ hlink) hed.touches.type fun j _ => hed.touches.nlink j
            rw [if_neg htype, hrun₆]
            refine ⟨some i, k₆, rfl, h₆, hkeeps, ?_⟩
            rintro j ⟨⟩
            exact hself

section

variable (hroot : (root : ℕ) = ROOTINO) (hmany : sb.ninodes < 32768) (hroom : Room 3 held)
  (hcwd : cwd ∈ held)
include hroot hmany hroom hcwd

theorem Good.create (h : Good root k held ∅) (hstart : Starts k.fs cwd path) (hzero : type ≠ 0)
    (hshort : type < 65536) (major minor : ℕ) :
    ∃ r k', create cwd path type major minor k = some (r, k') ∧
      Good root k' (hold r held) (lockOf r) ∧ Keeps held k.fs k'.fs ∧
      ∀ i ∈ r, (k'.fs.ino i).type = type ∨ (k'.fs.ino i).type = T_DEVICE := by
  obtain ⟨r, k₁, hrun₁, hfs₁, h₁, hr⟩ := h.nameiparent hroot (hroom.mono (by omega)) hcwd hstart
  rw [FileSystem.create, hrun₁]
  cases r with
  | none => exact ⟨none, k₁, rfl, h₁, hfs₁ ▸ .refl, fun i hi => by cases hi⟩
  | some x =>
      obtain ⟨dp, name⟩ := x
      obtain ⟨hlinked, hdir⟩ := hr (dp, name) rfl
      replace h₁ : Good root k₁ (dp ::ₘ held) ∅ := h₁
      have hin : dp ∈ insert dp (∅ : Finset (Fin sb.ninodes)) := Finset.mem_insert_self dp ∅
      obtain ⟨k₂, hrun₂, hfs₂, h₂⟩ := h₁.ilock (Multiset.mem_cons_self dp held)
        (Finset.notMem_empty dp)
      have hfs : k₂.fs = k.fs := hfs₂.trans hfs₁
      rw [← hfs] at hlinked hdir
      obtain ⟨found, k₃, hrun₃, hfs₃, hlooked, h₃⟩ := h₂.dirlookup hdir hlinked.2
        (hroom.mono (by omega) |>.cons dp) (by simp) name
      simp only [Option.bind_eq_bind, Option.bind_some, hrun₂, hrun₃]
      cases hlooked with
      | absent hnone =>
          replace h₃ : Good root k₃ (dp ::ₘ held) (insert dp ∅) := h₃
          rw [← hfs₃] at hlinked hdir
          obtain ⟨r, k₄, hrun₄, h₄, hkeeps, htype⟩ := h₃.createInode hmany (hroom.cons dp) hdir
            hlinked.2 hzero hshort name major minor
          exact ⟨r, k₄, hrun₄, h₄, hfs ▸ hfs₃ ▸ hkeeps, fun i hi => .inl (htype i hi)⟩
      | found e n ip hget hnamed hinum hip =>
          replace h₃ : Good root k₃ (ip ::ₘ dp ::ₘ held) (insert dp ∅) := h₃
          rw [Multiset.cons_swap] at h₃
          obtain ⟨k₄, hrun₄, h₄, hkeeps₄⟩ := h₃.iunlockput hin
          rw [Finset.erase_insert (Finset.notMem_empty dp)] at h₄
          obtain ⟨k₅, hrun₅, hfs₅, h₅⟩ := h₄.ilock (Multiset.mem_cons_self ip held)
            (Finset.notMem_empty ip)
          have hkeeps : Keeps held k.fs k₅.fs := by
            rw [hfs₅, ← hfs, ← hfs₃]
            exact hkeeps₄.mono fun j => Multiset.mem_cons_of_mem
          simp only [hrun₄, Option.bind_some, hrun₅]
          by_cases hopen : type = T_FILE ∧
              ((k₅.fs.ino ip).type = T_FILE ∨ (k₅.fs.ino ip).type = T_DEVICE)
          · rw [if_pos hopen]
            refine ⟨some ip, k₅, rfl, h₅, hkeeps, ?_⟩
            rintro j ⟨⟩
            rw [hopen.1]
            exact hopen.2
          · obtain ⟨k₆, hrun₆, h₆, hkeeps₆⟩ := h₅.iunlockput (Finset.mem_insert_self ip ∅)
            rw [Finset.erase_insert (Finset.notMem_empty ip)] at h₆
            rw [if_neg hopen, hrun₆]
            exact ⟨none, k₆, rfl, h₆, hkeeps.trans hkeeps₆, fun i hi => by cases hi⟩

theorem Good.sysMake (h : Good root k held ∅) (hstart : Starts k.fs cwd path) (hzero : type ≠ 0)
    (hshort : type < 65536) (major minor : ℕ) :
    ∃ r k', sysMake cwd path type major minor k = some (r, k') ∧ Good root k' held ∅ ∧
      Keeps held k.fs k'.fs := by
  obtain ⟨r, k₁, hrun₁, h₁, hkeeps₁, -⟩ :=
    h.create hroot hmany hroom hcwd hstart hzero hshort major minor
  rw [FileSystem.sysMake, hrun₁]
  cases r with
  | none => exact ⟨-1, k₁, rfl, h₁, hkeeps₁⟩
  | some i =>
      obtain ⟨k₂, hrun₂, h₂, hkeeps₂⟩ := Good.iunlockput h₁ (Finset.mem_insert_self i ∅)
      rw [lockOf, Option.elim_some, Finset.erase_insert (Finset.notMem_empty i)] at h₂
      refine ⟨0, k₂, ?_, h₂, hkeeps₁.trans hkeeps₂⟩
      simp [hrun₂]

end

end ShellXv6.Xv6.FileSystem
