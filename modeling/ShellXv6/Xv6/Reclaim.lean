import ShellXv6.Xv6.NamespaceRuns

/-!
# Orphans

A process may hold an inode that has lost its last name.  When the power fails the process is
gone and the inode is still marked as in use on disk.  `ireclaim` looks for such inodes before
the first call is made, with nothing in the inode table but the root directory of the first
process.
-/

namespace ShellXv6.Xv6.FileSystem

variable {sb : Superblock}

/-- The loop body of `ireclaim`. -/
def reclaim (i : Fin sb.ninodes) (k : Kernel sb) : Option (Kernel sb) :=
  let dip := dinode sb k.fs.img i
  if 1 ≤ i.val ∧ dip.type ≠ 0 ∧ dip.nlink = 0 then do
    -- prints "ireclaim: orphaned inode"
    let (ip, k) ← iget i k
    let k ← ilock ip k
    let k ← iunlock ip k
    iput ip k
  else some k

def ireclaim (k : Kernel sb) : Option (Kernel sb) :=
  (List.finRange sb.ninodes).foldlM (fun k i => reclaim i k) k

/-- What the first process finds: the disk, and its own directory in the table. -/
def Fs.boot (fs : Fs sb) (root : Fin sb.ninodes) : Kernel sb where
  fs := fs
  ref i := if i = root then 1 else 0
  valid _ := false
  locked _ := false

def Fs.Orphan (fs : Fs sb) (i : Fin sb.ninodes) : Prop :=
  (fs.ino i).type ≠ 0 ∧ (fs.ino i).nlink = 0

instance (fs : Fs sb) (i : Fin sb.ninodes) : Decidable (fs.Orphan i) :=
  inferInstanceAs (Decidable ((fs.ino i).type ≠ 0 ∧ (fs.ino i).nlink = 0))

/-- The inodes in the list are no orphans, and what was none stays as it was. -/
structure Reclaimed (is : List (Fin sb.ninodes)) (fs fs' : Fs sb) : Prop where
  gone : ∀ i ∈ is, ¬fs'.Orphan i
  same : ∀ i, ¬fs.Orphan i → fs'.ino i = fs.ino i ∧ fs'.contents i = fs.contents i

variable {k : Kernel sb} {fs fs' fs'' : Fs sb} {held : Multiset (Fin sb.ninodes)}
  {root i : Fin sb.ninodes} {s : System sb}

theorem Reclaimed.cons {is : List (Fin sb.ninodes)} (h : Reclaimed [i] fs fs')
    (h' : Reclaimed is fs' fs'') : Reclaimed (i :: is) fs fs'' := by
  have hkeep : ∀ j, ¬fs'.Orphan j → ¬fs''.Orphan j := by
    intro j hj horphan
    rw [Fs.Orphan, (h'.same j hj).1] at horphan
    exact hj horphan
  refine ⟨fun j hj => ?_, fun j hj => ?_⟩
  · rcases List.mem_cons.mp hj with rfl | hj
    · exact hkeep j (h.gone j (List.mem_singleton_self j))
    · exact h'.gone j hj
  · obtain ⟨hino, hcontents⟩ := h.same j hj
    have hj' : ¬fs'.Orphan j := by rwa [Fs.Orphan, hino]
    obtain ⟨hino', hcontents'⟩ := h'.same j hj'
    exact ⟨hino'.trans hino, hcontents'.trans hcontents⟩

theorem Freed.reclaimed (h : Freed i fs fs') (hi : fs.Orphan i) : Reclaimed [i] fs fs' := by
  refine ⟨fun j hj => ?_, fun j hj => ?_⟩
  · rw [List.mem_singleton.mp hj]
    exact fun horphan => horphan.1 h.type
  · have hji : j ≠ i := fun heq => hj (heq ▸ hi)
    exact ⟨h.other j hji, h.contents j hji⟩

theorem Table.reclaim (h : Table k fs held ∅) (hlawful : Lawful root fs) (hroom : Room 1 held)
    (hheld : ∀ j ∈ held, (fs.ino j).nlink ≠ 0) (i : Fin sb.ninodes) :
    ∃ k' fs', reclaim i k = some k' ∧ Table k' fs' held ∅ ∧ Lawful root fs' ∧
      Reclaimed [i] fs fs' := by
  have hdisk := h.dinode_eq hlawful.sound i
  rw [FileSystem.reclaim]
  dsimp only
  rw [hdisk]
  by_cases horphan : fs.Orphan i
  · have hpos : 1 ≤ i.val := Nat.pos_of_ne_zero (hlawful.ne_zero horphan.1)
    have hi : i ∉ held := fun hi => hheld i hi horphan.2
    have hrun₁ := h.iget_new hroom hi k.fs
    have hrun₂ := ilock_enter (h.locked i) (by rw [hdisk]; exact horphan.1)
    -- what `ilock` reads is what the model has for the inode already
    rw [hdisk, h.fs_eq, Function.update_eq_self] at hrun₂
    have h₂ : Table (k.fetch i fs) fs (i ::ₘ held) (insert i ∅) := h.fetch hi fun _ _ => rfl
    obtain ⟨k₃, hrun₃, h₃⟩ := h₂.iunlock (Multiset.mem_cons_self i held)
      (Finset.mem_insert_self i ∅)
    rw [Finset.erase_insert (Finset.notMem_empty i)] at h₃
    obtain ⟨k₄, fs', hrun₄, h₄, hfreed⟩ := h₃.iput_free hlawful.sound hi (Finset.notMem_empty i)
      horphan.2
    refine ⟨k₄, fs', ?_, h₄, hlawful.freed hfreed horphan.2, hfreed.reclaimed horphan⟩
    rw [if_pos ⟨hpos, horphan⟩, hrun₁]
    simp [hrun₂, hrun₃, hrun₄]
  · refine ⟨k, fs, if_neg fun hgo => horphan hgo.2, h, hlawful, ?_, fun _ _ => ⟨rfl, rfl⟩⟩
    exact fun j hj => List.mem_singleton.mp hj ▸ horphan

theorem Table.reclaim_foldlM (h : Table k fs held ∅) (hlawful : Lawful root fs)
    (hroom : Room 1 held) (hheld : ∀ j ∈ held, (fs.ino j).nlink ≠ 0)
    (is : List (Fin sb.ninodes)) :
    ∃ k' fs', is.foldlM (fun k i => FileSystem.reclaim i k) k = some k' ∧ Table k' fs' held ∅ ∧
      Lawful root fs' ∧ Reclaimed is fs fs' := by
  -- `is` are the inodes that the loop still has to look at
  induction is generalizing k fs with
  | nil =>
      refine ⟨k, fs, rfl, h, hlawful, fun i hi => ?_, fun _ _ => ⟨rfl, rfl⟩⟩
      exact absurd hi List.not_mem_nil
  | cons i is ih =>
      obtain ⟨k₁, fs₁, hrun₁, h₁, hlawful₁, hreclaimed⟩ := h.reclaim hlawful hroom hheld i
      have hheld₁ : ∀ j ∈ held, (fs₁.ino j).nlink ≠ 0 := by
        intro j hj
        rw [(hreclaimed.same j fun horphan => hheld j hj horphan.2).1]
        exact hheld j hj
      obtain ⟨k', fs', hrun, h', hlawful', hrest⟩ := ih h₁ hlawful₁ hheld₁
      refine ⟨k', fs', ?_, h', hlawful', hreclaimed.cons hrest⟩
      rw [List.foldlM_cons, hrun₁]
      exact hrun

theorem table_boot (h : fs.Linked root) : Table (fs.boot root) fs {root} ∅ := by
  refine ⟨rfl, fun i => (Multiset.count_singleton i root).symm, fun i => rfl,
    fun i hi => absurd hi (Finset.notMem_empty i), fun i hi hz => ?_⟩
  rw [Multiset.mem_singleton.mp hi] at hz
  exact absurd hz h.2

/-- After a power failure nothing but the disk is left. -/
theorem reboot_reclaims (h : System.Reachable root s) :
    ∃ k, ireclaim (s.kernel.fs.boot root) = some k ∧ System.Boots root ⟨k, [root], []⟩ ∧
      ∀ i, (s.kernel.fs.ino i).nlink ≠ 0 → k.fs.ino i = s.kernel.fs.ino i ∧
        k.fs.contents i = s.kernel.fs.contents i := by
  have hlawful := h.consistent.good.lawful
  have htop := hlawful.linked_root
  have hroom : Room 1 ({root} : Multiset (Fin sb.ninodes)) := by simp [Room, NINODE]
  obtain ⟨k, fs, hrun, htable, hlawful', hreclaimed⟩ := (table_boot htop).reclaim_foldlM hlawful
    hroom (fun j hj => Multiset.mem_singleton.mp hj ▸ htop.2) (List.finRange sb.ninodes)
  have hfs := htable.fs_eq
  subst hfs
  refine ⟨k, hrun, ⟨h.numbers.1, h.numbers.2, hlawful', fun i hi hz => ?_, rfl, rfl, fun i => ?_,
    htable.locked⟩, fun i hi => hreclaimed.same i fun horphan => hi horphan.2⟩
  · exact hreclaimed.gone i (List.mem_finRange i) ⟨hi, hz⟩
  · exact (htable.ref i).trans (Multiset.count_singleton i root)

/-- The file `/a` loses its name while it is open. -/
theorem reboot_reclaims_open_file : ∃ (s : System smallDisk) (k : Kernel smallDisk),
    s.kernel.fs.Orphan smallNew ∧ ireclaim (s.kernel.fs.boot smallRoot) = some k ∧
      ¬k.fs.Orphan smallNew := by
  have hcalls : (smallSystem.bind fun s => s.step (.opens 0 [slash, 97] 513 true)).any (fun t =>
      decide (t.cwds.length + t.files.length ≤ 2) && (t.step (.unlink 0 [slash, 97])).any
        fun s : System smallDisk => decide (s.kernel.fs.Orphan smallNew)) = true := by
    decide +kernel
  obtain ⟨t, hreach, ht⟩ := reachable_smallSystem (c := .opens 0 [slash, 97] 513 true)
    (fun s hcwds hfiles => follows_smallSystem hcwds hfiles rfl) hcalls
  obtain ⟨hfew, hstep⟩ := Bool.and_eq_true_iff.mp ht
  obtain ⟨s, hrun, horphan⟩ := (Option.any_eq_true _ _).mp hstep
  have hroom : Room 3 t.held := by
    have hle := Multiset.toFinset_card_le t.held
    have hcard : t.held.card = t.cwds.length + t.files.length := by simp [System.held]
    have := of_decide_eq_true hfew
    unfold Room NINODE
    omega
  have hallow : t.Allows (.unlink 0 [slash, 97]) := ⟨hroom, fun _ _ => .inl rfl⟩
  obtain ⟨k, hk, hboots, -⟩ := reboot_reclaims (.next hreach hallow hrun)
  exact ⟨s, k, of_decide_eq_true horphan, hk, fun h => hboots.linked _ h.1 h.2⟩

end ShellXv6.Xv6.FileSystem
