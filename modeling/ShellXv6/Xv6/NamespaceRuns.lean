import ShellXv6.Lib.Run
import ShellXv6.Xv6.NamespaceOpen
import ShellXv6.Xv6.NamespacePaths

/-!
# Runs of file system calls

Processes make their calls one after the other, in any order.  A call needs room in the inode
table for what it holds on the way, a path that does not start in a removed directory, and for
`sys_link` a count that has not reached its bound.  Under these conditions no call comes to a
panic of `fs.c` or `sysfile.c` (the log and the buffers are not looked at here), and after each
call the names form a tree, the counts are right, and an inode is in use exactly as long as
somebody can get at it.
-/

namespace ShellXv6.Xv6.FileSystem

open ShellXv6.LinkTree

variable {sb : Superblock}

/-- The references of the processes and of the open files. -/
def System.held (s : System sb) : Multiset (Fin sb.ninodes) :=
  (s.cwds : Multiset (Fin sb.ninodes)) + (s.files.map File.ip : List (Fin sb.ninodes))

def System.Follows (s : System sb) (p : ℕ) (path : List UInt8) : Prop :=
  Room 3 s.held ∧ ∀ cwd ∈ s.cwds[p]?, Starts s.kernel.fs cwd path

def System.Allows (s : System sb) : Call → Prop
  | .opens p path _ _ => s.Follows p path
  | .mkdir p path => s.Follows p path
  | .mknod p path _ _ => s.Follows p path
  -- the count is a short, and `sys_link` does not look at it
  | .link p old new =>
      s.Follows p old ∧ s.Follows p new ∧ ∀ i, (s.kernel.fs.ino i).nlink < 32767
  | .unlink p path => s.Follows p path
  | .chdir p path => s.Follows p path
  | .fork _ => True
  | .exit _ => True
  | .close _ => True
  | .write _ _ off n => off < 4294967296 ∧ n < 4294967296

/-- A consistent disk without orphans, and the first process in the root directory.  A short
holds every inode number and every link count. -/
structure System.Boots (root : Fin sb.ninodes) (s : System sb) : Prop where
  number : (root : ℕ) = ROOTINO
  few : sb.ninodes < 32768
  lawful : Lawful root s.kernel.fs
  linked : ∀ i, (s.kernel.fs.ino i).type ≠ 0 → (s.kernel.fs.ino i).nlink ≠ 0
  cwds : s.cwds = [root]
  files : s.files = []
  ref : ∀ i, s.kernel.ref i = if i = root then 1 else 0
  unlocked : ∀ i, s.kernel.locked i = false

def System.Reachable (root : Fin sb.ninodes) : System sb → Prop :=
  Run.Reach (System.Boots root) System.step System.Allows

/-- The invariant of the runs. -/
structure System.Consistent (root : Fin sb.ninodes) (s : System sb) : Prop where
  good : Good root s.kernel s.held ∅
  writable : ∀ f ∈ s.files, f.writable = true → (s.kernel.fs.ino f.ip).type ≠ T_DIR

variable {s t : System sb} {k : Kernel sb} {root cwd : Fin sb.ninodes} {p : ℕ}

/-! ## The references -/

theorem coe_eq_cons_eraseIdx {α : Type*} {l : List α} {n : ℕ} {a : α} (h : l[n]? = some a) :
    (l : Multiset α) = a ::ₘ (l.eraseIdx n : List α) := by
  obtain ⟨hn, rfl⟩ := List.getElem?_eq_some_iff.mp h
  exact Multiset.coe_eq_coe.mpr (List.getElem_cons_eraseIdx_perm hn).symm

theorem coe_set_eq_cons_eraseIdx {α : Type*} {l : List α} {n : ℕ} {a : α} (h : l[n]? = some a)
    (b : α) : (l.set n b : Multiset α) = b ::ₘ (l.eraseIdx n : List α) := by
  obtain ⟨hn, -⟩ := List.getElem?_eq_some_iff.mp h
  exact Multiset.coe_eq_coe.mpr (List.set_perm_cons_eraseIdx hn b)

theorem System.cwd_mem_held (h : s.cwds[p]? = some cwd) : cwd ∈ s.held :=
  Multiset.mem_add.mpr (.inl (Multiset.mem_coe.mpr (List.mem_of_getElem? h)))

theorem System.ip_mem_held {f : File sb} (h : f ∈ s.files) : f.ip ∈ s.held :=
  Multiset.mem_add.mpr (.inr (Multiset.mem_coe.mpr (List.mem_map_of_mem h)))

theorem System.held_eq_cwd_cons (h : s.cwds[p]? = some cwd) :
    s.held = cwd ::ₘ System.held { s with cwds := s.cwds.eraseIdx p } := by
  rw [System.held, coe_eq_cons_eraseIdx h, Multiset.cons_add]
  rfl

theorem System.held_eq_ip_cons {f : File sb} {n : ℕ} (h : s.files[n]? = some f) :
    s.held = f.ip ::ₘ System.held { s with files := s.files.eraseIdx n } := by
  have hmap : (s.files.map File.ip)[n]? = some f.ip := by rw [List.getElem?_map, h]; rfl
  rw [System.held, coe_eq_cons_eraseIdx hmap, Multiset.add_cons, List.eraseIdx_map]
  rfl

/-! ## One call -/

/-- The files stay, or some are closed, and what they refer to stays what it is. -/
theorem System.Consistent.next (h : s.Consistent root) (hgood : Good root t.kernel t.held ∅)
    (hfiles : ∀ f ∈ t.files, f ∈ s.files)
    (hkeeps : ∀ f ∈ t.files, (t.kernel.fs.ino f.ip).type = (s.kernel.fs.ino f.ip).type) :
    t.Consistent root := by
  refine ⟨hgood, fun f hf hw => ?_⟩
  rw [hkeeps f hf]
  exact h.writable f (hfiles f hf) hw

theorem System.Consistent.withKernel (h : s.Consistent root) (hgood : Good root k s.held ∅)
    (hkeeps : Keeps s.held s.kernel.fs k.fs) : System.Consistent root { s with kernel := k } :=
  h.next hgood (fun _ hf => hf) fun _ hf => hkeeps _ (System.ip_mem_held hf)

theorem System.Consistent.byProcess (h : s.Consistent root)
    {act : Fin sb.ninodes → Option (System sb)}
    (hact : ∀ cwd, s.cwds[p]? = some cwd → ∃ t, act cwd = some t ∧ t.Consistent root) :
    ∃ t, s.byProcess p act = some t ∧ t.Consistent root := by
  unfold System.byProcess
  cases hget : s.cwds[p]? with
  | none => exact ⟨s, rfl, h⟩
  | some cwd => exact hact cwd hget

theorem System.Consistent.onFile (h : s.Consistent root) {n : ℕ}
    {act : File sb → Option (System sb)}
    (hact : ∀ f, s.files[n]? = some f → ∃ t, act f = some t ∧ t.Consistent root) :
    ∃ t, s.onFile n act = some t ∧ t.Consistent root := by
  unfold System.onFile
  cases hget : s.files[n]? with
  | none => exact ⟨s, rfl, h⟩
  | some f => exact hact f hget

/-- A call that changes nothing but the kernel. -/
theorem System.Consistent.inKernel (h : s.Consistent root)
    {act : Fin sb.ninodes → Kernel sb → Option (ℤ × Kernel sb)}
    (hact : ∀ cwd, s.cwds[p]? = some cwd → ∃ r k', act cwd s.kernel = some (r, k') ∧
      Good root k' s.held ∅ ∧ Keeps s.held s.kernel.fs k'.fs) :
    ∃ t, (s.byProcess p fun cwd => do
        let (_, k) ← act cwd s.kernel
        pure { s with kernel := k }) = some t ∧ t.Consistent root := by
  refine h.byProcess fun cwd hget => ?_
  obtain ⟨r, k', hrun, hgood, hkeeps⟩ := hact cwd hget
  refine ⟨{ s with kernel := k' }, ?_, h.withKernel hgood hkeeps⟩
  rw [hrun]
  rfl

theorem System.Consistent.fork (h : s.Consistent root) (p : ℕ) :
    ∃ t, s.step (.fork p) = some t ∧ t.Consistent root := by
  refine h.byProcess fun cwd hget => ⟨_, rfl, ?_⟩
  have hmem := System.cwd_mem_held hget
  have hheld : System.held { s with kernel := idup cwd s.kernel, cwds := cwd :: s.cwds } =
      cwd ::ₘ s.held :=
    Multiset.cons_add cwd (s.cwds : Multiset (Fin sb.ninodes)) (s.files.map File.ip : List _)
  refine h.next ?_ (fun _ hf => hf) fun _ _ => rfl
  rw [hheld]
  refine .of_table (h.good.table.idup hmem) h.good.lawful ⟨fun i hi => ?_, fun i hi hz => ?_⟩
  · rcases Multiset.mem_cons.mp hi with rfl | hi
    · exact h.good.users.inUse i hmem
    · exact h.good.users.inUse i hi
  · exact Multiset.mem_cons_of_mem (h.good.users.kept i hi hz)

theorem System.Consistent.exit (h : s.Consistent root) (p : ℕ) :
    ∃ t, s.step (.exit p) = some t ∧ t.Consistent root := by
  refine h.byProcess fun cwd hget => ?_
  have hgood := h.good
  rw [System.held_eq_cwd_cons hget] at hgood
  obtain ⟨k', hrun, hgood', hkeeps⟩ := hgood.iput (Finset.notMem_empty cwd)
  refine ⟨{ s with kernel := k', cwds := s.cwds.eraseIdx p }, by rw [hrun]; rfl, ?_⟩
  refine h.next hgood' (fun _ hf => hf) fun f hf => hkeeps _ ?_
  exact System.ip_mem_held (s := { s with cwds := s.cwds.eraseIdx p }) hf

theorem System.Consistent.close (h : s.Consistent root) (n : ℕ) :
    ∃ t, s.step (.close n) = some t ∧ t.Consistent root := by
  refine h.onFile fun file hget => ?_
  have hgood := h.good
  rw [System.held_eq_ip_cons hget] at hgood
  obtain ⟨k', hrun, hgood', hkeeps⟩ := hgood.iput (Finset.notMem_empty file.ip)
  refine ⟨{ s with kernel := k', files := s.files.eraseIdx n }, by rw [hrun]; rfl, ?_⟩
  refine h.next hgood' (fun f hf => List.mem_of_mem_eraseIdx hf) fun f hf => hkeeps _ ?_
  exact System.ip_mem_held (s := { s with files := s.files.eraseIdx n }) hf

theorem System.Consistent.write (h : s.Consistent root) (n : ℕ) (src : List UInt8) {off m : ℕ}
    (huint : off < 4294967296 ∧ m < 4294967296) :
    ∃ t, s.step (.write n src off m) = some t ∧ t.Consistent root := by
  refine h.onFile fun file hget => ?_
  have hmem := List.mem_of_getElem? hget
  obtain ⟨k', hrun, hgood, hkeeps⟩ := h.good.writeChunk (System.ip_mem_held hmem)
    (h.writable file hmem) src huint
  exact ⟨{ s with kernel := k' }, by rw [hrun]; rfl, h.withKernel hgood hkeeps⟩

section

variable (hroot : (root : ℕ) = ROOTINO)
include hroot

theorem System.Consistent.unlink (h : s.Consistent root) {path : List UInt8}
    (hpath : s.Follows p path) : ∃ t, s.step (.unlink p path) = some t ∧ t.Consistent root :=
  h.inKernel fun cwd hget =>
    h.good.sysUnlink hroot hpath.1 (System.cwd_mem_held hget) (hpath.2 cwd hget)

theorem System.Consistent.chdir (h : s.Consistent root) {path : List UInt8}
    (hpath : s.Follows p path) : ∃ t, s.step (.chdir p path) = some t ∧ t.Consistent root := by
  refine h.byProcess fun cwd hget => ?_
  obtain ⟨r, k', hrun, hgood, hkeeps⟩ := h.good.sysChdir hroot hpath.1 (System.cwd_mem_held hget)
    (hpath.2 cwd hget) (System.held_eq_cwd_cons hget)
  refine ⟨{ s with kernel := k', cwds := s.cwds.set p (r.getD cwd) }, by rw [hrun]; rfl, ?_⟩
  have hheld : System.held { s with kernel := k', cwds := s.cwds.set p (r.getD cwd) } =
      r.getD cwd ::ₘ System.held { s with cwds := s.cwds.eraseIdx p } := by
    rw [System.held, coe_set_eq_cons_eraseIdx hget, Multiset.cons_add]
    rfl
  refine h.next (hheld ▸ hgood) (fun _ hf => hf) fun f hf => hkeeps _ ?_
  exact System.ip_mem_held (s := { s with cwds := s.cwds.eraseIdx p }) hf

variable (hmany : sb.ninodes < 32768)
include hmany

theorem System.Consistent.opens (h : s.Consistent root) {path : List UInt8}
    (hpath : s.Follows p path) (omode : ℕ) (room : Bool) :
    ∃ t, s.step (.opens p path omode room) = some t ∧ t.Consistent root := by
  refine h.byProcess fun cwd hget => ?_
  obtain ⟨f, k', hrun, hgood, hkeeps, hwrite⟩ := h.good.sysOpen hroot hmany hpath.1
    (System.cwd_mem_held hget) (hpath.2 cwd hget) omode room
  refine ⟨{ s with kernel := k', files := f.toList ++ s.files }, by rw [hrun]; rfl, ?_, ?_⟩
  · have hheld : System.held { s with kernel := k', files := f.toList ++ s.files } =
        hold (f.map File.ip) s.held := by
      cases f with
      | none => rfl
      | some x =>
          exact Multiset.add_cons x.ip (s.cwds : Multiset (Fin sb.ninodes))
            (s.files.map File.ip : List _)
    rw [hheld]
    exact hgood
  · intro x hx hw
    rcases List.mem_append.mp hx with hx | hx
    · exact hwrite x (Option.mem_toList.mp hx) hw
    · exact (hkeeps x.ip (System.ip_mem_held hx)).symm ▸ h.writable x hx hw

theorem System.Consistent.step (h : s.Consistent root) {c : Call} (hallow : s.Allows c) :
    ∃ t, s.step c = some t ∧ t.Consistent root := by
  cases c with
  | opens p path omode room => exact h.opens hroot hmany hallow omode room
  | mkdir p path =>
      exact h.inKernel fun cwd hget => h.good.sysMake hroot hmany hallow.1
        (System.cwd_mem_held hget) (hallow.2 cwd hget) (by decide) (by decide) 0 0
  | mknod p path major minor =>
      exact h.inKernel fun cwd hget => h.good.sysMake hroot hmany hallow.1
        (System.cwd_mem_held hget) (hallow.2 cwd hget) (by decide) (by decide) major minor
  | link p old new =>
      obtain ⟨hold, hnew, hshort⟩ := hallow
      exact h.inKernel fun cwd hget => h.good.sysLink hroot hmany hold.1
        (System.cwd_mem_held hget) (hold.2 cwd hget) (hnew.2 cwd hget) hshort
  | unlink p path => exact h.unlink hroot hallow
  | chdir p path => exact h.chdir hroot hallow
  | fork p => exact h.fork p
  | exit p => exact h.exit p
  | close n => exact h.close n
  | write n src off m => exact h.write n src hallow

end

/-! ## A disk to start from -/

theorem Begun.eq_of_inUse {fs fs' : Fs sb} {i : Fin sb.ninodes} (h : Begun root T_DIR fs fs')
    (hblank : ∀ i, fs.ino i = blankInode 0) (hi : (fs'.ino i).type ≠ 0) : i = root := by
  by_contra hne
  rw [h.free i hne (by rw [hblank]; rfl), hblank] at hi
  exact hi rfl

/-- A root directory on a disk that was blank. -/
theorem lawful_root {fs fs' : Fs sb} (hblank : ∀ i, fs.ino i = blankInode 0)
    (hbegun : Begun root T_DIR fs fs') (hbegins : Begins root root fs')
    (hmany : sb.ninodes < 32768) (hpos : (root : ℕ) ≠ 0) : Lawful root fs' := by
  have hother : ∀ i, i ≠ root → fs'.ino i = blankInode 0 := fun i hi =>
    (hbegun.free i hi (by rw [hblank]; rfl)).trans (hblank i)
  have honly : ∀ i, (fs'.ino i).type ≠ 0 → i = root := fun i hi => hbegun.eq_of_inUse hblank hi
  have hlive : fs'.graph.Live root := live_graph.mpr ⟨hbegun.type, by rw [hbegun.nlink]; decide⟩
  have hne : ∀ i, (fs'.ino i).type = 0 → i ≠ root := by
    rintro i hi rfl
    rw [hbegun.type] at hi
    cases hi
  refine ⟨hbegun.sound, isTree_root hlive (fun i hi => ?_) ?_ hbegun.nlink, ?_, fun d hd => ?_,
    fun i hi => ?_, fun i => ?_, fun i hi => ?_⟩
  · exact kindOf_eq_free.mpr (by rw [hother i hi]; rfl)
  · rw [names_graph hbegun.type, hbegins.dir]
    rfl
  · show parentOf root (fs'.ino root) (fs'.dir root) = root
    rw [parentOf, if_pos hbegun.type, hbegins.dir]
    exact congrArg (fun x => Option.elim x root Prod.snd) (target_new hmany hpos dotdot)
  · obtain rfl := honly d (by rw [hd]; decide)
    exact hbegins.dots hmany hpos hpos
  · rw [hother i (hne i hi)]
    exact ⟨rfl, rfl, fun _ => rfl⟩
  · by_cases hi : i = root
    · rw [hi, hbegun.nlink]
      decide
    · rw [hother i hi]
      decide
  · by_contra hne
    exact hpos (honly i hne ▸ hi)

def smallRoot : Fin smallDisk.ninodes := ⟨ROOTINO, by decide⟩

/-- The inode that is free. -/
def smallNew : Fin smallDisk.ninodes := secondFile

/-- The root inode of the small disk, before it gets its entries. -/
def smallStart : Kernel smallDisk where
  fs := ((blankFs smallDisk).save smallRoot (blankInode T_DIR)).save smallRoot
    ((blankInode T_DIR).initial 0 0)
  ref i := if i = smallRoot then 1 else 0
  valid _ := false
  locked _ := false

theorem table_smallStart : Table smallStart smallStart.fs {smallRoot} ∅ := by
  refine ⟨rfl, fun i => ?_, fun i => rfl, fun i hi => absurd hi (Finset.notMem_empty i),
    fun i hi hz => ?_⟩
  · rw [Multiset.count_singleton]
    rfl
  · rw [Multiset.mem_singleton.mp hi] at hz
    exact absurd hz (by decide)

/-- The small disk with its root directory, and one process. -/
def smallSystem : Option (System smallDisk) := do
  let (_, k) ← makeDots T_DIR smallRoot smallRoot smallStart
  pure ⟨k, [smallRoot], []⟩

theorem boots_smallSystem {s : System smallDisk} (h : smallSystem = some s) :
    s.Boots smallRoot := by
  have hsound : Sound (blankFs smallDisk) := sound_blankFs (by decide)
  have hstart : Begun smallRoot T_DIR (blankFs smallDisk) smallStart.fs ∧
      smallStart.fs.contents smallRoot = [] :=
    begun_initial hsound ⟨rfl, fun _ => rfl⟩ (by decide) 0 0
  obtain ⟨r, k, fs, hrun, htable, hbegun, hr⟩ := hstart.1.makeDots (d := smallRoot)
    table_smallStart hstart.2 (by decide) (by decide) (by simp [Room, NINODE]) (by simp)
  have hzero : (makeDots T_DIR smallRoot smallRoot smallStart).map Prod.fst = some 0 := by
    decide +kernel
  rw [hrun] at hzero
  obtain rfl : r = 0 := Option.some.inj hzero
  have hbegins : Begins smallRoot smallRoot fs := (hr.resolve_left (by decide)).2
  rw [smallSystem, hrun] at h
  obtain rfl : (⟨k, [smallRoot], []⟩ : System smallDisk) = s := Option.some.inj h
  have hfs := htable.fs_eq
  subst hfs
  refine ⟨rfl, by decide, lawful_root (fun _ => rfl) hbegun hbegins (by decide) (by decide),
    fun i hi => ?_, rfl, rfl, fun i => ?_, fun i => htable.locked i⟩
  · rw [hbegun.eq_of_inUse (fun _ => rfl) hi, hbegun.nlink]
    decide
  · exact (htable.ref i).trans (Multiset.count_singleton i smallRoot)

/-- What the first call of the small system can lead to. -/
theorem reachable_smallSystem {c : Call} {q : System smallDisk → Bool}
    (hallow : ∀ s : System smallDisk, s.cwds = [smallRoot] → s.files = [] → s.Allows c)
    (hrun : (smallSystem.bind fun s => s.step c).any q = true) :
    ∃ t, System.Reachable smallRoot t ∧ q t = true := by
  obtain ⟨t, ht, hq⟩ := (Option.any_eq_true _ _).mp hrun
  obtain ⟨s, hs, hstep⟩ := Option.bind_eq_some_iff.mp ht
  have hboots := boots_smallSystem hs
  exact ⟨t, .next (.start hboots) (hallow s hboots.cwds hboots.files) hstep, hq⟩

theorem follows_smallSystem {s : System smallDisk} (hcwds : s.cwds = [smallRoot])
    (hfiles : s.files = []) {path : List UInt8} (hpath : path.head? = some slash) :
    s.Follows 0 path := by
  refine ⟨?_, fun _ _ => .inl hpath⟩
  rw [System.held, hcwds, hfiles]
  simp [Room, NINODE]

/-! ## Runs -/

theorem System.Boots.consistent (h : s.Boots root) : s.Consistent root := by
  have hheld : s.held = {root} := by
    rw [System.held, h.cwds, h.files]
    rfl
  refine ⟨.of_table ⟨rfl, fun i => ?_, fun i => ?_, fun i hi => ?_, fun i hi hz => ?_⟩ h.lawful
    ⟨fun i hi => ?_, fun i hi hz => absurd hz (h.linked i hi)⟩, fun f hf => ?_⟩
  · rw [hheld, h.ref, Multiset.count_singleton]
  · rw [h.unlocked]
    rfl
  · exact absurd hi (Finset.notMem_empty i)
  · rw [hheld, Multiset.mem_singleton] at hi
    exact absurd hz (hi ▸ h.lawful.linked_root.2)
  · rw [hheld, Multiset.mem_singleton] at hi
    exact hi ▸ h.lawful.linked_root.1
  · rw [h.files] at hf
    cases hf

theorem System.Reachable.numbers (h : System.Reachable root s) :
    (root : ℕ) = ROOTINO ∧ sb.ninodes < 32768 :=
  Run.Reach.invariant (P := fun _ => (root : ℕ) = ROOTINO ∧ sb.ninodes < 32768) h
    (fun _ hs => ⟨hs.number, hs.few⟩) fun _ _ _ _ hs _ _ => hs

theorem System.Reachable.consistent (h : System.Reachable root s) : s.Consistent root := by
  obtain ⟨hroot, hmany⟩ := h.numbers
  refine Run.Reach.invariant h (fun s hs => hs.consistent) fun s c t _ hs hallow hstep => ?_
  obtain ⟨t', hstep', ht'⟩ := hs.step hroot hmany hallow
  obtain rfl : t' = t := Option.some.inj (hstep'.symm.trans hstep)
  exact ht'

theorem no_call_panics (h : System.Reachable root s) {c : Call} (hallow : s.Allows c) :
    ∃ t, s.step c = some t := by
  obtain ⟨hroot, hmany⟩ := h.numbers
  obtain ⟨t, hstep, -⟩ := h.consistent.step hroot hmany hallow
  exact ⟨t, hstep⟩

theorem no_call_panics_mkdir : ∃ s t : System smallDisk,
    s.cwds = [smallRoot] ∧ s.step (.mkdir 0 [slash, 97]) = some t := by
  have hsome : smallSystem.isSome = true := by decide +kernel
  obtain ⟨s, hs⟩ := Option.isSome_iff_exists.mp hsome
  have hboots := boots_smallSystem hs
  have hallow : s.Allows (.mkdir 0 [slash, 97]) :=
    follows_smallSystem hboots.cwds hboots.files rfl
  obtain ⟨t, ht⟩ := no_call_panics (.start hboots) hallow
  exact ⟨s, t, hboots.cwds, ht⟩

theorem names_form_tree (h : System.Reachable root s) : IsTree root s.kernel.fs.graph ∧
    s.kernel.fs.graph.parent root = root ∧
    (∀ d, (s.kernel.fs.ino d).type = T_DIR → Dots s.kernel.fs d) ∧
    ∀ i, (s.kernel.fs.ino i).type ≠ 0 ↔ i = root ∨ i ∈ s.held ∨
      ∃ d a, s.kernel.fs.graph.Live d ∧ (a, i) ∈ s.kernel.fs.graph.names d := by
  obtain ⟨⟨-, hlawful, husers⟩, -⟩ := h.consistent
  refine ⟨hlawful.tree, hlawful.top, hlawful.dots, fun i => ⟨fun hi => ?_, ?_⟩⟩
  · by_cases hz : (s.kernel.fs.ino i).nlink = 0
    · exact .inr (.inl (husers.kept i hi hz))
    · rcases hlawful.tree.root_or_named (mt kindOf_eq_free.mp hi) (Nat.pos_of_ne_zero hz) with
        hi | hi
      · exact .inl hi
      · exact .inr (.inr hi)
  · rintro (rfl | hi | ⟨d, a, hd, hmem⟩)
    · exact hlawful.linked_root.1
    · exact husers.inUse i hi
    · exact fun hfree => (hlawful.tree.named d a i hd hmem).1 (kindOf_eq_free.mpr hfree)

theorem names_form_tree_mkdir : ∃ t : System smallDisk, IsTree smallRoot t.kernel.fs.graph ∧
    (t.kernel.fs.ino smallNew).type = T_DIR ∧ Dots t.kernel.fs smallNew ∧
    (smallNew = smallRoot ∨ smallNew ∈ t.held ∨
      ∃ d a, t.kernel.fs.graph.Live d ∧ (a, smallNew) ∈ t.kernel.fs.graph.names d) := by
  obtain ⟨t, hreach, ht⟩ := reachable_smallSystem (c := .mkdir 0 [slash, 97])
    (q := fun t => (t.kernel.fs.ino smallNew).type = T_DIR)
    (fun s hcwds hfiles => follows_smallSystem hcwds hfiles rfl) (by decide +kernel)
  have hdir := of_decide_eq_true ht
  obtain ⟨htree, -, hdots, huse⟩ := names_form_tree hreach
  exact ⟨t, htree, hdir, hdots smallNew hdir, (huse smallNew).mp (by rw [hdir]; decide)⟩

theorem directories_not_writable (h : System.Reachable root s) {f : File sb} (hf : f ∈ s.files)
    (hw : f.writable = true) : (s.kernel.fs.ino f.ip).type ≠ T_DIR :=
  h.consistent.writable f hf hw

theorem directories_not_writable_create : ∃ (t : System smallDisk) (f : File smallDisk),
    f ∈ t.files ∧ f.writable = true ∧ (t.kernel.fs.ino f.ip).type ≠ T_DIR := by
  -- `O_CREATE | O_WRONLY`
  obtain ⟨t, hreach, ht⟩ := reachable_smallSystem (c := .opens 0 [slash, 97] 513 true)
    (q := fun t => t.files.any File.writable)
    (fun s hcwds hfiles => follows_smallSystem hcwds hfiles rfl) (by decide +kernel)
  obtain ⟨f, hf, hw⟩ := List.any_eq_true.mp ht
  exact ⟨t, f, hf, hw, directories_not_writable hreach hf hw⟩

theorem paths_lead (h : System.Reachable root s) (hget : s.cwds[p]? = some cwd)
    {path : List UInt8} (hpath : s.Follows p path) :
    ∃ r k, namei cwd path s.kernel = some (r, k) ∧ k.fs = s.kernel.fs ∧ ∀ i, r = some i ↔
      s.kernel.fs.Leads (if path.head? = some slash then root else cwd) (components path) i :=
  h.consistent.good.namei_leads h.numbers.1 (hpath.1.mono (by decide)) (System.cwd_mem_held hget)
    (hpath.2 cwd hget)

/-- The path is `/a/..`, after `mkdir /a`. -/
theorem paths_lead_mkdir : ∃ (t : System smallDisk) (r : Option (Fin smallDisk.ninodes))
    (k : Kernel smallDisk), (t.kernel.fs.ino smallNew).type = T_DIR ∧
      namei smallRoot [slash, 97, slash, 46, 46] t.kernel = some (r, k) ∧
      ∀ i, r = some i ↔ t.kernel.fs.Leads smallRoot [[97], [46, 46]] i := by
  obtain ⟨t, hreach, ht⟩ := reachable_smallSystem (c := .mkdir 0 [slash, 97])
    (q := fun t => (t.kernel.fs.ino smallNew).type = T_DIR ∧ t.cwds = [smallRoot] ∧
      t.files.isEmpty)
    (fun s hcwds hfiles => follows_smallSystem hcwds hfiles rfl) (by decide +kernel)
  obtain ⟨hdir, hcwds, hfiles⟩ := of_decide_eq_true ht
  have hpath : t.Follows 0 [slash, 97, slash, 46, 46] :=
    follows_smallSystem hcwds (List.isEmpty_iff.mp hfiles) rfl
  have hget : t.cwds[0]? = some smallRoot := by rw [hcwds]; rfl
  obtain ⟨r, k, hrun, -, hr⟩ := paths_lead hreach hget hpath
  have hcomponents : components [slash, 97, slash, 46, 46] = [[97], [46, 46]] := by decide
  rw [hcomponents] at hr
  exact ⟨t, r, k, hdir, hrun, hr⟩

end ShellXv6.Xv6.FileSystem
