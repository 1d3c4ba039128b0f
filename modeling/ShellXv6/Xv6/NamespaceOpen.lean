import ShellXv6.Xv6.NamespaceCreate
import ShellXv6.Xv6.NamespaceUnlink

/-!
# Opening, writing and changing directories

These calls leave the names as they are.  A file that can be written is not a directory, and it
does not become one while somebody has it open.
-/

namespace ShellXv6.Xv6.FileSystem

variable {sb : Superblock} {k : Kernel sb} {held : Multiset (Fin sb.ninodes)}
  {locks : Finset (Fin sb.ninodes)} {root cwd i : Fin sb.ninodes} {path : List UInt8}

/-- Truncating a file does not show in the names. -/
theorem Good.openTrunc (h : Good root k held locks) (i : Fin sb.ninodes) (omode : ℕ) :
    ∃ fs', openTrunc i omode k.fs = some fs' ∧ Good root { k with fs := fs' } held locks ∧
      ∀ j, (fs'.ino j).type = (k.fs.ino j).type := by
  rw [FileSystem.openTrunc]
  by_cases hgo : omode.testBit 10 = true ∧ (k.fs.ino i).type = T_FILE
  · obtain ⟨fs', hrun, hsound, htouches, -, hserves⟩ := serves_itrunc h.lawful.sound i
    generalize hc : fs'.contents = files at hserves
    cases hserves
    rw [if_pos hgo]
    have hne : ∀ j, (k.fs.ino j).type ≠ T_FILE → j ≠ i := fun j hj heq => hj (heq ▸ hgo.2)
    have halike : ∀ j, Alike k.fs fs' j := by
      intro j
      refine ⟨htouches.type j, htouches.nlink j, fun hdir => ?_⟩
      rw [hc, Function.update_of_ne (hne j (by rw [hdir]; decide))]
    refine ⟨fs', hrun, .of_table (h.table.withFs htouches.nlink) ?_ ?_, htouches.type⟩
    · refine h.lawful.congr hsound halike fun j hj => ?_
      rw [htouches.other j (hne j (by rw [hj]; decide))]
      exact (h.lawful.bare j hj).2
    · exact h.users.congr htouches.type fun j hz => (htouches.nlink j).symm.trans hz
  · rw [if_neg hgo]
    exact ⟨k.fs, rfl, h, fun _ => rfl⟩

section

variable (hroot : (root : ℕ) = ROOTINO) (hmany : sb.ninodes < 32768) (hroom : Room 3 held)
  (hcwd : cwd ∈ held)
include hroot hmany hroom hcwd

/-- A directory is opened for reading only. -/
theorem Good.openInode (h : Good root k held ∅) (hstart : Starts k.fs cwd path) (omode : ℕ) :
    ∃ r k', openInode cwd path omode k = some (r, k') ∧ Good root k' (hold r held) (lockOf r) ∧
      Keeps held k.fs k'.fs ∧ ∀ i ∈ r, (k'.fs.ino i).type = T_DIR → omode = O_RDONLY := by
  rw [FileSystem.openInode]
  by_cases hcreate : omode.testBit 9 = true
  · have hfile : T_FILE ≠ 0 ∧ T_FILE < 65536 := by decide
    obtain ⟨r, k', hrun, h', hkeeps, htype⟩ :=
      h.create hroot hmany hroom hcwd hstart hfile.1 hfile.2 0 0
    refine ⟨r, k', by rw [if_pos hcreate, hrun], h', hkeeps, fun i hi hdir => ?_⟩
    rcases htype i hi with heq | heq
    · rw [heq] at hdir
      cases hdir
    · rw [heq] at hdir
      cases hdir
  · obtain ⟨r, k₁, hrun₁, hfs₁, h₁, hr⟩ := h.namei hroot (hroom.mono (by omega)) hcwd hstart
    rw [if_neg hcreate, FileSystem.openExisting, hrun₁]
    cases r with
    | none => exact ⟨none, k₁, rfl, h₁, hfs₁ ▸ .refl, fun i hi => by cases hi⟩
    | some ip =>
        obtain ⟨k₂, hrun₂, hfs₂, h₂⟩ := h₁.ilock (Multiset.mem_cons_self ip held)
          (Finset.notMem_empty ip)
        have hfs : k₂.fs = k.fs := hfs₂.trans hfs₁
        simp only [Option.bind_eq_bind, Option.bind_some, hrun₂]
        by_cases hbad : (k₂.fs.ino ip).type = T_DIR ∧ omode ≠ O_RDONLY
        · obtain ⟨k₃, hrun₃, h₃, hkeeps⟩ := Good.iunlockput h₂ (Finset.mem_insert_self ip ∅)
          rw [Finset.erase_insert (Finset.notMem_empty ip)] at h₃
          rw [if_pos hbad, hrun₃]
          exact ⟨none, k₃, rfl, h₃, hfs ▸ hkeeps, fun i hi => by cases hi⟩
        · rw [if_neg hbad]
          refine ⟨some ip, k₂, rfl, h₂, hfs ▸ .refl, ?_⟩
          rintro j ⟨⟩ hdir
          exact not_not.mp fun hne => hbad ⟨hdir, hne⟩

theorem Good.sysOpen (h : Good root k held ∅) (hstart : Starts k.fs cwd path) (omode : ℕ)
    (room : Bool) :
    ∃ f k', sysOpen cwd path omode room k = some (f, k') ∧
      Good root k' (hold (f.map File.ip) held) ∅ ∧ Keeps held k.fs k'.fs ∧
      ∀ x ∈ f, x.writable = true → (k'.fs.ino x.ip).type ≠ T_DIR := by
  obtain ⟨r, k₁, hrun₁, h₁, hkeeps₁, hr⟩ := h.openInode hroot hmany hroom hcwd hstart omode
  rw [FileSystem.sysOpen, hrun₁]
  cases r with
  | none => exact ⟨none, k₁, rfl, h₁, hkeeps₁, fun x hx => by cases hx⟩
  | some i =>
      replace h₁ : Good root k₁ (i ::ₘ held) (insert i ∅) := h₁
      have hin : i ∈ insert i (∅ : Finset (Fin sb.ninodes)) := Finset.mem_insert_self i ∅
      have hempty := Finset.erase_insert (Finset.notMem_empty i)
      simp only [Option.bind_eq_bind, Option.bind_some]
      split
      · obtain ⟨k₂, hrun₂, h₂, hkeeps₂⟩ := h₁.iunlockput hin
        rw [hempty] at h₂
        rw [hrun₂]
        exact ⟨none, k₂, rfl, h₂, hkeeps₁.trans hkeeps₂, fun x hx => by cases hx⟩
      · obtain ⟨fs₂, hrun₂, h₂, htype₂⟩ := h₁.openTrunc i omode
        obtain ⟨k₃, hrun₃, hfs₃, h₃⟩ := h₂.iunlock (Multiset.mem_cons_self i held) hin
        rw [hempty] at h₃
        have htype : ∀ j, (k₃.fs.ino j).type = (k₁.fs.ino j).type := by
          intro j
          rw [hfs₃]
          exact htype₂ j
        simp only [hrun₂, Option.bind_some, hrun₃]
        refine ⟨_, k₃, rfl, h₃, fun j hj => (htype j).trans (hkeeps₁ j hj), ?_⟩
        rintro x ⟨⟩ hwrite hdir
        have hmode := hr i rfl ((htype i).symm.trans hdir)
        rw [hmode] at hwrite
        have hro : (O_RDONLY.testBit 0 || O_RDONLY.testBit 1) = false := by decide
        exact Bool.false_ne_true (hro.symm.trans hwrite)

end

/-- The old directory is put when the new one is found. -/
theorem Good.sysChdir (h : Good root k held ∅) (hroot : (root : ℕ) = ROOTINO)
    (hroom : Room 3 held) (hcwd : cwd ∈ held) (hstart : Starts k.fs cwd path)
    {rest : Multiset (Fin sb.ninodes)} (hheld : held = cwd ::ₘ rest) :
    ∃ r k', sysChdir cwd path k = some (r, k') ∧ Good root k' (r.getD cwd ::ₘ rest) ∅ ∧
      Keeps rest k.fs k'.fs := by
  obtain ⟨r, k₁, hrun₁, hfs₁, h₁, hr⟩ := h.namei hroot (hroom.mono (by omega)) hcwd hstart
  have hrest : ∀ j ∈ rest, j ∈ held := fun j hj => hheld ▸ Multiset.mem_cons_of_mem hj
  rw [FileSystem.sysChdir, hrun₁]
  cases r with
  | none => exact ⟨none, k₁, rfl, hheld ▸ h₁, hfs₁ ▸ .refl⟩
  | some ip =>
      replace h₁ : Good root k₁ (ip ::ₘ held) ∅ := h₁
      have hin : ip ∈ insert ip (∅ : Finset (Fin sb.ninodes)) := Finset.mem_insert_self ip ∅
      have hempty := Finset.erase_insert (Finset.notMem_empty ip)
      obtain ⟨k₂, hrun₂, hfs₂, h₂⟩ := h₁.ilock (Multiset.mem_cons_self ip held)
        (Finset.notMem_empty ip)
      have hfs : k₂.fs = k.fs := hfs₂.trans hfs₁
      simp only [Option.bind_eq_bind, Option.bind_some, hrun₂]
      by_cases htype : (k₂.fs.ino ip).type = T_DIR
      · obtain ⟨k₃, hrun₃, hfs₃, h₃⟩ := h₂.iunlock (Multiset.mem_cons_self ip held) hin
        rw [hempty, hheld, Multiset.cons_swap] at h₃
        obtain ⟨k₄, hrun₄, h₄, hkeeps⟩ := h₃.iput (Finset.notMem_empty cwd)
        rw [if_neg (fun hne => hne htype)]
        refine ⟨some ip, k₄, ?_, h₄, ?_⟩
        · simp [hrun₃, hrun₄]
        · rw [← hfs, ← hfs₃]
          exact hkeeps.mono fun j => Multiset.mem_cons_of_mem
      · obtain ⟨k₃, hrun₃, h₃, hkeeps⟩ := h₂.iunlockput hin
        rw [hempty] at h₃
        rw [if_pos htype, hrun₃]
        exact ⟨none, k₃, rfl, hheld ▸ h₃, hfs ▸ hkeeps.mono hrest⟩

/-- A write to a file does not show in the names. -/
theorem Good.writeChunk (h : Good root k held ∅) {f : File sb} (hf : f.ip ∈ held)
    (hwrite : f.writable = true → (k.fs.ino f.ip).type ≠ T_DIR) (src : List UInt8) {off n : ℕ}
    (huint : off < 4294967296 ∧ n < 4294967296) :
    ∃ k', writeChunk f src off n k = some k' ∧ Good root k' held ∅ ∧ Keeps held k.fs k'.fs := by
  rw [FileSystem.writeChunk]
  by_cases hskip : (!f.writable || f.device) = true
  · exact ⟨k, if_pos hskip, h, .refl⟩
  have hwritable : f.writable = true := by
    by_contra hne
    exact hskip (by simp [hne])
  obtain ⟨k₁, hrun₁, hfs₁, h₁⟩ := h.ilock hf (Finset.notMem_empty f.ip)
  obtain ⟨r, fs₂, hrun₂, hsound, htouches, hserves⟩ := serves_writei h₁.lawful.sound f.ip src huint
  have hnot : (k₁.fs.ino f.ip).type ≠ T_DIR := by
    rw [hfs₁]
    exact hwrite hwritable
  have hother : ∀ j, j ≠ f.ip → fs₂.contents j = k₁.fs.contents j := by
    intro j hj
    generalize fs₂.contents = files at hserves
    cases hserves with
    | refused => rfl
    | written => exact Function.update_of_ne hj _ _
    | short => exact Function.update_of_ne hj _ _
    | fault => exact Function.update_of_ne hj _ _
  have halike : ∀ j, Alike k₁.fs fs₂ j := fun j =>
    ⟨htouches.type j, htouches.nlink j, fun hdir => hother j fun heq => hnot (heq ▸ hdir)⟩
  have h₂ : Good root { k₁ with fs := fs₂ } held (insert f.ip ∅) := by
    refine .of_table (h₁.table.withFs htouches.nlink) ?_ ?_
    · refine h₁.lawful.congr hsound halike fun j hj => ?_
      have hjf : j ≠ f.ip := fun heq => h₁.users.inUse f.ip hf (heq ▸ hj)
      rw [htouches.other j hjf]
      exact (h₁.lawful.bare j hj).2
    · exact h₁.users.congr htouches.type fun j hz => (htouches.nlink j).symm.trans hz
  obtain ⟨k₃, hrun₃, hfs₃, h₃⟩ := h₂.iunlock hf (Finset.mem_insert_self f.ip ∅)
  rw [Finset.erase_insert (Finset.notMem_empty f.ip)] at h₃
  refine ⟨k₃, ?_, h₃, fun j _ => ?_⟩
  · rw [if_neg hskip, hrun₁]
    simp [hrun₂, hrun₃]
  · rw [hfs₃, ← hfs₁]
    exact htouches.type j

end ShellXv6.Xv6.FileSystem
