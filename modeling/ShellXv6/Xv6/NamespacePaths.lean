import ShellXv6.Xv6.NamespaceCalls

/-!
# Paths

`namex` reads directory entries; what it returns is what the names in the tree say.  In every
directory `.` and `..` come first, so that no other entry can take their place.
-/

namespace ShellXv6.Xv6.FileSystem

open ShellXv6.CString
open ShellXv6.LinkTree

variable {sb : Superblock} {fs : Fs sb} {root d e : Fin sb.ninodes} {name : List UInt8}

/-- Where the elements of a path lead. -/
def Fs.Leads (fs : Fs sb) (d : Fin sb.ninodes) (names : List (List UInt8))
    (e : Fin sb.ninodes) : Prop :=
  fs.graph.Walk (cstr DIRSIZ dot) (cstr DIRSIZ dotdot) d (names.map (cstr DIRSIZ)) e

theorem Dots.dir_eq (h : Dots fs d) : ∃ e₀ e₁ es, fs.dir d = e₀ :: e₁ :: es ∧ e₀.Named dot ∧
    e₀.inum = (d : ℕ) ∧ e₁.Named dotdot := by
  obtain ⟨e₀, h₀, hdot, hself⟩ := h.self
  obtain ⟨e₁, h₁, hdotdot⟩ := h.up
  obtain ⟨es, hes⟩ := List.head?_eq_some_iff.mp (List.head?_eq_getElem?.trans h₀)
  rw [hes, List.getElem?_cons_succ, ← List.head?_eq_getElem?] at h₁
  obtain ⟨es', hes'⟩ := List.head?_eq_some_iff.mp h₁
  exact ⟨e₀, e₁, es', by rw [hes, hes'], hdot, hself, hdotdot⟩

theorem step_eq (hdir : (fs.ino d).type = T_DIR) {en : Dirent} {n : ℕ}
    (hfound : search (isName name) (fs.dir d) 0 = some (en, n)) (he : (e : ℕ) = en.inum) :
    fs.step d name = some e := by
  have hlt : en.inum < sb.ninodes := he ▸ e.isLt
  rw [Fs.step, if_pos hdir, hfound, Option.bind_some, dif_pos hlt]
  exact congrArg some (Fin.ext he.symm)

theorem Closed.linked_step (h : Closed fs) (hd : fs.Linked d) (hstep : fs.step d name = some e) :
    fs.Linked e := by
  unfold Fs.step at hstep
  split at hstep
  · next hdir =>
    obtain ⟨⟨en, n⟩, hfound, hen⟩ := Option.bind_eq_some_iff.mp hstep
    obtain ⟨-, hget, hname⟩ := search_eq_some hfound
    obtain ⟨i, hi, hlinked⟩ := (h.closed d hdir hd.2).entry en (List.mem_of_getElem? hget)
      (isName_iff.mp hname).1
    split at hen
    · obtain rfl : i = e := Fin.ext (hi.trans (congrArg Fin.val (Option.some.inj hen)))
      exact hlinked
    · cases hen
  · cases hstep

theorem isName_eq_false {en : Dirent} (h : cstr DIRSIZ name ≠ cstr DIRSIZ en.name) :
    isName name en = false := by
  rw [← Bool.not_eq_true, isName_iff]
  exact fun hnamed => h hnamed.2.symm

section

variable (h : Lawful root fs) (hlive : fs.graph.Live d)
include h hlive

theorem Lawful.step_dot (hname : cstr DIRSIZ name = cstr DIRSIZ dot) :
    fs.step d name = some d := by
  have hdir := (live_graph.mp hlive).1
  obtain ⟨e₀, e₁, es, heq, hdot, hself, -⟩ := (h.dots d hdir).dir_eq
  refine step_eq (n := 0) hdir ?_ hself.symm
  rw [heq, search_cons, if_pos (isName_iff.mpr ⟨hdot.1, hdot.2.trans hname.symm⟩)]

theorem Lawful.step_dotdot (hname : cstr DIRSIZ name = cstr DIRSIZ dotdot) :
    fs.step d name = some (fs.graph.parent d) := by
  have hdir := (live_graph.mp hlive).1
  obtain ⟨e₀, e₁, es, heq, hdot, -, hdotdot⟩ := (h.dots d hdir).dir_eq
  have hskip : isName name e₀ = false := by
    refine isName_eq_false ?_
    rw [hname, hdot.2]
    decide
  have hup : (fs.graph.parent d : ℕ) = e₁.inum :=
    parent_graph (h.dots d hdir) hdir (by rw [heq]; rfl) hdotdot.1
  refine step_eq (n := 1) hdir ?_ hup
  rw [heq, search_cons, hskip, search_cons,
    if_pos (isName_iff.mpr ⟨hdotdot.1, hdotdot.2.trans hname.symm⟩)]
  rfl

/-- Any other name is looked up behind the first two entries. -/
theorem Lawful.step_name (hdot : cstr DIRSIZ name ≠ cstr DIRSIZ dot)
    (hdotdot : cstr DIRSIZ name ≠ cstr DIRSIZ dotdot) :
    fs.step d name = some e ↔ (cstr DIRSIZ name, e) ∈ fs.graph.names d := by
  have hdir := (live_graph.mp hlive).1
  have hdots := h.dots d hdir
  obtain ⟨e₀, e₁, es, heq, h₀, -, h₁⟩ := hdots.dir_eq
  have hskip₀ : isName name e₀ = false := isName_eq_false (by rwa [h₀.2])
  have hskip₁ : isName name e₁ = false := isName_eq_false (by rwa [h₁.2])
  have hsearch : search (isName name) (fs.dir d) 0 = search (isName name) es 2 := by
    rw [heq, search_cons, hskip₀, search_cons, hskip₁]
    rfl
  have hnames : fs.graph.names d = (es.filterMap (Dirent.target sb) : List _) := by
    rw [names_graph hdir, heq]
    rfl
  cases hfound : search (isName name) es 2 with
  | none =>
      have hnone : fs.step d name = none := by
        rw [Fs.step, if_pos hdir, hsearch, hfound]
        rfl
      rw [hnone, hnames, Multiset.mem_coe, List.mem_filterMap]
      refine ⟨fun hstep => (by cases hstep), ?_⟩
      rintro ⟨en, hen, htarget⟩
      obtain ⟨hz, -, hcstr⟩ := of_target_eq_some htarget
      have hnot := search_eq_none.mp hfound en hen
      rw [isName_iff.mpr ⟨hz, hcstr⟩] at hnot
      cases hnot
  | some x =>
      obtain ⟨en, n⟩ := x
      obtain ⟨-, hget, hname⟩ := search_eq_some hfound
      obtain ⟨hz, hcstr⟩ := isName_iff.mp hname
      have hen : en ∈ fs.dir d := by
        rw [heq]
        exact List.mem_cons_of_mem _ (List.mem_cons_of_mem _ (List.mem_of_getElem? hget))
      obtain ⟨i, hi, htarget⟩ := hdots.ref hen hz
      have hstep := step_eq hdir (hsearch.trans hfound) hi
      have hmem : (cstr DIRSIZ name, i) ∈ fs.graph.names d := by
        rw [hnames, Multiset.mem_coe, List.mem_filterMap, ← hcstr]
        exact ⟨en, List.mem_of_getElem? hget, htarget⟩
      rw [hstep, Option.some.injEq]
      exact ⟨fun heq => heq ▸ hmem, fun hmem' => h.tree.eq_of_named hlive hmem hmem'⟩

end

/-- `namex` goes where the names in the tree lead. -/
theorem Lawful.resolve_eq_some_iff (h : Lawful root fs) {names : List (List UInt8)}
    (hd : fs.Linked d) :
    (fs.resolve false d names).map Prod.fst = some e ↔ fs.Leads d names e := by
  induction names generalizing d with
  | nil => simp [Fs.resolve, Fs.Leads, LinkGraph.Walk]
  | cons name names ih =>
      have hresolve : fs.resolve false d (name :: names) =
          (fs.step d name).bind fun e => fs.resolve false e names := by
        rw [Fs.resolve, if_neg (by simp)]
      rw [hresolve, Fs.Leads, List.map_cons, LinkGraph.Walk]
      by_cases hdir : (fs.ino d).type = T_DIR
      · have hlive : fs.graph.Live d := live_graph.mpr ⟨hdir, hd.2⟩
        rw [and_iff_right hlive]
        split
        · next hname =>
          rw [h.step_dot hlive hname]
          exact ih hd
        · next hdot =>
          split
          · next hname =>
            have hstep := h.step_dotdot hlive hname
            rw [hstep]
            exact ih (h.closed.linked_step hd hstep)
          · next hdotdot =>
            constructor
            · intro hmap
              obtain ⟨x, hx, rfl⟩ := Option.map_eq_some_iff.mp hmap
              obtain ⟨i, hstep, hrest⟩ := Option.bind_eq_some_iff.mp hx
              refine ⟨i, (h.step_name hlive hdot hdotdot).mp hstep, ?_⟩
              exact (ih (h.closed.linked_step hd hstep)).mp (by rw [hrest]; rfl)
            · rintro ⟨i, hmem, hwalk⟩
              have hstep := (h.step_name hlive hdot hdotdot).mpr hmem
              rw [hstep]
              exact (ih (h.closed.linked_step hd hstep)).mpr hwalk
      · have hnone : fs.step d name = none := if_neg hdir
        rw [hnone]
        refine ⟨fun hmap => (by cases hmap), fun hwalk => ?_⟩
        exact absurd (live_graph.mp hwalk.1).1 hdir

theorem Good.namei_leads {k : Kernel sb} {held : Multiset (Fin sb.ninodes)} {cwd : Fin sb.ninodes}
    {path : List UInt8} (h : Good root k held ∅) (hroot : (root : ℕ) = ROOTINO)
    (hroom : Room 2 held) (hcwd : cwd ∈ held) (hstart : Starts k.fs cwd path) :
    ∃ r k', FileSystem.namei cwd path k = some (r, k') ∧ k'.fs = k.fs ∧ ∀ i, r = some i ↔
      k.fs.Leads (if path.head? = some slash then root else cwd) (components path) i := by
  obtain ⟨k', hrun, h', -⟩ := h.table.namex h.lawful.closed hroom hroot h.lawful.linked_root hcwd
    path hstart false
  have hlinked : k.fs.Linked (if path.head? = some slash then root else cwd) := by
    split
    · exact h.lawful.linked_root
    · next hrel => exact hstart.resolve_left hrel
  refine ⟨_, k', ?_, h'.fs_eq, fun i => h.lawful.resolve_eq_some_iff hlinked⟩
  rw [FileSystem.namei, hrun]
  rfl

end ShellXv6.Xv6.FileSystem
