import ShellXv6.Lib.LinkTree
import ShellXv6.Xv6.FileCalls

/-!
# The namespace on disk

What the disk says about names, read as a graph: the kind and the link count of every inode, the
names that each directory holds besides `.` and `..`, and the directory above it.  The pieces
that system calls are made of change this graph at one or two inodes.
-/

namespace ShellXv6.Xv6.FileSystem

open ShellXv6.CString
open ShellXv6.LinkTree

variable {sb : Superblock}

/-- The name and the inode of an entry that is in use. -/
def Dirent.target (sb : Superblock) (e : Dirent) : Option (List UInt8 × Fin sb.ninodes) :=
  if h : e.inum < sb.ninodes then
    if e.inum = 0 then none else some (cstr DIRSIZ e.name, ⟨e.inum, h⟩)
  else none

def kindOf (ip : Inode) : Kind :=
  if ip.type = 0 then .free else if ip.type = T_DIR then .dir else .leaf

def namesOf (ip : Inode) (es : List Dirent) : Multiset (List UInt8 × Fin sb.ninodes) :=
  if ip.type = T_DIR then ((es.drop 2).filterMap (Dirent.target sb) : List _) else 0

def parentOf (i : Fin sb.ninodes) (ip : Inode) (es : List Dirent) : Fin sb.ninodes :=
  if ip.type = T_DIR then (es[1]?.bind (Dirent.target sb)).elim i Prod.snd else i

def Fs.graph (fs : Fs sb) : LinkGraph (Fin sb.ninodes) (List UInt8) where
  kind i := kindOf (fs.ino i)
  nlink i := (fs.ino i).nlink
  names i := namesOf (fs.ino i) (fs.dir i)
  parent i := parentOf i (fs.ino i) (fs.dir i)

/-- A directory starts with `.` and `..`, and has these names only once. -/
structure Dots (fs : Fs sb) (d : Fin sb.ninodes) : Prop where
  aligned : Aligned (fs.contents d)
  self : ∃ e, (fs.dir d)[0]? = some e ∧ e.Named dot ∧ e.inum = (d : ℕ)
  up : ∃ e, (fs.dir d)[1]? = some e ∧ e.Named dotdot
  rest : ∀ e ∈ (fs.dir d).drop 2, ¬e.Named dot ∧ ¬e.Named dotdot
  range : ∀ e ∈ fs.dir d, e.inum < sb.ninodes

/-- What holds between two calls. -/
structure Lawful (root : Fin sb.ninodes) (fs : Fs sb) : Prop where
  sound : Sound fs
  tree : IsTree root fs.graph
  top : fs.graph.parent root = root
  dots : ∀ d, (fs.ino d).type = T_DIR → Dots fs d
  bare : ∀ i, (fs.ino i).type = 0 →
    (fs.ino i).nlink = 0 ∧ (fs.ino i).size = 0 ∧ ∀ k, (fs.ino i).addrs k = 0
  short : ∀ i, (fs.ino i).nlink < 32768
  unused : ∀ i : Fin sb.ninodes, (i : ℕ) = 0 → (fs.ino i).type = 0

variable {fs fs' : Fs sb} {root d i : Fin sb.ninodes} {name : List UInt8}

theorem kindOf_eq_dir {ip : Inode} : kindOf ip = .dir ↔ ip.type = T_DIR := by
  unfold kindOf
  split
  · next h => simp [h, T_DIR]
  · split <;> simp [*]

theorem kindOf_eq_free {ip : Inode} : kindOf ip = .free ↔ ip.type = 0 := by
  unfold kindOf
  split
  · simp [*]
  · split <;> simp [*, T_DIR]

theorem kindOf_eq_leaf {ip : Inode} : kindOf ip = .leaf ↔ ip.type ≠ 0 ∧ ip.type ≠ T_DIR := by
  unfold kindOf
  split
  · simp [*]
  · split <;> simp [*]

theorem live_graph : fs.graph.Live d ↔ (fs.ino d).type = T_DIR ∧ (fs.ino d).nlink ≠ 0 :=
  and_congr kindOf_eq_dir Nat.pos_iff_ne_zero

theorem names_graph (hd : (fs.ino d).type = T_DIR) :
    fs.graph.names d = (((fs.dir d).drop 2).filterMap (Dirent.target sb) : List _) :=
  if_pos hd

theorem target_eq_some {e : Dirent} (hi : (i : ℕ) = e.inum) (hz : e.inum ≠ 0) :
    e.target sb = some (cstr DIRSIZ e.name, i) := by
  have hlt : e.inum < sb.ninodes := hi ▸ i.isLt
  rw [Dirent.target, dif_pos hlt, if_neg hz]
  exact congrArg (fun j => some (cstr DIRSIZ e.name, j)) (Fin.ext hi.symm)

theorem target_zero {e : Dirent} (h : e.inum = 0) : e.target sb = none := by
  simp [Dirent.target, h]

/-- Only entries in use have a target. -/
theorem of_target_eq_some {e : Dirent} {x : List UInt8 × Fin sb.ninodes}
    (h : e.target sb = some x) : e.inum ≠ 0 ∧ (x.2 : ℕ) = e.inum ∧ cstr DIRSIZ e.name = x.1 := by
  unfold Dirent.target at h
  split at h
  · split at h
    · cases h
    · next hz =>
      cases h
      exact ⟨hz, rfl, rfl⟩
  · cases h

theorem Dots.ref (h : Dots fs d) {e : Dirent} (he : e ∈ fs.dir d) (hz : e.inum ≠ 0) :
    ∃ i : Fin sb.ninodes, (i : ℕ) = e.inum ∧ e.target sb = some (cstr DIRSIZ e.name, i) :=
  ⟨⟨e.inum, h.range e he⟩, rfl, target_eq_some rfl hz⟩

theorem Dots.congr (h : Dots fs d) (hsame : fs'.contents d = fs.contents d) : Dots fs' d := by
  have hdir : fs'.dir d = fs.dir d := congrArg entries hsame
  refine ⟨hsame ▸ h.aligned, ?_, ?_, ?_, ?_⟩
  · rw [hdir]
    exact h.self
  · rw [hdir]
    exact h.up
  · rw [hdir]
    exact h.rest
  · rw [hdir]
    exact h.range

theorem parent_graph (h : Dots fs d) (hd : (fs.ino d).type = T_DIR) {e : Dirent}
    (he : (fs.dir d)[1]? = some e) (hz : e.inum ≠ 0) : (fs.graph.parent d : ℕ) = e.inum := by
  obtain ⟨i, hi, htarget⟩ := h.ref (List.mem_of_getElem? he) hz
  have hparent : fs.graph.parent d = i := by
    show parentOf d (fs.ino d) (fs.dir d) = i
    rw [parentOf, if_pos hd, he, Option.bind_some, htarget, Option.elim_some]
  rw [hparent, hi]

theorem mem_names (hd : (fs.ino d).type = T_DIR) {e : Dirent} {n : ℕ}
    (hn : 2 ≤ n) (he : (fs.dir d)[n]? = some e) (hi : (i : ℕ) = e.inum) (hz : e.inum ≠ 0) :
    (cstr DIRSIZ e.name, i) ∈ fs.graph.names d := by
  rw [names_graph hd, Multiset.mem_coe, List.mem_filterMap]
  refine ⟨e, ?_, target_eq_some hi hz⟩
  refine List.mem_of_getElem? (i := n - 2) ?_
  rw [List.getElem?_drop, Nat.add_sub_cancel' hn, he]

/-- Names lead somewhere, in the tree and therefore on disk. -/
theorem Lawful.closed (h : Lawful root fs) : Closed fs := by
  refine ⟨h.sound, fun d hd hlink => ?_⟩
  have hdots := h.dots d hd
  have hlive := live_graph.mpr ⟨hd, hlink⟩
  refine ⟨hdots.aligned, fun e he hz => ?_⟩
  obtain ⟨n, hn, hget⟩ := List.getElem_of_mem he
  have hget' : (fs.dir d)[n]? = some e := by rw [List.getElem?_eq_getElem hn, hget]
  have hlinked : ∀ i, fs.graph.Live i → fs.Linked i := by
    intro i hi
    obtain ⟨htype, hnlink⟩ := live_graph.mp hi
    exact ⟨by rw [htype]; decide, hnlink⟩
  match n with
  | 0 =>
      obtain ⟨e₀, he₀, -, hself⟩ := hdots.self
      obtain rfl : e₀ = e := Option.some.inj (he₀.symm.trans hget')
      exact ⟨d, hself.symm, hlinked d hlive⟩
  | 1 =>
      have hparent := parent_graph hdots hd hget' hz
      refine ⟨fs.graph.parent d, hparent, hlinked _ ?_⟩
      by_cases hroot : d = root
      · rw [hroot, h.top]
        exact h.tree.top
      · exact (h.tree.parent_live hlive hroot).1
  | n + 2 =>
      obtain ⟨i, hi, -⟩ := hdots.ref he hz
      have hmem := mem_names hd (Nat.le_add_left 2 n) hget' hi hz
      refine ⟨i, hi, fun hfree => ?_, Nat.ne_of_gt (h.tree.nlink_pos hlive hmem)⟩
      exact (h.tree.named d _ i hlive hmem).1 (kindOf_eq_free.mpr hfree)

theorem Lawful.ne_zero (h : Lawful root fs) (hi : (fs.ino i).type ≠ 0) : (i : ℕ) ≠ 0 :=
  fun hz => hi (h.unused i hz)

theorem Lawful.linked_root (h : Lawful root fs) : fs.Linked root := by
  obtain ⟨htype, hnlink⟩ := live_graph.mp h.tree.top
  exact ⟨by rw [htype]; decide, hnlink⟩

/-! ## Entries as names -/

section

variable {α β : Type*} {f : α → Option β}

/-- The list without one element, and what that element adds. -/
theorem coe_filterMap_eq (es : List α) (n : ℕ) :
    ((es.filterMap f : List β) : Multiset β) =
      ((es[n]?.bind f).toList : List β) + ((es.eraseIdx n).filterMap f : List β) := by
  rw [Multiset.coe_add, Multiset.coe_eq_coe]
  induction es generalizing n with
  | nil => simp
  | cons a es ih =>
      cases n with
      | zero =>
          cases hf : f a <;> simp [hf]
      | succ n =>
          have hrest := ih n
          cases hf : f a with
          | none => simpa [List.filterMap_cons, hf] using hrest
          | some b =>
              simp only [List.filterMap_cons, hf, List.getElem?_cons_succ, List.eraseIdx_cons_succ]
              exact (hrest.cons b).trans List.perm_middle.symm

end

theorem coe_filterMap_edit {β : Type*} {f : Dirent → Option β} {es : List Dirent} {n : ℕ}
    (hn : n ≤ es.length) (e : Dirent) :
    (((edit es n e).filterMap f : List β) : Multiset β) =
      ((f e).toList : List β) + ((es.eraseIdx n).filterMap f : List β) := by
  have hlen : (es.take n).length = n := List.length_take_of_le hn
  have hget : (edit es n e)[n]? = some e := by
    rw [edit, List.getElem?_append_right (by omega), hlen, Nat.sub_self]
    rfl
  have herase : (edit es n e).eraseIdx n = es.eraseIdx n := by
    rw [edit, List.eraseIdx_append_of_length_le (by omega), hlen, Nat.sub_self,
      List.eraseIdx_cons_zero, List.eraseIdx_eq_take_drop_succ]
  rw [coe_filterMap_eq (f := f) (edit es n e) n, hget, herase, Option.bind_some]

theorem drop_edit {es : List Dirent} {n m : ℕ} (hm : m ≤ n) (hn : n ≤ es.length) (e : Dirent) :
    (edit es n e).drop m = edit (es.drop m) (n - m) e := by
  rw [edit, edit, List.drop_append_of_le_length (by rw [List.length_take_of_le hn]; exact hm),
    List.drop_take, List.drop_drop]
  congr 3
  omega

theorem getElem?_edit_of_lt {es : List Dirent} {n m : ℕ} (hm : m < n) (hn : n ≤ es.length)
    (e : Dirent) : (edit es n e)[m]? = es[m]? := by
  rw [edit, List.getElem?_append_left (by rw [List.length_take_of_le hn]; exact hm),
    List.getElem?_take_of_lt hm]

theorem mem_edit {es : List Dirent} {n : ℕ} {e x : Dirent} (h : x ∈ edit es n e) :
    x = e ∨ x ∈ es := by
  rcases List.mem_append.mp h with h | h
  · exact .inr (List.mem_of_mem_take h)
  · rcases List.mem_cons.mp h with h | h
    · exact .inl h
    · exact .inr (List.mem_of_mem_drop h)

theorem Dots.edited {n : ℕ} {e : Dirent} (h : Dots fs d) (hed : Edited d n e fs fs')
    (hlo : 2 ≤ n) (hn : n ≤ (fs.dir d).length) (he : e.inum < sb.ninodes)
    (hname : ¬e.Named dot ∧ ¬e.Named dotdot) : Dots fs' d := by
  refine ⟨hed.aligned, ?_, ?_, ?_, ?_⟩
  · rw [hed.dir, getElem?_edit_of_lt (by omega) hn]
    exact h.self
  · rw [hed.dir, getElem?_edit_of_lt (by omega) hn]
    exact h.up
  · intro x hx
    rw [hed.dir, drop_edit hlo hn] at hx
    rcases mem_edit hx with rfl | hx
    · exact hname
    · exact h.rest x hx
  · intro x hx
    rw [hed.dir] at hx
    rcases mem_edit hx with rfl | hx
    · exact he
    · exact h.range x hx

/-! ## How the graph changes -/

theorem graph_ext {g : LinkGraph (Fin sb.ninodes) (List UInt8)}
    (hkind : ∀ j, kindOf (fs.ino j) = g.kind j) (hnlink : ∀ j, (fs.ino j).nlink = g.nlink j)
    (hnames : ∀ j, namesOf (fs.ino j) (fs.dir j) = g.names j)
    (hparent : ∀ j, parentOf j (fs.ino j) (fs.dir j) = g.parent j) : fs.graph = g := by
  cases g
  rw [Fs.graph, LinkGraph.mk.injEq]
  exact ⟨funext hkind, funext hnlink, funext hnames, funext hparent⟩

/-- Two inodes that look alike to a reader of names. -/
structure Alike (fs fs' : Fs sb) (j : Fin sb.ninodes) : Prop where
  type : (fs'.ino j).type = (fs.ino j).type
  nlink : (fs'.ino j).nlink = (fs.ino j).nlink
  contents : (fs.ino j).type = T_DIR → fs'.contents j = fs.contents j

theorem Alike.kind {j : Fin sb.ninodes} (h : Alike fs fs' j) :
    kindOf (fs'.ino j) = kindOf (fs.ino j) := by
  rw [kindOf, kindOf, h.type]

theorem Alike.names {j : Fin sb.ninodes} (h : Alike fs fs' j) :
    (namesOf (fs'.ino j) (fs'.dir j) : Multiset (List UInt8 × Fin sb.ninodes)) =
      namesOf (fs.ino j) (fs.dir j) := by
  unfold namesOf
  rw [h.type]
  split
  · next hd => rw [Fs.dir, Fs.dir, h.contents hd]
  · rfl

theorem Alike.parent {j : Fin sb.ninodes} (h : Alike fs fs' j) :
    parentOf j (fs'.ino j) (fs'.dir j) = parentOf j (fs.ino j) (fs.dir j) := by
  unfold parentOf
  rw [h.type]
  split
  · next hd => rw [Fs.dir, Fs.dir, h.contents hd]
  · rfl

theorem graph_congr (h : ∀ j, Alike fs fs' j) : fs'.graph = fs.graph :=
  graph_ext (fun j => (h j).kind) (fun j => (h j).nlink) (fun j => (h j).names)
    fun j => (h j).parent

/-- All but one inode look alike. -/
theorem graph_update (h : ∀ j, j ≠ i → Alike fs fs' j) :
    fs'.graph =
      { kind := Function.update fs.graph.kind i (kindOf (fs'.ino i))
        nlink := Function.update fs.graph.nlink i (fs'.ino i).nlink
        names := Function.update fs.graph.names i (namesOf (fs'.ino i) (fs'.dir i))
        parent := Function.update fs.graph.parent i (parentOf i (fs'.ino i) (fs'.dir i)) } := by
  have hcase : ∀ {β : Type} (f f' : Fin sb.ninodes → β), (∀ j, j ≠ i → f' j = f j) →
      ∀ j : Fin sb.ninodes, f' j = Function.update f i (f' i) j := by
    intro β f f' hf j
    by_cases hji : j = i
    · subst hji
      rw [Function.update_self]
    · rw [Function.update_of_ne hji, hf j hji]
  apply graph_ext
  · exact hcase _ _ fun j hj => (h j hj).kind
  · exact hcase _ _ fun j hj => (h j hj).nlink
  · exact hcase _ _ fun j hj => (h j hj).names
  · exact hcase _ _ fun j hj => (h j hj).parent

theorem graph_setNlink (h : Sound fs) (n : ℕ) :
    (fs.save i ((fs.ino i).setNlink n)).graph =
      { fs.graph with nlink := Function.update fs.graph.nlink i n } := by
  have hcontents := contents_save h ((fs.ino i).sameData_setNlink n)
  have halike : ∀ j, j ≠ i → Alike fs (fs.save i ((fs.ino i).setNlink n)) j := by
    intro j hj
    have hino : (fs.save i ((fs.ino i).setNlink n)).ino j = fs.ino j := ino_save_of_ne hj
    exact ⟨by rw [hino], by rw [hino], fun _ => by rw [hcontents]⟩
  rw [graph_update halike, Fs.dir, hcontents, ino_save_self]
  simp only [LinkGraph.mk.injEq]
  exact ⟨Function.update_eq_self i _, rfl, Function.update_eq_self i _, Function.update_eq_self i _⟩

theorem Unchanged.alike (h : Unchanged d fs fs') (j : Fin sb.ninodes) : Alike fs fs' j :=
  ⟨h.touches.type j, h.touches.nlink j, fun _ => by rw [h.contents]⟩

theorem Edited.alike {n : ℕ} {e : Dirent} (h : Edited d n e fs fs') {j : Fin sb.ninodes}
    (hj : j ≠ d) : Alike fs fs' j :=
  ⟨h.touches.type j, h.touches.nlink j, fun _ => h.other j hj⟩

theorem graph_edited {n : ℕ} {e : Dirent} (h : Edited d n e fs fs') :
    fs'.graph = { fs.graph with
      names := Function.update fs.graph.names d (namesOf (fs.ino d) (edit (fs.dir d) n e))
      parent := Function.update fs.graph.parent d
        (parentOf d (fs.ino d) (edit (fs.dir d) n e)) } := by
  have htype := h.touches.type d
  have hkind : kindOf (fs'.ino d) = fs.graph.kind d := by
    rw [kindOf, htype]
    rfl
  have hnlink : (fs'.ino d).nlink = fs.graph.nlink d := h.touches.nlink d
  have hnames : (namesOf (fs'.ino d) (fs'.dir d) : Multiset (List UInt8 × Fin sb.ninodes)) =
      namesOf (fs.ino d) (edit (fs.dir d) n e) := by
    rw [namesOf, htype, h.dir]
    rfl
  have hparent : parentOf d (fs'.ino d) (fs'.dir d) =
      parentOf d (fs.ino d) (edit (fs.dir d) n e) := by
    rw [parentOf, htype, h.dir]
    rfl
  rw [graph_update fun j hj => h.alike hj, hkind, hnlink, hnames, hparent,
    Function.update_eq_self, Function.update_eq_self]

/-- An entry behind `..` changes the names only. -/
theorem graph_edited_names {n : ℕ} {e : Dirent} (h : Edited d n e fs fs')
    (hd : (fs.ino d).type = T_DIR) (hlo : 2 ≤ n) (hn : n ≤ (fs.dir d).length) :
    fs'.graph = { fs.graph with
      names := Function.update fs.graph.names d (((e.target sb).toList : List _) +
        ((((fs.dir d).drop 2).eraseIdx (n - 2)).filterMap (Dirent.target sb) : List _)) } := by
  have hparent : parentOf d (fs.ino d) (edit (fs.dir d) n e) = fs.graph.parent d := by
    show _ = parentOf d (fs.ino d) (fs.dir d)
    rw [parentOf, parentOf, getElem?_edit_of_lt (by omega) hn]
  have hlen : n - 2 ≤ ((fs.dir d).drop 2).length := by
    rw [List.length_drop]
    omega
  rw [graph_edited h, hparent, Function.update_eq_self, namesOf, if_pos hd, drop_edit hlo hn,
    coe_filterMap_edit hlen]

theorem Freed.alike (h : Freed i fs fs') {j : Fin sb.ninodes} (hj : j ≠ i) : Alike fs fs' j :=
  ⟨by rw [h.other j hj], by rw [h.other j hj], fun _ => h.contents j hj⟩

theorem graph_freed (h : Freed i fs fs') (hz : (fs.ino i).nlink = 0) :
    fs'.graph = fs.graph.rekind i .free := by
  have hne : (fs'.ino i).type ≠ T_DIR := by
    rw [h.type]
    decide
  rw [graph_update fun j hj => h.alike hj, h.nlink, hz, kindOf_eq_free.mpr h.type, namesOf,
    parentOf, if_neg hne, if_neg hne]
  rfl

theorem contents_eq_nil (h : (fs.ino i).size = 0) : fs.contents i = [] := by
  rw [← List.length_eq_zero_iff, length_contents, h]

theorem sameData_blank (type : ℕ) (hsize : (fs.ino i).size = 0)
    (haddrs : ∀ k, (fs.ino i).addrs k = 0) : (blankInode type).SameData (fs.ino i) :=
  ⟨hsize.symm, (funext haddrs).symm⟩

theorem Lawful.congr (h : Lawful root fs) (hsound : Sound fs') (halike : ∀ j, Alike fs fs' j)
    (hbare : ∀ i, (fs.ino i).type = 0 → (fs'.ino i).size = 0 ∧ ∀ k, (fs'.ino i).addrs k = 0) :
    Lawful root fs' := by
  have hgraph := graph_congr halike
  refine ⟨hsound, hgraph ▸ h.tree, hgraph ▸ h.top, fun d hd => ?_, fun i hi => ?_, fun i => ?_,
    fun i hi => (halike i).type.trans (h.unused i hi)⟩
  · have hd' := (halike d).type.symm.trans hd
    exact (h.dots d hd').congr ((halike d).contents hd')
  · have hi' := (halike i).type.symm.trans hi
    exact ⟨(halike i).nlink.trans (h.bare i hi').1, hbare i hi'⟩
  · rw [(halike i).nlink]
    exact h.short i

end ShellXv6.Xv6.FileSystem
