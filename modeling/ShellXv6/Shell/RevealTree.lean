import Mathlib.Data.List.Permutation
import ShellXv6.Shell.Reveal

/-!
# Listing a directory tree

`reveal -t` walks along paths, in buffers of 4096 bytes, and not along the directories
of a tree.  The listing is compared here with the tree.  A path that does not fit into the
buffer is cut, and then another directory may be listed in place of the one that was meant,
or one directory in itself without an end.
-/

namespace ShellXv6.Shell.Reveal

open Calls

/-- A directory tree without symbolic links.  The height bounds the levels below a
directory. -/
structure Tree (Dir : Type) where
  root : Dir
  cwd : Dir
  parent : Dir → Dir
  /-- The entries besides `.` and `..`, those that are directories with the directory. -/
  entries : Dir → List (Path × Option Dir)
  readdir : Dir → List Path
  height : Dir → ℕ
  readdir_perm : ∀ d, (readdir d).Perm (dot :: dotDot :: (entries d).map Prod.fst)
  names_nodup : ∀ d, ((entries d).map Prod.fst).Nodup
  name_ne_nil : ∀ d, ∀ e ∈ entries d, e.1 ≠ []
  name_no_slash : ∀ d, ∀ e ∈ entries d, '/' ∉ e.1
  name_ne_dot : ∀ d, ∀ e ∈ entries d, e.1 ≠ dot
  name_ne_dotDot : ∀ d, ∀ e ∈ entries d, e.1 ≠ dotDot
  height_lt : ∀ d n c, (n, some c) ∈ entries d → height c < height d
  parent_entry : ∀ d n c, (n, some c) ∈ entries d → parent c = d
  parent_root : parent root = root

namespace Tree

variable {Dir : Type} (t : Tree Dir)

def subdir (d : Dir) (name : Path) : Option Dir := ((t.entries d).lookup name).join

def step (d : Dir) (component : Path) : Option Dir :=
  if component = [] ∨ component = dot then some d
  else if component = dotDot then some (t.parent d)
  else t.subdir d component

/-- The directory at a path; `PATH_MAX` of the system is the size of the buffers, too. -/
def openDir (path : Path) : Option Dir :=
  if path = [] ∨ bufferSize ≤ path.length then none
  else (path.splitOn '/').foldlM t.step (if path.head? = some '/' then t.root else t.cwd)

def files : Files where
  readdir path := (t.openDir path).map t.readdir
  isDir path := (t.openDir path).isSome

/-- The names that are printed, in the order of `strcmp`. -/
def names (hidden : Bool) (d : Dir) : List Path := (sorted (t.readdir d)).filter (shown hidden)

end Tree

/-! ## The listing of a tree -/

/-- An entry below the target: the directories on the way to it, and its name. -/
structure Entry where
  dirs : List Path
  name : Path
  is_dir : Bool
  deriving DecidableEq

/-- A path relative to the target, as a prefix of the names in a directory. -/
def prefixOf (dirs : List Path) : Path := dirs.flatMap (· ++ ['/'])

def pathOf (target : Path) (dirs : List Path) : Path := target ++ dirs.flatMap ('/' :: ·)

/-- The call that lists a directory below the target. -/
def callOf (target : Path) (dirs : List Path) : Call := ⟨pathOf target dirs, prefixOf dirs⟩

def Entry.text (e : Entry) : List Char := line (prefixOf e.dirs) e.name e.is_dir

namespace Tree

variable {Dir : Type} (t : Tree Dir)

def subdirContents (inside : List Path → Dir → List Entry) (dirs : List Path) (d : Dir)
    (name : Path) : List Entry :=
  match t.subdir d name with
  | none => []
  | some c => inside (dirs ++ [name]) c

def entryContents (inside : List Path → Dir → List Entry) (dirs : List Path) (d : Dir)
    (name : Path) : List Entry :=
  ⟨dirs, name, (t.step d name).isSome⟩ :: t.subdirContents inside dirs d name

/-- The entries below a directory, each directory in front of its contents. -/
def contents (hidden : Bool) : ℕ → List Path → Dir → List Entry
  | 0, _, _ => []
  | levels + 1, dirs, d =>
      (t.names hidden d).flatMap (t.entryContents (contents hidden levels) dirs d)

def below (hidden : Bool) (d : Dir) : List Entry := t.contents hidden (t.height d + 1) [] d

/-- The way from one directory down to another one, along names that are printed. -/
inductive Within (hidden : Bool) : List Path → Dir → List Path → Dir → Prop where
  | here {dirs d} : Within hidden dirs d dirs d
  | enter {dirs d name c dirs' d'} : name ∈ t.names hidden d → t.subdir d name = some c →
      Within hidden (dirs ++ [name]) c dirs' d' → Within hidden dirs d dirs' d'

/-- Nothing is printed for a directory but `.` and `..`. -/
def Bare (hidden : Bool) (d : Dir) : Prop := ∀ name ∈ t.names hidden d, name = dot ∨ name = dotDot

/-- An entry with a path that is too long comes out right: the path that is left names a
directory if and only if the entry is one, and then there is nothing to list in either. -/
def CutHarmless (hidden : Bool) (c : Call) (d : Dir) (name : Path) : Prop :=
  match t.subdir d name, t.openDir (c.newPath name) with
  | none, none => True
  | some e, some e' =>
      t.Bare hidden e ∧ t.Bare hidden e' ∧ (t.readdir e').length ≤ bufferSize ∧
        (hidden = true → (c.pre ++ (name ++ ['/'])).length < bufferSize)
  | _, _ => False

/-- Each directory below fits into the table, and each path into its buffer unless the
cut is harmless. -/
def Fits (hidden : Bool) (target : Path) (dirs : List Path) (d : Dir) : Prop :=
  ∀ dirs' d', t.Within hidden dirs d dirs' d' → (pathOf target dirs').length < bufferSize →
    (t.readdir d').length ≤ bufferSize ∧
      ∀ name ∈ t.names hidden d', name ≠ dot → name ≠ dotDot →
        bufferSize ≤ (pathOf target (dirs' ++ [name])).length →
          t.CutHarmless hidden (callOf target dirs') d' name

end Tree

/-! ## Paths and names -/

theorem strcmpLe_total (a b : Path) : strcmpLe a b = true ∨ strcmpLe b a = true := by
  induction a generalizing b with
  | nil => exact .inl rfl
  | cons x as ih =>
      cases b with
      | nil => exact .inr rfl
      | cons y bs =>
          by_cases h : x = y
          · rw [strcmpLe, strcmpLe, if_pos h, if_pos h.symm]
            exact ih bs
          · have hne : x.toNat ≠ y.toNat := fun heq => h (Char.toNat_inj.mp heq)
            rw [strcmpLe, strcmpLe, if_neg h, if_neg (Ne.symm h), decide_eq_true_eq,
              decide_eq_true_eq]
            omega

theorem strcmpLe_trans {a b c : Path} (h : strcmpLe a b = true) (h' : strcmpLe b c = true) :
    strcmpLe a c = true := by
  induction a generalizing b c with
  | nil => rfl
  | cons x as ih =>
      cases b with
      | nil => cases h
      | cons y bs =>
          cases c with
          | nil => cases h'
          | cons z cs =>
              rw [strcmpLe] at h h' ⊢
              by_cases hxy : x = y
              · rw [if_pos hxy] at h
                rw [hxy]
                by_cases hyz : y = z
                · rw [if_pos hyz] at h' ⊢
                  exact ih h h'
                · rw [if_neg hyz] at h' ⊢
                  exact h'
              · rw [if_neg hxy, decide_eq_true_eq] at h
                by_cases hyz : y = z
                · rw [← hyz, if_neg hxy, decide_eq_true_eq]
                  exact h
                · rw [if_neg hyz, decide_eq_true_eq] at h'
                  have hlt := Nat.lt_trans h h'
                  rw [if_neg (fun heq => Nat.lt_irrefl _ (heq ▸ hlt)), decide_eq_true_eq]
                  exact hlt

instance : Std.Total fun a b : Path => strcmpLe a b = true := ⟨strcmpLe_total⟩

instance : IsTrans Path fun a b => strcmpLe a b = true := ⟨fun _ _ _ => strcmpLe_trans⟩

theorem prefixOf_concat (dirs : List Path) (name : Path) :
    prefixOf (dirs ++ [name]) = prefixOf dirs ++ (name ++ ['/']) := by
  rw [prefixOf, List.flatMap_append, List.flatMap_singleton, prefixOf]

theorem pathOf_concat (target : Path) (dirs : List Path) (name : Path) :
    pathOf target (dirs ++ [name]) = pathOf target dirs ++ '/' :: name := by
  rw [pathOf, List.flatMap_append, List.flatMap_singleton, pathOf, List.append_assoc]

theorem length_pathOf (target : Path) (dirs : List Path) :
    (pathOf target dirs).length = target.length + (prefixOf dirs).length := by
  rw [pathOf, List.length_append, prefixOf, List.length_flatMap, List.length_flatMap]
  simp

theorem fitted_of_lt {text : Path} (h : text.length < bufferSize) : fitted text = text :=
  List.take_of_length_le (by omega)

theorem length_fitted {text : Path} (h : bufferSize ≤ text.length) :
    (fitted text).length = bufferSize - 1 := by
  rw [fitted, List.length_take]
  omega

namespace Tree

variable {Dir : Type} {t : Tree Dir} {hidden : Bool} {d : Dir} {name : Path}

theorem mem_entries_of_subdir {c : Dir} (h : t.subdir d name = some c) :
    (name, some c) ∈ t.entries d := by
  obtain ⟨l₁, l₂, heq, -⟩ := List.lookup_eq_some_iff.mp (Option.join_eq_some_iff.mp h)
  rw [heq]
  exact List.mem_append_right _ List.mem_cons_self

theorem height_subdir {c : Dir} (h : t.subdir d name = some c) : t.height c < t.height d :=
  t.height_lt d name c (mem_entries_of_subdir h)

theorem subdirContents_none {inside : List Path → Dir → List Entry} {dirs : List Path}
    (h : t.subdir d name = none) : t.subdirContents inside dirs d name = [] := by
  rw [subdirContents, h]

theorem subdirContents_some {inside : List Path → Dir → List Entry} {dirs : List Path} {c : Dir}
    (h : t.subdir d name = some c) :
    t.subdirContents inside dirs d name = inside (dirs ++ [name]) c := by
  rw [subdirContents, h]

theorem mem_subdirContents {inside : List Path → Dir → List Entry} {dirs : List Path} {e : Entry} :
    e ∈ t.subdirContents inside dirs d name ↔
      ∃ c, t.subdir d name = some c ∧ e ∈ inside (dirs ++ [name]) c := by
  cases h : t.subdir d name with
  | none => simp [subdirContents_none h]
  | some c => simp [subdirContents_some h]

theorem subdir_dot (d : Dir) : t.subdir d dot = none := by
  cases h : t.subdir d dot with
  | none => rfl
  | some c => exact absurd rfl (t.name_ne_dot d _ (mem_entries_of_subdir h))

theorem subdir_dotDot (d : Dir) : t.subdir d dotDot = none := by
  cases h : t.subdir d dotDot with
  | none => rfl
  | some c => exact absurd rfl (t.name_ne_dotDot d _ (mem_entries_of_subdir h))

theorem mem_readdir :
    name ∈ t.readdir d ↔ name = dot ∨ name = dotDot ∨ ∃ e ∈ t.entries d, e.1 = name := by
  rw [(t.readdir_perm d).mem_iff, List.mem_cons, List.mem_cons, List.mem_map]

theorem mem_names : name ∈ t.names hidden d ↔ name ∈ t.readdir d ∧ shown hidden name = true := by
  rw [names, List.mem_filter, sorted, List.mem_insertionSort]

theorem names_ne_nil (h : name ∈ t.names hidden d) : name ≠ [] := by
  rcases mem_readdir.mp (mem_names.mp h).1 with rfl | rfl | ⟨e, he, rfl⟩
  · exact List.cons_ne_nil _ _
  · exact List.cons_ne_nil _ _
  · exact t.name_ne_nil d e he

theorem names_no_slash (h : name ∈ t.names hidden d) : '/' ∉ name := by
  rcases mem_readdir.mp (mem_names.mp h).1 with rfl | rfl | ⟨e, he, rfl⟩
  · decide
  · decide
  · exact t.name_no_slash d e he

theorem nodup_readdir (d : Dir) : (t.readdir d).Nodup := by
  apply (t.readdir_perm d).nodup_iff.mpr
  refine List.nodup_cons.mpr ⟨?_, List.nodup_cons.mpr ⟨?_, t.names_nodup d⟩⟩
  · intro hmem
    rcases List.mem_cons.mp hmem with heq | hmem
    · exact absurd heq (by decide)
    · obtain ⟨e, he, heq⟩ := List.mem_map.mp hmem
      exact t.name_ne_dot d e he heq
  · intro hmem
    obtain ⟨e, he, heq⟩ := List.mem_map.mp hmem
    exact t.name_ne_dotDot d e he heq

theorem nodup_names (d : Dir) : (t.names hidden d).Nodup :=
  ((List.perm_insertionSort _ _).nodup_iff.mpr (nodup_readdir d)).filter _

theorem pairwise_names (hidden : Bool) (d : Dir) :
    (t.names hidden d).Pairwise fun a b => strcmpLe a b = true :=
  (List.pairwise_insertionSort _ _).filter _

theorem step_of_ne (hnil : name ≠ []) (hdot : name ≠ dot) (hdotDot : name ≠ dotDot) :
    t.step d name = t.subdir d name := by
  rw [step, if_neg (not_or.mpr ⟨hnil, hdot⟩), if_neg hdotDot]

/-- What is left of `.` and `..` is a directory. -/
theorem step_dots_isSome (h : name = dot ∨ name = dotDot) (n : ℕ) :
    (t.step d (name.take n)).isSome = true := by
  have hdot (m : ℕ) : dot.take m = [] ∨ dot.take m = dot := by
    cases m with
    | zero => exact .inl rfl
    | succ m => exact .inr (List.take_of_length_le (Nat.succ_le_succ (Nat.zero_le m)))
  have hdotDot (m : ℕ) : dotDot.take m = [] ∨ dotDot.take m = dot ∨ dotDot.take m = dotDot := by
    cases m with
    | zero => exact .inl rfl
    | succ m =>
        cases m with
        | zero => exact .inr (.inl rfl)
        | succ m =>
            exact .inr (.inr (List.take_of_length_le
              (Nat.succ_le_succ (Nat.succ_le_succ (Nat.zero_le m)))))
  rcases h with rfl | rfl
  · rcases hdot n with h | h <;> rw [h] <;> rfl
  · rcases hdotDot n with h | h | h <;> rw [h] <;> rfl

/-! ## Opening directories -/

theorem openDir_ne_nil {path : Path} (h : t.openDir path = some d) :
    path ≠ [] ∧ path.length < bufferSize := by
  rw [openDir] at h
  split at h
  · cases h
  · rename_i hok
    rw [not_or] at hok
    exact ⟨hok.1, Nat.lt_of_not_le hok.2⟩

theorem openDir_append {path : Path} (h : t.openDir path = some d) (hslash : '/' ∉ name)
    (hlen : (path ++ '/' :: name).length < bufferSize) :
    t.openDir (path ++ '/' :: name) = t.step d name := by
  obtain ⟨hne, hlt⟩ := openDir_ne_nil h
  have hhead : (path ++ '/' :: name).head? = path.head? := List.head?_append_of_ne_nil _ hne
  rw [openDir, if_neg (not_or.mpr ⟨hne, Nat.not_le.mpr hlt⟩)] at h
  rw [openDir, if_neg (not_or.mpr ⟨List.append_ne_nil_of_left_ne_nil hne _, Nat.not_le.mpr hlen⟩),
    List.splitOn_append_cons_self, List.splitOn_eq_singleton hslash, List.foldlM_append, hhead, h]
  exact Option.bind_fun_some _

/-- What is left of a longer path is opened like a component, or it is the path itself. -/
theorem openDir_newPath {c : Call} (h : t.openDir c.path = some d) (hslash : '/' ∉ name) :
    t.openDir (c.newPath name) =
      if c.path.length + 1 < bufferSize then
        t.step d (name.take (bufferSize - 1 - (c.path.length + 1)))
      else some d := by
  have hlt := (openDir_ne_nil h).2
  by_cases hroom : c.path.length + 1 < bufferSize
  · have hcut : c.newPath name =
        c.path ++ '/' :: name.take (bufferSize - 1 - (c.path.length + 1)) := by
      rw [Call.newPath, fitted, List.take_append, List.take_of_length_le (by omega),
        show bufferSize - 1 - c.path.length = bufferSize - 1 - (c.path.length + 1) + 1 by omega,
        List.take_succ_cons]
    have hlen : (c.path ++ '/' :: name.take (bufferSize - 1 - (c.path.length + 1))).length <
        bufferSize := by
      rw [List.length_append, List.length_cons, List.length_take]
      omega
    rw [if_pos hroom, hcut, openDir_append h (fun hmem => hslash (List.mem_of_mem_take hmem)) hlen]
  · have hcut : c.newPath name = c.path := by
      rw [Call.newPath, fitted, List.take_append_of_le_length (by omega),
        List.take_of_length_le (by omega)]
    rw [if_neg hroom, hcut, h]

/-! ## Directories with nothing to list -/

theorem names_true (d : Dir) : t.names true d = sorted (t.readdir d) :=
  List.filter_eq_self.mpr fun _ _ => rfl

theorem length_names_true (d : Dir) : (t.names true d).length = (t.entries d).length + 2 := by
  rw [names_true, sorted, List.length_insertionSort, (t.readdir_perm d).length_eq,
    List.length_cons, List.length_cons, List.length_map]

theorem bare_true_iff : t.Bare true d ↔ t.entries d = [] := by
  constructor
  · intro h
    apply List.eq_nil_iff_forall_not_mem.mpr
    intro e he
    have hname : e.1 ∈ t.names true d :=
      mem_names.mpr ⟨mem_readdir.mpr (.inr (.inr ⟨e, he, rfl⟩)), rfl⟩
    exact (h _ hname).elim (t.name_ne_dot d e he) (t.name_ne_dotDot d e he)
  · intro h name hname
    rcases mem_readdir.mp (mem_names.mp hname).1 with hdot | hdot | ⟨e, he, -⟩
    · exact .inl hdot
    · exact .inr hdot
    · rw [h] at he
      cases he

theorem bare_false_iff : t.Bare false d ↔ t.names false d = [] := by
  constructor
  · intro h
    apply List.eq_nil_iff_forall_not_mem.mpr
    intro name hname
    have hshown := (mem_names.mp hname).2
    rcases h name hname with rfl | rfl <;> cases hshown
  · intro h name hname
    rw [h] at hname
    cases hname

theorem names_of_bare (h : t.Bare hidden d) :
    t.names hidden d = if hidden = true then [dot, dotDot] else [] := by
  cases hidden with
  | false => exact bare_false_iff.mp h
  | true =>
      have hperm := t.readdir_perm d
      rw [bare_true_iff.mp h, List.map_nil] at hperm
      rw [names_true, if_pos rfl]
      rcases List.perm_pair.mp hperm with heq | heq <;> rw [heq] <;> decide

end Tree

/-! ## What is printed -/

def Event.isPrint : Event → Bool
  | .stored _ => false
  | _ => true

def printed (out : List Event) : List Event := out.filter Event.isPrint

def InTable (out : List Event) : Prop := ∀ i, .stored i ∈ out → i < bufferSize

def lines (entries : List Entry) : List Event := entries.map fun e => .stdout e.text

structure Shows (out : List Event) (entries : List Entry) : Prop where
  inTable : InTable out
  printed_eq : printed out = lines entries

theorem printed_append (out rest : List Event) :
    printed (out ++ rest) = printed out ++ printed rest := List.filter_append _ _

theorem printed_stored (n : ℕ) (rest : List Event) :
    printed ((List.range n).map Event.stored ++ rest) = printed rest := by
  rw [printed_append, printed, List.filter_eq_nil_iff.mpr, List.nil_append]
  intro e he
  obtain ⟨i, -, rfl⟩ := List.mem_map.mp he
  exact Bool.false_ne_true

theorem printed_stdout (pre : Path) (names : List Path) :
    printed (names.map fun name => .stdout (line pre name true)) =
      names.map fun name => .stdout (line pre name true) := by
  apply List.filter_eq_self.mpr
  intro e he
  obtain ⟨_, -, rfl⟩ := List.mem_map.mp he
  rfl

theorem inTable_append {out rest : List Event} :
    InTable (out ++ rest) ↔ InTable out ∧ InTable rest := by
  simp only [InTable, List.mem_append, or_imp, forall_and]

theorem inTable_stored {n : ℕ} :
    InTable ((List.range n).map Event.stored) ↔ n ≤ bufferSize := by
  constructor
  · intro h
    by_contra hlong
    exact Nat.lt_irrefl _
      (h bufferSize (List.mem_map.mpr ⟨_, List.mem_range.mpr (Nat.lt_of_not_le hlong), rfl⟩))
  · intro h i hi
    obtain ⟨j, hj, heq⟩ := List.mem_map.mp hi
    cases heq
    exact Nat.lt_of_lt_of_le (List.mem_range.mp hj) h

theorem Shows.append {out rest : List Event} {entries entries' : List Entry}
    (h : Shows out entries) (h' : Shows rest entries') :
    Shows (out ++ rest) (entries ++ entries') where
  inTable := inTable_append.mpr ⟨h.inTable, h'.inTable⟩
  printed_eq := by rw [printed_append, h.printed_eq, h'.printed_eq, lines, lines, lines,
    List.map_append]

theorem shows_nil : Shows [] [] where
  inTable _ hi := absurd hi List.not_mem_nil
  printed_eq := rfl

theorem Shows.stdout {text : List Char} {out : List Event} {e : Entry} {entries : List Entry}
    (htext : text = e.text) (h : Shows out entries) :
    Shows (.stdout text :: out) (e :: entries) where
  inTable i hi := by
    rcases List.mem_cons.mp hi with heq | hi
    · cases heq
    · exact h.inTable i hi
  printed_eq := by
    rw [lines, List.map_cons, ← lines, ← h.printed_eq, htext]
    rfl

theorem Shows.of_stdout {text : List Char} {out : List Event} {e : Entry} {entries : List Entry}
    (h : Shows (.stdout text :: out) (e :: entries)) : Shows out entries where
  inTable i hi := h.inTable i (List.mem_cons_of_mem _ hi)
  printed_eq := (List.cons.inj h.printed_eq).2

theorem Shows.stored {n : ℕ} {out : List Event} {entries : List Entry} (hn : n ≤ bufferSize)
    (h : Shows out entries) : Shows ((List.range n).map Event.stored ++ out) entries :=
  ⟨inTable_append.mpr ⟨inTable_stored.mpr hn, h.inTable⟩, by rw [printed_stored, h.printed_eq]⟩

/-! ## One call -/

namespace Tree

variable {Dir : Type} {t : Tree Dir} {o : Options} {d : Dir} {name : Path} {c : Call}

theorem revealDir_files (h : t.openDir c.path = some d) :
    revealDir t.files o c =
      ((List.range (t.readdir d).length).map Event.stored).map .emit ++
        (t.names o.show_hidden d).flatMap (entryItems t.files o.is_recursive c) := by
  have hreaddir : t.files.readdir c.path = some (t.readdir d) := by
    simp only [files, h, Option.map_some]
  rw [revealDir, hreaddir, names]

theorem runs_revealDir (h : t.openDir c.path = some d) {out : List Event} :
    Runs (revealDir t.files o) (revealDir t.files o c) out ↔
      ∃ rest, out = (List.range (t.readdir d).length).map Event.stored ++ rest ∧
        Runs (revealDir t.files o)
          ((t.names o.show_hidden d).flatMap (entryItems t.files o.is_recursive c)) rest := by
  rw [revealDir_files h, runs_append]
  constructor
  · rintro ⟨out₁, rest, rfl, hstored, hrest⟩
    exact ⟨rest, by rw [runs_emits.mp hstored], hrest⟩
  · rintro ⟨rest, rfl, hrest⟩
    exact ⟨_, rest, rfl, runs_emits.mpr rfl, hrest⟩

/-- The entry is listed by a call of its own. -/
def Entered (t : Tree Dir) (o : Options) (c : Call) (name : Path) : Prop :=
  o.is_recursive = true ∧ (t.openDir (c.newPath name)).isSome = true ∧ name ≠ dot ∧ name ≠ dotDot

theorem runs_entryItems {out : List Event} :
    Runs (revealDir t.files o) (entryItems t.files o.is_recursive c name) out ↔
      ∃ rest, out = .stdout (line c.pre name (t.openDir (c.newPath name)).isSome) :: rest ∧
        (t.Entered o c name →
          Runs (revealDir t.files o) (revealDir t.files o (c.enter name)) rest) ∧
        (¬t.Entered o c name → rest = []) := by
  by_cases h : t.Entered o c name
  · have hitems : entryItems t.files o.is_recursive c name =
        [.emit (.stdout (line c.pre name (t.openDir (c.newPath name)).isSome)),
          .call (c.enter name)] := by
      have hcond : o.is_recursive = true ∧ t.files.isDir (c.newPath name) = true ∧ name ≠ dot ∧
          name ≠ dotDot := h
      rw [entryItems, if_pos hcond]
      rfl
    rw [hitems]
    constructor
    · rintro (_ | hcall | _)
      cases hcall with
      | call hruns hnil =>
          cases hnil
          exact ⟨_, rfl, fun _ => by rwa [List.append_nil], fun hnot => absurd h hnot⟩
    · rintro ⟨rest, rfl, hruns, -⟩
      have hnil : Runs (revealDir t.files o) [] [] := .nil
      have hcall := (hruns h).call hnil
      rw [List.append_nil] at hcall
      exact .emit hcall
  · have hitems : entryItems t.files o.is_recursive c name =
        [.emit (.stdout (line c.pre name (t.openDir (c.newPath name)).isSome))] := by
      have hcond : ¬(o.is_recursive = true ∧ t.files.isDir (c.newPath name) = true ∧ name ≠ dot ∧
          name ≠ dotDot) := h
      rw [entryItems, if_neg hcond]
      rfl
    rw [hitems]
    constructor
    · rintro (_ | hnil | _)
      cases hnil
      exact ⟨[], rfl, fun hin => absurd hin h, fun _ => rfl⟩
    · rintro ⟨rest, rfl, -, hnil⟩
      rw [hnil h]
      exact .emit .nil

/-! ### A path that fills its buffer -/

theorem newPath_full (hfull : c.path.length + 1 = bufferSize) (name : Path) :
    c.newPath name = c.path := by
  rw [Call.newPath, fitted, List.take_append_of_le_length (by omega),
    List.take_of_length_le (by omega)]

/-- Every entry of the directory seems to be the directory itself. -/
theorem entered_full (hrec : o.is_recursive = true) (hopen : t.openDir c.path = some d)
    (hfull : c.path.length + 1 = bufferSize) :
    t.Entered o c name ↔ name ≠ dot ∧ name ≠ dotDot := by
  rw [Entered, newPath_full hfull, hopen]
  exact ⟨fun h => h.2.2, fun h => ⟨hrec, rfl, h⟩⟩

theorem bare_of_runs_full (hrec : o.is_recursive = true) (hopen : t.openDir c.path = some d)
    (hfull : c.path.length + 1 = bufferSize) {out : List Event}
    (hruns : Runs (revealDir t.files o) (revealDir t.files o c) out) :
    t.Bare o.show_hidden d := by
  intro name hname
  by_contra hreal
  rw [not_or] at hreal
  -- The call for the name has the same path again.
  refine not_runs_of_calls (P := fun c' => c'.path = c.path) ?_ rfl out hruns
  intro c' hc'
  rw [← hc'] at hopen hfull
  refine ⟨c'.enter name, (newPath_full hfull name).trans hc', ?_⟩
  rw [revealDir_files hopen]
  apply List.mem_append_right
  apply List.mem_flatMap.mpr ⟨name, hname, ?_⟩
  have hcond : o.is_recursive = true ∧ t.files.isDir (c'.newPath name) = true ∧ name ≠ dot ∧
      name ≠ dotDot := (entered_full hrec hopen hfull).mpr hreal
  rw [entryItems, if_pos hcond]
  exact List.mem_cons_of_mem _ List.mem_cons_self

theorem runs_full (hrec : o.is_recursive = true) (hopen : t.openDir c.path = some d)
    (hfull : c.path.length + 1 = bufferSize) {out : List Event} :
    Runs (revealDir t.files o) (revealDir t.files o c) out ↔
      t.Bare o.show_hidden d ∧
        out = (List.range (t.readdir d).length).map Event.stored ++
          (t.names o.show_hidden d).map fun name => .stdout (line c.pre name true) := by
  have hitems (hbare : t.Bare o.show_hidden d) :
      (t.names o.show_hidden d).flatMap (entryItems t.files o.is_recursive c) =
        ((t.names o.show_hidden d).map fun name => Event.stdout (line c.pre name true)).map
          .emit := by
    rw [List.map_map, List.map_eq_flatMap]
    apply List.flatMap_congr
    intro name hname
    have hdir : t.files.isDir (c.newPath name) = true := by
      rw [newPath_full hfull]
      simp only [files, hopen, Option.isSome_some]
    have hcond : ¬(o.is_recursive = true ∧ t.files.isDir (c.newPath name) = true ∧ name ≠ dot ∧
        name ≠ dotDot) := fun h => (hbare name hname).elim h.2.2.1 h.2.2.2
    rw [entryItems, if_neg hcond, hdir]
    rfl
  constructor
  · intro hruns
    have hbare := bare_of_runs_full hrec hopen hfull hruns
    obtain ⟨rest, rfl, hrest⟩ := (runs_revealDir hopen).mp hruns
    rw [hitems hbare] at hrest
    exact ⟨hbare, by rw [runs_emits.mp hrest]⟩
  · rintro ⟨hbare, rfl⟩
    refine (runs_revealDir hopen).mpr ⟨_, rfl, ?_⟩
    rw [hitems hbare]
    exact runs_emits.mpr rfl

/-! ## Entries and their paths -/

variable {target : Path} {dirs : List Path}

/-- Any path with `.` or `..` at its end, also one that is cut, names a directory. -/
theorem openDir_dots (hopen : t.openDir c.path = some d) (h : name = dot ∨ name = dotDot) :
    (t.openDir (c.newPath name)).isSome = true := by
  have hslash : '/' ∉ name := by
    rcases h with rfl | rfl <;> decide
  rw [openDir_newPath hopen hslash]
  split
  · exact step_dots_isSome h _
  · rfl

theorem step_dots (h : name = dot ∨ name = dotDot) : (t.step d name).isSome = true := by
  have htake := step_dots_isSome (t := t) (d := d) h name.length
  rwa [List.take_length] at htake

theorem subdir_dots (h : name = dot ∨ name = dotDot) : t.subdir d name = none := by
  rcases h with rfl | rfl
  · exact subdir_dot d
  · exact subdir_dotDot d

theorem ne_dots_of_subdir {e : Dir} (h : t.subdir d name = some e) :
    name ≠ dot ∧ name ≠ dotDot := by
  apply not_or.mp
  intro hdots
  rw [subdir_dots hdots] at h
  cases h

theorem enter_callOf (h : (pathOf target (dirs ++ [name])).length < bufferSize) :
    (callOf target dirs).enter name = callOf target (dirs ++ [name]) := by
  have hpre : (prefixOf (dirs ++ [name])).length < bufferSize := by
    rw [length_pathOf] at h
    omega
  rw [pathOf_concat] at h
  rw [prefixOf_concat] at hpre
  rw [callOf, callOf, pathOf_concat, prefixOf_concat, Call.enter, Call.newPath, Call.newPrefix,
    fitted_of_lt h, fitted_of_lt hpre]

theorem openDir_enter (hopen : t.openDir (callOf target dirs).path = some d)
    (hname : name ∈ t.names o.show_hidden d)
    (h : (pathOf target (dirs ++ [name])).length < bufferSize) :
    t.openDir ((callOf target dirs).newPath name) = t.step d name := by
  rw [pathOf_concat] at h
  rw [Call.newPath, callOf, fitted_of_lt h]
  exact openDir_append hopen (names_no_slash hname) h

theorem length_newPath_cut (h : bufferSize ≤ (pathOf target (dirs ++ [name])).length) :
    ((callOf target dirs).newPath name).length + 1 = bufferSize := by
  rw [pathOf_concat] at h
  rw [Call.newPath, callOf, length_fitted h]
  rfl

end Tree

end ShellXv6.Shell.Reveal
