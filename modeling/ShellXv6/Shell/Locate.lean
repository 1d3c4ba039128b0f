import ShellXv6.Shell.PathSearch

/-!
# The builtin `locate`

`locate` prints where a command is found: in the current directory, whose path it asks
`getcwd` for, and in the entries of `PATH`.  It shows regular files only, and has a
larger buffer than the functions that run a command.
-/

namespace ShellXv6.Shell.Locate

open PathSearch

/-- Paths as the kernel resolves them. -/
structure Files (File : Type*) where
  resolve : Path → Option File
  regular : File → Bool
  executable : File → Bool
  /-- The result of `getcwd`. -/
  cwd : Path
  cwd_ne_nil : cwd ≠ []
  /-- `PATH_MAX` -/
  too_long : ∀ p : Path, 4096 ≤ p.length → resolve p = none
  /-- A slash at the end asks for a directory. -/
  trailing_slash : ∀ (p : Path) (f : File), resolve (p ++ ['/']) = some f → regular f = false
  /-- The path may be too long or pass a directory that cannot be searched, but does not lead
  elsewhere. -/
  resolve_cwd : ∀ (name : Path) (f : File), '/' ∉ name →
    resolve (cwd ++ '/' :: name) = some f → resolve ('.' :: '/' :: name) = some f

/-- What `stat` and `access` say. -/
def Files.toFileSystem {File : Type*} (files : Files File) : FileSystem where
  regular p := (files.resolve p).any files.regular
  executable p := (files.resolve p).any files.executable

/-- `snprintf` into the array of 8192 bytes. -/
def buffer (s : List Char) : Path := s.take 8191

/-- The entries of `PATH`. -/
def dirs (path : Option (List Char)) : List (List Char) :=
  match path with
  | none => []
  | some path => strtok ':' path

/-- The paths that are tried for one argument; `getcwd` may fail. -/
def tried (getcwd : Option Path) (path : Option (List Char)) (name : List Char) : List Path :=
  let cwd := getcwd.getD []
  (if cwd = [] then [] else [buffer (cwd ++ '/' :: name)]) ++
    (dirs path).map fun dir => buffer (dir ++ '/' :: name)

/-- The paths that are printed for one argument. -/
def shown (fs : FileSystem) (getcwd : Option Path) (path : Option (List Char))
    (name : List Char) : List Path :=
  (tried getcwd path name).filter (isRegularExecutable fs)

/-- Standard output, standard error and the result. -/
structure Result where
  out : List Char
  err : List Char
  ret : ℕ

def locate (fs : FileSystem) (getcwd : Option Path) (path : Option (List Char))
    (argv : List (List Char)) : Result :=
  if argv.length < 2 then ⟨[], "locate: invalid syntax\n".toList, 1⟩
  else
    { out := argv.tail.flatMap fun name =>
        (shown fs getcwd path name).flatMap fun p => p ++ ['\n']
      err := argv.tail.flatMap fun name =>
        if shown fs getcwd path name = [] then
          "locate: command not found (".toList ++ name ++ ")\n".toList
        else []
      ret := 0 }

/-! ## Places -/

/-- The places where all three searches look, in their order. -/
inductive Place
  | cwd
  | dir (dir : List Char)

def places (path : Option (List Char)) : List Place := .cwd :: (dirs path).map .dir

section

variable {File : Type*} (files : Files File) (path : Option (List Char)) (name : List Char)

/-- The path that `locate` tries. -/
def locatePath : Place → Path
  | .cwd => buffer (files.cwd ++ '/' :: name)
  | .dir dir => buffer (dir ++ '/' :: name)

/-- The path that a launch tries. -/
def childPath : Place → Path
  | .cwd => localPath name
  | .dir dir => snprintf (dir ++ '/' :: name)

def isShown (place : Place) : Bool :=
  isRegularExecutable files.toFileSystem (locatePath files name place)

/-- In an entry of `PATH` a launch asks `access` only. -/
def isTaken : Place → Bool
  | .cwd => isRegularExecutable files.toFileSystem (localPath name)
  | .dir dir => files.toFileSystem.executable (snprintf (dir ++ '/' :: name))

/-- The first path shown is the file that is run, and nothing is shown if there is none. -/
def Predicts : Prop :=
  (∀ p ∈ (shown files.toFileSystem (some files.cwd) path name).head?,
    ∃ q f, executeExternal files.toFileSystem path name = some q ∧
      files.resolve p = some f ∧ files.resolve q = some f) ∧
  (shown files.toFileSystem (some files.cwd) path name = [] ↔
    checkExternalExists files.toFileSystem path name = false)

/-- In front of the first place that is shown a launch takes nothing, or the same file. -/
def Undisturbed : Prop :=
  ∀ place ∈ ((places path).takeWhile fun place => !isShown files name place).find?
      (isTaken files name),
    ∃ first ∈ (places path).find? (isShown files name),
      files.resolve (childPath name place) = files.resolve (locatePath files name first)

end

/-! ## The searches over the places -/

section

variable {File : Type*} {files : Files File} {path : Option (List Char)} {name : List Char}

theorem head?_shown :
    (shown files.toFileSystem (some files.cwd) path name).head? =
      ((places path).find? (isShown files name)).map (locatePath files name) := by
  have htried : tried (some files.cwd) path name = (places path).map (locatePath files name) := by
    simp [tried, places, locatePath, Function.comp_def, files.cwd_ne_nil]
  rw [shown, htried, List.head?_filter, List.find?_map]
  rfl

theorem shown_eq_nil_iff :
    shown files.toFileSystem (some files.cwd) path name = [] ↔
      (places path).find? (isShown files name) = none := by
  rw [← List.head?_eq_none_iff, head?_shown, Option.map_eq_none_iff]

theorem searchPath_eq :
    searchPath files.toFileSystem path name =
      (((dirs path).map .dir).find? (isTaken files name)).map (childPath name) := by
  cases path with
  | none => rfl
  | some path =>
      rw [searchPath, foundPaths, dirs, List.find?_map, List.find?_map, Option.map_map]
      rfl

theorem executeExternal_places (hslash : '/' ∉ name) (hpercent : hasPercent name = false) :
    executeExternal files.toFileSystem path name =
      ((places path).find? (isTaken files name)).map (childPath name) := by
  rw [executeExternal_eq hslash, lookupName, hpercent, searchPath_eq, places, List.find?_cons]
  cases hlocal : isTaken files name .cwd with
  | true => exact if_pos hlocal
  | false => exact if_neg (Bool.eq_false_iff.mp hlocal)

theorem checkExternalExists_places (hslash : '/' ∉ name) (hpercent : hasPercent name = false)
    (hne : name ≠ []) :
    checkExternalExists files.toFileSystem path name =
      ((places path).find? (isTaken files name)).isSome := by
  have hlookup : lookupName name = name := by
    rw [lookupName, hpercent]
    rfl
  rw [checkExternalExists, if_neg hslash]
  simp only [hlookup, hpercent, Bool.not_false, Bool.true_and]
  rw [if_neg hne, searchPath_eq, places, List.find?_cons, Option.isSome_map]
  cases hlocal : isTaken files name .cwd with
  | true => exact if_pos hlocal
  | false => exact if_neg (Bool.eq_false_iff.mp hlocal)

theorem isRegularExecutable_iff {p : Path} :
    isRegularExecutable files.toFileSystem p = true ↔
      ∃ f, files.resolve p = some f ∧ files.regular f = true ∧ files.executable f = true := by
  simp only [isRegularExecutable, Files.toFileSystem, Bool.and_eq_true]
  cases files.resolve p with
  | none => simp
  | some f => simp

/-- A path that resolves fits into both buffers. -/
theorem buffer_of_resolve {s : List Char} {f : File} (h : files.resolve (buffer s) = some f) :
    buffer s = s ∧ s.length < 4096 := by
  have hlt : (buffer s).length < 4096 := by
    by_contra hge
    rw [files.too_long _ (Nat.le_of_not_lt hge)] at h
    cases h
  rw [buffer, List.length_take] at hlt
  exact ⟨List.take_of_length_le (by omega), by omega⟩

/-- What is shown would be taken, and is the same file. -/
theorem taken_of_isShown (hslash : '/' ∉ name) {place : Place}
    (h : isShown files name place = true) :
    isTaken files name place = true ∧ ∃ f, files.resolve (locatePath files name place) = some f ∧
      files.resolve (childPath name place) = some f := by
  obtain ⟨f, hf, hreg, hexec⟩ := isRegularExecutable_iff.mp h
  cases place with
  | cwd =>
      obtain ⟨heq, hlt⟩ := buffer_of_resolve hf
      have hcwd := List.length_pos_iff.mpr files.cwd_ne_nil
      rw [List.length_append, List.length_cons] at hlt
      have hlocal : localPath name = '.' :: '/' :: name :=
        List.take_of_length_le (by rw [List.length_cons, List.length_cons]; omega)
      have hfile : files.resolve (localPath name) = some f := by
        rw [locatePath, heq] at hf
        rw [hlocal]
        exact files.resolve_cwd name f hslash hf
      exact ⟨isRegularExecutable_iff.mpr ⟨f, hfile, hreg, hexec⟩, f, hf, hfile⟩
  | dir dir =>
      obtain ⟨heq, hlt⟩ := buffer_of_resolve hf
      have hsame : childPath name (.dir dir) = locatePath files name (.dir dir) := by
        rw [locatePath, heq]
        exact List.take_of_length_le (Nat.le_of_lt_succ hlt)
      have hfile : files.resolve (childPath name (.dir dir)) = some f := hsame ▸ hf
      refine ⟨?_, f, hf, hfile⟩
      change (files.resolve (childPath name (.dir dir))).any files.executable = true
      rw [hfile]
      exact hexec

theorem isShown_nil (place : Place) : isShown files [] place = false := by
  apply Bool.eq_false_iff.mpr
  intro h
  obtain ⟨f, hf, hreg, -⟩ := isRegularExecutable_iff.mp h
  have hslash : ∃ p, locatePath files [] place = p ++ ['/'] := by
    cases place with
    | cwd => exact ⟨_, (buffer_of_resolve hf).1⟩
    | dir dir => exact ⟨_, (buffer_of_resolve hf).1⟩
  obtain ⟨p, hp⟩ := hslash
  rw [hp] at hf
  rw [files.trailing_slash p f hf] at hreg
  cases hreg

end

/-- The first item that the wider test accepts stands in front of the first one that the
narrower test accepts, or is that one. -/
theorem find?_eq_or {α : Type*} {p q : α → Bool} (hpq : ∀ x, p x = true → q x = true)
    (xs : List α) :
    xs.find? q = ((xs.takeWhile fun x => !p x).find? q).or (xs.find? p) := by
  induction xs with
  | nil => rfl
  | cons x xs ih =>
      cases hp : p x with
      | true => simp [hp, hpq x hp]
      | false => cases hq : q x <;> simp [hp, hq, ih]

section

variable {File : Type*} (files : Files File) (path : Option (List Char)) {name : List Char}

theorem predicts_nil : Predicts files path [] := by
  have hnone : (places path).find? (isShown files []) = none :=
    List.find?_eq_none.mpr fun place _ => Bool.eq_false_iff.mp (isShown_nil place)
  constructor
  · rw [head?_shown, hnone]
    exact fun p hp => absurd hp (Option.not_mem_none p)
  · rw [shown_eq_nil_iff, hnone, checkExternalExists, if_neg List.not_mem_nil]
    exact iff_of_true rfl rfl

variable (hslash : '/' ∉ name) (hpercent : hasPercent name = false) (hne : name ≠ [])
include hslash hpercent hne

/-- The prediction in terms of the places that are shown and taken. -/
theorem predicts_iff_places :
    Predicts files path name ↔
      (∀ first ∈ (places path).find? (isShown files name),
        ∃ place ∈ (places path).find? (isTaken files name),
          files.resolve (childPath name place) = files.resolve (locatePath files name first)) ∧
      ((places path).find? (isShown files name) = none ↔
        (places path).find? (isTaken files name) = none) := by
  rw [Predicts, head?_shown, shown_eq_nil_iff, executeExternal_places hslash hpercent,
    checkExternalExists_places hslash hpercent hne, Option.isSome_eq_false_iff,
    Option.isNone_iff_eq_none]
  apply and_congr_left'
  constructor
  · intro h first hfirst
    obtain ⟨q, f, hq, hlocate, hchild⟩ := h _ (Option.mem_map_of_mem _ hfirst)
    obtain ⟨place, hplace, rfl⟩ := Option.map_eq_some_iff.mp hq
    exact ⟨place, hplace, hchild.trans hlocate.symm⟩
  · intro h p hp
    obtain ⟨first, hfirst, rfl⟩ := Option.map_eq_some_iff.mp hp
    obtain ⟨place, hplace, hsame⟩ := h first hfirst
    obtain ⟨-, f, hlocate, -⟩ := taken_of_isShown hslash (List.find?_some hfirst)
    exact ⟨_, f, Option.map_eq_some_iff.mpr ⟨place, hplace, rfl⟩, hlocate, hsame.trans hlocate⟩

theorem predicts_iff_undisturbed : Predicts files path name ↔ Undisturbed files path name := by
  rw [predicts_iff_places files path hslash hpercent hne, Undisturbed,
    find?_eq_or fun place h => (taken_of_isShown hslash h).1]
  cases ((places path).takeWhile fun place => !isShown files name place).find?
      (isTaken files name) with
  | none =>
      -- a launch takes what is shown first
      rw [Option.none_or]
      refine iff_of_true ⟨?_, Iff.rfl⟩ fun place hplace => absurd hplace (Option.not_mem_none place)
      intro first hfirst
      obtain ⟨-, f, hlocate, hchild⟩ := taken_of_isShown hslash (List.find?_some hfirst)
      exact ⟨first, hfirst, hchild.trans hlocate.symm⟩
  | some place =>
      -- a launch takes a place that is not shown
      rw [Option.some_or]
      constructor
      · rintro ⟨hsame, hnothing⟩ other hother
        obtain rfl := Option.some.inj hother
        obtain ⟨first, hfirst⟩ := Option.ne_none_iff_exists'.mp fun hnone =>
          Option.some_ne_none _ (hnothing.mp hnone)
        obtain ⟨q, hq, hfile⟩ := hsame first hfirst
        obtain rfl := Option.some.inj hq
        exact ⟨first, hfirst, hfile⟩
      · intro hundisturbed
        obtain ⟨first, hfirst, hsame⟩ := hundisturbed place rfl
        rw [Option.mem_def.mp hfirst]
        refine ⟨?_, iff_of_false (Option.some_ne_none _) (Option.some_ne_none _)⟩
        intro other hother
        obtain rfl := Option.some.inj hother
        exact ⟨place, rfl, hsame⟩

end

/-- `locate` predicts what is run exactly if nothing else is taken in front of what it
shows. -/
theorem predicts_iff {File : Type*} (files : Files File) (path : Option (List Char))
    {name : List Char} (hslash : '/' ∉ name) (hpercent : hasPercent name = false) :
    Predicts files path name ↔ name = [] ∨ Undisturbed files path name := by
  by_cases hne : name = []
  · subst hne
    exact iff_of_true (predicts_nil files path) (.inl rfl)
  · rw [or_iff_right hne]
    exact predicts_iff_undisturbed files path hslash hpercent hne

/-- A program at `/bin/sort` and a directory at `/opt/sort`; the current directory has
neither. -/
def sortAndFolder : Files Bool where
  resolve p :=
    if p = "/bin/sort".toList then some true
    else if p = "/opt/sort".toList then some false
    else none
  regular program := program
  executable _ := true
  cwd := "/home".toList
  cwd_ne_nil := by decide
  too_long p hp := by
    have hbin : p ≠ "/bin/sort".toList := fun h => absurd (h ▸ hp) (by decide)
    have hopt : p ≠ "/opt/sort".toList := fun h => absurd (h ▸ hp) (by decide)
    rw [if_neg hbin, if_neg hopt]
  trailing_slash p f h := by
    have hbin : p ++ ['/'] ≠ "/bin/sort".toList := fun heq => by
      have hlast := congrArg List.getLast? heq
      rw [List.getLast?_concat] at hlast
      exact absurd hlast (by decide)
    rw [if_neg hbin] at h
    split_ifs at h
    exact (Option.some.inj h).symm
  resolve_cwd name f _ h := by
    have hbin : "/home".toList ++ '/' :: name ≠ "/bin/sort".toList := fun heq =>
      absurd (List.cons.inj (List.cons.inj heq).2).1 (by decide)
    have hopt : "/home".toList ++ '/' :: name ≠ "/opt/sort".toList := fun heq =>
      absurd (List.cons.inj (List.cons.inj heq).2).1 (by decide)
    rw [if_neg hbin, if_neg hopt] at h
    cases h

theorem predicts_sort : Predicts sortAndFolder (some "/bin:/opt".toList) "sort".toList :=
  (predicts_iff sortAndFolder _ (by decide) (by decide)).mpr <| .inr fun place hplace => by
    have hnone : ((places (some "/bin:/opt".toList)).takeWhile fun place =>
        !isShown sortAndFolder "sort".toList place).find?
          (isTaken sortAndFolder "sort".toList) = none := by decide
    rw [hnone] at hplace
    exact absurd hplace (Option.not_mem_none place)

/-- The directory is passed to `execv` if it comes first in `PATH`, and is not shown even if
nothing else is there. -/
theorem locate_not_predicts :
    (shown sortAndFolder.toFileSystem (some "/home".toList) (some "/opt:/bin".toList)
        "sort".toList = ["/bin/sort".toList] ∧
      executeExternal sortAndFolder.toFileSystem (some "/opt:/bin".toList) "sort".toList =
        some "/opt/sort".toList ∧
      ¬Predicts sortAndFolder (some "/opt:/bin".toList) "sort".toList) ∧
    (shown sortAndFolder.toFileSystem (some "/home".toList) (some "/opt".toList)
        "sort".toList = [] ∧
      checkExternalExists sortAndFolder.toFileSystem (some "/opt".toList) "sort".toList = true ∧
      ¬Predicts sortAndFolder (some "/opt".toList) "sort".toList) := by
  refine ⟨⟨by decide, by decide, ?_⟩, by decide, by decide, ?_⟩
  · rintro ⟨hsame, -⟩
    obtain ⟨q, f, hq, hshown, hrun⟩ := hsame "/bin/sort".toList (by decide)
    obtain rfl : "/opt/sort".toList = q := Option.some.inj hq
    exact absurd (hshown.trans hrun.symm) (by decide)
  · rintro ⟨-, hnothing⟩
    exact absurd (hnothing.mp (by decide)) (by decide)

end ShellXv6.Shell.Locate
