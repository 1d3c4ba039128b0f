import ShellXv6.Shell.Pipeline
import ShellXv6.Shell.Redirection

/-!
# The search for a command

The way from the name of a command to the path for `execv` is written out for the
check in front of a launch, for the child of `execute_external` and for the child
of `launch_background_single`.  All three take the first entry of `PATH` that
`access` admits, which may be a directory, and the last one looks into the current
directory with `access` only and even if a `%` forbids it.
-/

namespace ShellXv6.Shell.PathSearch

/-- What `stat` and `access` say about a path, as seen from the current directory. -/
structure FileSystem where
  regular : Path → Bool
  /-- `access(path, X_OK) == 0` -/
  executable : Path → Bool

def isRegularExecutable (fs : FileSystem) (path : Path) : Bool :=
  fs.regular path && fs.executable path

/-- `snprintf` into an array of 4096 bytes. -/
def snprintf (s : List Char) : Path := s.take 4095

def localPath (lookup : List Char) : Path := snprintf ('.' :: '/' :: lookup)

/-- The paths that the entries of `PATH` give, in their order. -/
def foundPaths (path : List Char) (lookup : List Char) : List Path :=
  (strtok ':' path).map fun dir => snprintf (dir ++ '/' :: lookup)

/-- The loop over the entries of `PATH`. -/
def searchPath (fs : FileSystem) (path : Option (List Char)) (lookup : List Char) : Option Path :=
  match path with
  | none => none
  | some path => (foundPaths path lookup).find? fs.executable

def hasPercent (cmd : List Char) : Bool := cmd.head? = some '%'

/-- The name behind a `%`. -/
def lookupName (cmd : List Char) : List Char := if hasPercent cmd then cmd.tail else cmd

def checkExternalExists (fs : FileSystem) (path : Option (List Char)) (cmd : List Char) : Bool :=
  if '/' ∈ cmd then isRegularExecutable fs cmd
  else
    let skip_cwd := hasPercent cmd
    let lookup := lookupName cmd
    if lookup = [] then false
    else if !skip_cwd && isRegularExecutable fs (localPath lookup) then true
    else (searchPath fs path lookup).isSome

/-- The path that the child of `execute_external` passes to `execv`. -/
def executeExternal (fs : FileSystem) (path : Option (List Char)) (cmd : List Char) :
    Option Path :=
  if '/' ∈ cmd then some cmd
  else if hasPercent cmd then searchPath fs path cmd.tail
  else if isRegularExecutable fs (localPath cmd) then some (localPath cmd)
  else searchPath fs path cmd

/-- The path that the child of `launch_background_single` passes to `execv`. -/
def launchBackgroundSingle (fs : FileSystem) (path : Option (List Char)) (cmd : List Char) :
    Option Path :=
  if '/' ∈ cmd then some cmd
  else
    let lookup := lookupName cmd
    if fs.executable (localPath lookup) then some (localPath lookup)
    else searchPath fs path lookup

/-- Both launches run the same regular executable file. -/
def LaunchersAgree (fs : FileSystem) (path : Option (List Char)) (cmd : List Char) : Prop :=
  ∃ p, executeExternal fs path cmd = some p ∧ isRegularExecutable fs p = true ∧
    launchBackgroundSingle fs path cmd = some p

/-- The name is a path, or the current directory has the file and may be searched, or
the first file that `PATH` gives is regular and the current directory has no other. -/
def Unambiguous (fs : FileSystem) (path : Option (List Char)) (cmd : List Char) : Prop :=
  '/' ∈ cmd ∨
  hasPercent cmd = false ∧ isRegularExecutable fs (localPath cmd) = true ∨
  ∃ p, searchPath fs path (lookupName cmd) = some p ∧ fs.regular p = true ∧
    (fs.executable (localPath (lookupName cmd)) = true → localPath (lookupName cmd) = p)

section

variable {fs : FileSystem} {path : Option (List Char)} {cmd : List Char}

theorem executable_of_searchPath {lookup : List Char} {p : Path}
    (h : searchPath fs path lookup = some p) : fs.executable p = true := by
  cases path with
  | none => cases h
  | some path => exact List.find?_some h

/-- The child of `execute_external` in words of the name to look up. -/
theorem executeExternal_eq (hslash : '/' ∉ cmd) :
    executeExternal fs path cmd =
      if !hasPercent cmd && isRegularExecutable fs (localPath cmd) then some (localPath cmd)
      else searchPath fs path (lookupName cmd) := by
  rw [executeExternal, if_neg hslash, lookupName]
  cases hasPercent cmd <;> rfl

theorem launchBackgroundSingle_eq (hslash : '/' ∉ cmd) :
    launchBackgroundSingle fs path cmd =
      if fs.executable (localPath (lookupName cmd)) then some (localPath (lookupName cmd))
      else searchPath fs path (lookupName cmd) := by
  rw [launchBackgroundSingle, if_neg hslash]

theorem agree_of_slash (hslash : '/' ∈ cmd) (h : checkExternalExists fs path cmd = true) :
    LaunchersAgree fs path cmd := by
  rw [checkExternalExists, if_pos hslash] at h
  refine ⟨cmd, ?_, h, ?_⟩
  · rw [executeExternal, if_pos hslash]
  · rw [launchBackgroundSingle, if_pos hslash]

theorem agree_of_local (hslash : '/' ∉ cmd) (hpercent : hasPercent cmd = false)
    (hlocal : isRegularExecutable fs (localPath cmd) = true) : LaunchersAgree fs path cmd := by
  have hexec : fs.executable (localPath cmd) = true := (Bool.and_eq_true_iff.mp hlocal).2
  refine ⟨localPath cmd, ?_, hlocal, ?_⟩
  · rw [executeExternal_eq hslash, hpercent, hlocal]
    rfl
  · rw [launchBackgroundSingle_eq hslash, lookupName, hpercent]
    exact if_pos hexec

/-- Where the current directory does not decide, the check has found an entry of
`PATH`, and `execute_external` takes it. -/
theorem search_of_check (hslash : '/' ∉ cmd)
    (hlocal : ¬(hasPercent cmd = false ∧ isRegularExecutable fs (localPath cmd) = true))
    (h : checkExternalExists fs path cmd = true) :
    ∃ p, searchPath fs path (lookupName cmd) = some p ∧ executeExternal fs path cmd = some p := by
  have hskip : (!hasPercent cmd && isRegularExecutable fs (localPath cmd)) = false := by
    apply Bool.eq_false_iff.mpr
    intro htrue
    obtain ⟨hpercent, hreg⟩ := Bool.and_eq_true_iff.mp htrue
    exact hlocal ⟨by simpa using hpercent, hreg⟩
  have hskip' :
      (!hasPercent cmd && isRegularExecutable fs (localPath (lookupName cmd))) = false := by
    rw [← hskip, lookupName]
    cases hasPercent cmd <;> rfl
  rw [checkExternalExists, if_neg hslash] at h
  obtain ⟨-, hsome⟩ :
      lookupName cmd ≠ [] ∧ (searchPath fs path (lookupName cmd)).isSome = true := by
    simpa [hskip'] using h
  obtain ⟨p, hp⟩ := Option.isSome_iff_exists.mp hsome
  refine ⟨p, hp, ?_⟩
  rw [executeExternal_eq hslash, hskip]
  exact hp

end

/-- The check in front of a launch is enough just for unambiguous names. -/
theorem launchers_agree_iff {fs : FileSystem} {path : Option (List Char)} {cmd : List Char}
    (h : checkExternalExists fs path cmd = true) :
    LaunchersAgree fs path cmd ↔ Unambiguous fs path cmd := by
  by_cases hslash : '/' ∈ cmd
  · exact iff_of_true (agree_of_slash hslash h) (Or.inl hslash)
  by_cases hlocal : hasPercent cmd = false ∧ isRegularExecutable fs (localPath cmd) = true
  · exact iff_of_true (agree_of_local hslash hlocal.1 hlocal.2) (Or.inr (Or.inl hlocal))
  obtain ⟨p, hsearch, hfg⟩ := search_of_check hslash hlocal h
  have hexec := executable_of_searchPath hsearch
  constructor
  · rintro ⟨q, hq, hreg, hbg⟩
    obtain rfl := Option.some.inj (hfg.symm.trans hq)
    refine Or.inr (Or.inr ⟨p, hsearch, (Bool.and_eq_true_iff.mp hreg).1, fun hcwd => ?_⟩)
    rw [launchBackgroundSingle_eq hslash, if_pos hcwd] at hbg
    exact Option.some.inj hbg
  · intro hcond
    obtain ⟨q, hq, hreg, hcwd⟩ := (hcond.resolve_left hslash).resolve_left hlocal
    obtain rfl := Option.some.inj (hsearch.symm.trans hq)
    refine ⟨p, hfg, Bool.and_eq_true_iff.mpr ⟨hreg, hexec⟩, ?_⟩
    rw [launchBackgroundSingle_eq hslash]
    split_ifs with hlocalExec
    · rw [hcwd hlocalExec]
    · exact hsearch

/-- Files at `/bin/sort` and `./sort`, and a directory at `/opt/sort`. -/
def sortFiles : FileSystem where
  regular p := p = "/bin/sort".toList || p = "./sort".toList
  executable p := p = "/bin/sort".toList || p = "./sort".toList || p = "/opt/sort".toList

theorem launchers_agree_sort :
    LaunchersAgree sortFiles (some "/opt:/bin".toList) "sort".toList :=
  (launchers_agree_iff (by decide)).mpr (Or.inr (Or.inl (by decide)))

/-- For `%sort` the foreground takes the directory or the file from `PATH`, the
background the file in the current directory. -/
theorem launchers_disagree :
    (checkExternalExists sortFiles (some "/opt:/bin".toList) "%sort".toList = true ∧
      executeExternal sortFiles (some "/opt:/bin".toList) "%sort".toList =
        some "/opt/sort".toList ∧
      isRegularExecutable sortFiles "/opt/sort".toList = false) ∧
    (checkExternalExists sortFiles (some "/bin".toList) "%sort".toList = true ∧
      executeExternal sortFiles (some "/bin".toList) "%sort".toList = some "/bin/sort".toList ∧
      launchBackgroundSingle sortFiles (some "/bin".toList) "%sort".toList =
        some "./sort".toList) := by
  decide

end ShellXv6.Shell.PathSearch
