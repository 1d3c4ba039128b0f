import Mathlib.Algebra.Group.Int.Defs
import Mathlib.Algebra.Group.Nat.Defs
import Mathlib.Data.List.Infix
import ShellXv6.Lib.Scanf
import ShellXv6.Shell.Redirection

/-!
# The builtin `hop`

`hop` changes the directory for each of its arguments and keeps a history of the
directories in a file, one line for each: how often it was hopped to, the time of the
last hop, and its path.  Every hop reads the file, changes one entry and writes the
file again.  An argument that is no directory is looked for in the history.
-/

namespace ShellXv6.Shell.Hop

open Scanf

/-! ## The history file -/

structure FrecencyEntry where
  path : Path
  frequency : ℤ
  recency : ℤ
  deriving DecidableEq

/-- The size of `saved_entries`. -/
def maxEntries : ℕ := 64

def pathSize : ℕ := 4096

/-- A number as a `long`, which is the nearest one if it is out of range. -/
def toLong (n : ℤ) : ℤ := max (-2 ^ 63) (min (2 ^ 63 - 1) n)

def toInt (n : ℤ) : ℤ := (toLong n).bmod (2 ^ 32)

theorem toLong_of_range {n : ℤ} (h : -2 ^ 63 ≤ n) (h' : n < 2 ^ 63) : toLong n = n := by
  unfold toLong
  omega

theorem toInt_of_range {n : ℤ} (h : -2 ^ 31 ≤ n) (h' : n < 2 ^ 31) : toInt n = n := by
  rw [toInt, toLong_of_range (by omega) (by omega)]
  apply Int.bmod_eq_of_le_mul_two <;> omega

/-- `fprintf` with `"%d %ld %s\n"` -/
def printEntry (e : FrecencyEntry) : List Char :=
  printInt e.frequency ++ ' ' :: (printInt e.recency ++ ' ' :: (e.path ++ ['\n']))

/-- `fscanf` with `"%d %ld %[^\n]"`, if all three are read. -/
def scanEntry (text : List Char) : Option (FrecencyEntry × List Char) :=
  match scanInt text with
  | none => none
  | some (frequency, text) =>
      match scanInt text with
      | none => none
      | some (recency, text) =>
          let text := skipSpace text
          let path := text.takeWhile (· != '\n')
          if path = [] then none
          else some (⟨path, toInt frequency, toLong recency⟩, text.dropWhile (· != '\n'))

def readEntries : ℕ → List Char → List FrecencyEntry
  | 0, _ => []
  | n + 1, text =>
      match scanEntry text with
      | none => []
      | some (e, text) => e :: readEntries n text

/-- What `update_frecency` reads. -/
def savedEntries (history : Option (List Char)) : List FrecencyEntry :=
  readEntries maxEntries (history.getD [])

/-- What `search_frecency` reads; no entry is shorter than a character. -/
def allEntries (history : Option (List Char)) : List FrecencyEntry :=
  readEntries (history.getD []).length (history.getD [])

/-- The first entry with the path, visited once more. -/
def visitAgain (new_path : Path) (now : ℤ) : List FrecencyEntry → Option (List FrecencyEntry)
  | [] => none
  | e :: es =>
      if e.path = new_path then
        some ({ e with frequency := (e.frequency + 1).bmod (2 ^ 32), recency := now } :: es)
      else (visitAgain new_path now es).map (e :: ·)

def visitEntries (new_path : Path) (now : ℤ) (entries : List FrecencyEntry) :
    List FrecencyEntry :=
  match visitAgain new_path now entries with
  | some entries => entries
  | none => if entries.length < maxEntries then entries ++ [⟨new_path, 1, now⟩] else entries

def updateFrecency (history : Option (List Char)) (new_path : Path) (now : ℤ) : List Char :=
  (visitEntries new_path now (savedEntries history)).flatMap printEntry

/-- One round of the loop of `search_frecency`, on `best_score` and `best_match`. -/
def better (access : Path → Bool) (target : Path) (best : ℤ × Path) (e : FrecencyEntry) :
    ℤ × Path :=
  if target <:+: e.path ∧ access e.path = true then
    let score := (e.frequency * 10000000 + e.recency).bmod (2 ^ 64)
    if best.1 < score then (score, e.path) else best
  else best

def searchFrecency (access : Path → Bool) (history : Option (List Char)) (target : Path) :
    Option Path :=
  let best := (allEntries history).foldl (better access target) (-1, [])
  if best.1 ≠ -1 then some best.2 else none

/-! ## The command -/

/-- What `hop` asks the system. -/
structure Files (Dir : Type) where
  /-- The directory that a path leads to from another one. -/
  chdir : Dir → Path → Option Dir
  chdir_nil : ∀ d, chdir d [] = none
  path : Dir → Path
  access : Path → Bool
  /-- The history file can be opened for reading, and for writing. -/
  readable : Bool
  writable : Bool

variable {Dir : Type}

/-- `getcwd` with a buffer of `pathSize` bytes.  Its result is not looked at; when it fails,
the buffer keeps what it held. -/
def Files.getcwd (fs : Files Dir) (d : Dir) (buffer : Path) : Path :=
  if (fs.path d).length < pathSize then fs.path d else buffer

structure Visit where
  path : Path
  time : ℤ
  deriving DecidableEq

structure State (Dir : Type) where
  cwd : Dir
  prev_dir : Path
  history : Option (List Char)
  stderr : List String
  /-- All hops so far; the program does not keep them. -/
  visits : List Visit

/-- The local arrays of `execute_hop`, which are not initialised. -/
structure Buffers where
  owd : Path
  new_cwd : Path

/-- What the loop of `execute_hop` carries from one argument to the next. -/
structure Frame (Dir : Type) where
  state : State Dir
  buffers : Buffers
  failure : Bool

def noSuchDirectory : String := "hop: no such directory\n"

/-- `getcwd(owd, 4096)` -/
def Frame.saveCwd (fs : Files Dir) (x : Frame Dir) : Frame Dir :=
  { x with buffers.owd := fs.getcwd x.state.cwd x.buffers.owd }

/-- `failure = chdir(…)` with the directory that `chdir` finds. -/
def Frame.enter (x : Frame Dir) : Option Dir → Frame Dir
  | none => { x with failure := true }
  | some d => { x with state.cwd := d, failure := false }

/-- The common end of an iteration: `failure` decides. -/
def finish (fs : Files Dir) (now : ℤ) (x : Frame Dir) : Frame Dir :=
  if x.failure then
    { x with state.stderr := x.state.stderr ++ [noSuchDirectory] }
  else
    let new_cwd := fs.getcwd x.state.cwd x.buffers.new_cwd
    let history := if fs.readable then x.state.history else none
    { x with
      state.prev_dir := x.buffers.owd
      buffers.new_cwd := new_cwd
      state.history :=
        if fs.writable then some (updateFrecency history new_cwd now) else x.state.history
      state.visits := x.state.visits ++ [⟨fs.path x.state.cwd, now⟩] }

/-- The directory of an argument that is neither `~` nor `-` nor `.`. -/
def findDir (fs : Files Dir) (s : State Dir) (arg : Path) : Option Dir :=
  match fs.chdir s.cwd arg with
  | some d => some d
  | none =>
      match searchFrecency fs.access (if fs.readable then s.history else none) arg with
      | none => none
      | some fallback_path => fs.chdir s.cwd fallback_path

/-- The loop for one argument and the time at which it is handled. -/
def hopArg (fs : Files Dir) (shell_home : Path) (x : Frame Dir) (arg : Path × ℤ) : Frame Dir :=
  let x := x.saveCwd fs
  if arg.1 = ['~'] then finish fs arg.2 (x.enter (fs.chdir x.state.cwd shell_home))
  else if arg.1 = ['-'] then
    if x.state.prev_dir = [] then x
    else finish fs arg.2 (x.enter (fs.chdir x.state.cwd x.state.prev_dir))
  else if arg.1 = ['.'] then x
  else finish fs arg.2 (x.enter (findDir fs x.state arg.1))

/-- The command with what its local arrays hold at the start. -/
def executeHop (fs : Files Dir) (shell_home : Path) (now : ℤ) (args : List (Path × ℤ))
    (buffers : Buffers) (s : State Dir) : State Dir :=
  let x : Frame Dir := ⟨s, buffers, true⟩
  if args.length = 0 then
    (finish fs now ((x.saveCwd fs).enter (fs.chdir s.cwd shell_home))).state
  else (args.foldl (hopArg fs shell_home) x).state

/-! ## The arguments one after the other -/

/-- What an argument makes `execute_hop` try: `none` where the loop goes on to the next
argument, and otherwise the directory that `chdir` finds. -/
def tried (fs : Files Dir) (shell_home : Path) (s : State Dir) (arg : Path) :
    Option (Option Dir) :=
  if arg = ['~'] then some (fs.chdir s.cwd shell_home)
  else if arg = ['-'] then
    if s.prev_dir = [] then none else some (fs.chdir s.cwd s.prev_dir)
  else if arg = ['.'] then none
  else some (findDir fs s arg)

def target (fs : Files Dir) (shell_home : Path) (s : State Dir) (arg : Path) : Option Dir :=
  if arg = ['~'] then fs.chdir s.cwd shell_home
  else if arg = ['-'] then if s.prev_dir = [] then none else fs.chdir s.cwd s.prev_dir
  else if arg = ['.'] then some s.cwd
  else findDir fs s arg

/-- Nothing that `hop` keeps has changed. -/
def SameDirs (s s' : State Dir) : Prop :=
  s'.cwd = s.cwd ∧ s'.prev_dir = s.prev_dir ∧ s'.history = s.history

/-- `getcwd` gives every directory its path, since none is too long for the buffers. -/
def Files.Canonical (fs : Files Dir) : Prop := ∀ d, (fs.path d).length < pathSize

/-- The directory exists: its path leads to it from everywhere. -/
def Files.Leads (fs : Files Dir) (d : Dir) : Prop := ∀ c, fs.chdir c (fs.path d) = some d

section

variable {fs : Files Dir} {shell_home : Path} {s : State Dir}

theorem Files.Canonical.getcwd (h : fs.Canonical) (d : Dir) (buffer : Path) :
    fs.getcwd d buffer = fs.path d := if_pos (h d)

theorem Frame.saveCwd_state (x : Frame Dir) : (x.saveCwd fs).state = x.state := rfl

/-- The loop either goes on to the next argument or tries a directory. -/
theorem hopArg_eq (x : Frame Dir) (arg : Path × ℤ) :
    hopArg fs shell_home x arg =
      (tried fs shell_home x.state arg.1).elim (x.saveCwd fs) fun found =>
        finish fs arg.2 ((x.saveCwd fs).enter found) := by
  unfold hopArg tried
  dsimp only
  by_cases hhome : arg.1 = ['~']
  · rw [if_pos hhome, if_pos hhome]
    rfl
  rw [if_neg hhome, if_neg hhome]
  by_cases hback : arg.1 = ['-']
  · rw [if_pos hback, if_pos hback]
    by_cases hprev : x.state.prev_dir = []
    · rw [if_pos hprev]
      exact if_pos hprev
    · rw [if_neg hprev]
      exact if_neg hprev
  rw [if_neg hback, if_neg hback]
  by_cases hstay : arg.1 = ['.']
  · rw [if_pos hstay, if_pos hstay]
    rfl
  · rw [if_neg hstay, if_neg hstay]
    rfl

theorem finish_enter_none (now : ℤ) (x : Frame Dir) :
    (finish fs now (x.enter none)).state =
      { x.state with stderr := x.state.stderr ++ [noSuchDirectory] } := rfl

theorem finish_enter_some (now : ℤ) (x : Frame Dir) (d : Dir) :
    (finish fs now (x.enter (some d))).state =
      { cwd := d
        prev_dir := x.buffers.owd
        history :=
          if fs.writable then
            some (updateFrecency (if fs.readable then x.state.history else none)
              (fs.getcwd d x.buffers.new_cwd) now)
          else x.state.history
        stderr := x.state.stderr
        visits := x.state.visits ++ [⟨fs.path d, now⟩] } := rfl

/-- With `getcwd` canonical, both arrays are filled before they are read. -/
theorem finish_state_eq (h : fs.Canonical) (now : ℤ) {x y : Frame Dir} (hxy : x.state = y.state)
    (found : Option Dir) :
    (finish fs now ((x.saveCwd fs).enter found)).state =
      (finish fs now ((y.saveCwd fs).enter found)).state := by
  cases found with
  | none =>
      rw [finish_enter_none, finish_enter_none, Frame.saveCwd_state, Frame.saveCwd_state, hxy]
  | some d =>
      rw [finish_enter_some, finish_enter_some, h.getcwd, h.getcwd, Frame.saveCwd_state,
        Frame.saveCwd_state, hxy]
      simp only [Frame.saveCwd, h.getcwd, hxy]

/-- What an argument does to the state does not depend on the local variables. -/
theorem hopArg_state_eq (h : fs.Canonical) (arg : Path × ℤ) {x y : Frame Dir}
    (hxy : x.state = y.state) :
    (hopArg fs shell_home x arg).state = (hopArg fs shell_home y arg).state := by
  rw [hopArg_eq, hopArg_eq, hxy]
  cases tried fs shell_home y.state arg.1 with
  | none => exact hxy
  | some found => exact finish_state_eq h _ hxy found

theorem foldl_state_eq (h : fs.Canonical) (args : List (Path × ℤ)) {x y : Frame Dir}
    (hxy : x.state = y.state) :
    (args.foldl (hopArg fs shell_home) x).state = (args.foldl (hopArg fs shell_home) y).state := by
  induction args generalizing x y with
  | nil => exact hxy
  | cons arg args ih => exact ih (hopArg_state_eq h arg hxy)

theorem executeHop_of_ne_nil (now : ℤ) {args : List (Path × ℤ)} (h : args ≠ [])
    (buffers : Buffers) :
    executeHop fs shell_home now args buffers s =
      (args.foldl (hopArg fs shell_home) ⟨s, buffers, true⟩).state :=
  if_neg fun hlen => h (List.length_eq_zero_iff.mp hlen)

/-- The second command begins with fresh local variables, the second half of one command
with those that the first half has left. -/
theorem executeHop_append (h : fs.Canonical) (now now₁ now₂ : ℤ) {xs ys : List (Path × ℤ)}
    (hxs : xs ≠ []) (hys : ys ≠ []) (buffers buffers₁ buffers₂ : Buffers) :
    executeHop fs shell_home now (xs ++ ys) buffers s =
      executeHop fs shell_home now₂ ys buffers₂
        (executeHop fs shell_home now₁ xs buffers₁ s) := by
  rw [executeHop_of_ne_nil _ (List.append_ne_nil_of_left_ne_nil hxs ys), executeHop_of_ne_nil _ hxs,
    executeHop_of_ne_nil _ hys, List.foldl_append]
  exact foldl_state_eq h ys (foldl_state_eq h xs rfl)

theorem target_of_tried {arg : Path} {found : Option Dir}
    (h : tried fs shell_home s arg = some found) : target fs shell_home s arg = found := by
  unfold tried at h
  unfold target
  split_ifs at h ⊢
  all_goals exact Option.some.inj h

theorem sameDirs_hopArg {x : Frame Dir} {arg : Path × ℤ}
    (h : target fs shell_home x.state arg.1 = none) :
    SameDirs x.state (hopArg fs shell_home x arg).state := by
  rw [hopArg_eq]
  cases htried : tried fs shell_home x.state arg.1 with
  | none => exact ⟨rfl, rfl, rfl⟩
  | some found =>
      rw [target_of_tried htried] at h
      rw [h]
      exact ⟨rfl, rfl, rfl⟩

/-- One `-` exchanges the two directories. -/
theorem hopArg_back (h : fs.Canonical) (shell_home : Path) {x : Frame Dir} {p : Dir}
    (hprev : x.state.prev_dir = fs.path p) (hp : fs.Leads p) (now : ℤ) :
    (hopArg fs shell_home x (['-'], now)).state.cwd = p ∧
      (hopArg fs shell_home x (['-'], now)).state.prev_dir = fs.path x.state.cwd := by
  have hne : x.state.prev_dir ≠ [] := by
    intro hnil
    have hlead := hp x.state.cwd
    rw [← hprev, hnil, fs.chdir_nil] at hlead
    cases hlead
  have htried : tried fs shell_home x.state ['-'] = some (some p) := by
    rw [tried, if_neg (by decide), if_pos rfl, if_neg hne, hprev, hp]
  rw [hopArg_eq, htried, Option.elim_some, finish_enter_some]
  exact ⟨rfl, h.getcwd _ _⟩

end

/-- Arguments are handled one after the other, whatever the local arrays hold, one that
stands for no directory changes nothing, and `- -` leads back. -/
theorem hop_arguments (fs : Files Dir) (hcanonical : fs.Canonical) (shell_home : Path)
    (s : State Dir) (now : ℤ) (buffers : Buffers) :
    (∀ xs ys : List (Path × ℤ), xs ≠ [] → ys ≠ [] → ∀ now₁ now₂ buffers₁ buffers₂,
      executeHop fs shell_home now (xs ++ ys) buffers s =
        executeHop fs shell_home now₂ ys buffers₂
          (executeHop fs shell_home now₁ xs buffers₁ s)) ∧
    (∀ arg : Path × ℤ, target fs shell_home s arg.1 = none →
      SameDirs s (executeHop fs shell_home now [arg] buffers s)) ∧
    ∀ p, s.prev_dir = fs.path p → s.prev_dir ≠ [] → fs.Leads p → fs.Leads s.cwd →
      ∀ now₁ now₂,
        (executeHop fs shell_home now [(['-'], now₁), (['-'], now₂)] buffers s).cwd = s.cwd ∧
        (executeHop fs shell_home now [(['-'], now₁), (['-'], now₂)] buffers s).prev_dir =
          s.prev_dir := by
  refine ⟨?_, ?_, ?_⟩
  · intro xs ys hxs hys now₁ now₂ buffers₁ buffers₂
    exact executeHop_append hcanonical now now₁ now₂ hxs hys buffers buffers₁ buffers₂
  · intro arg htarget
    rw [executeHop_of_ne_nil _ (List.cons_ne_nil _ _)]
    exact sameDirs_hopArg htarget
  · intro p hprev _ hp hcwd now₁ now₂
    rw [executeHop_of_ne_nil _ (List.cons_ne_nil _ _), List.foldl_cons, List.foldl_cons,
      List.foldl_nil]
    have hstart : (⟨s, buffers, true⟩ : Frame Dir).state.prev_dir = fs.path p := hprev
    obtain ⟨hcwd₁, hprev₁⟩ := hopArg_back hcanonical shell_home hstart hp now₁
    obtain ⟨hcwd₂, hprev₂⟩ := hopArg_back hcanonical shell_home hprev₁ hcwd now₂
    exact ⟨hcwd₂, by rw [hprev₂, hcwd₁, hprev]⟩

/-- The directories `/a` and `/b`. -/
def twoDirs : Files Bool where
  chdir _ path :=
    if path = "/a".toList then some true else if path = "/b".toList then some false else none
  chdir_nil _ := rfl
  path d := if d then "/a".toList else "/b".toList
  access _ := true
  readable := true
  writable := true

theorem canonical_twoDirs : twoDirs.Canonical := by
  unfold Files.Canonical
  decide

/-- From `/a`, with `/b` before it, `hop /c - -` does what `hop /c` and `hop - -` do, and the
last two arguments lead back. -/
theorem hop_back_and_forth :
    executeHop twoDirs "/a".toList 0 ([("/c".toList, 1)] ++ [(['-'], 2), (['-'], 3)])
        ⟨[], "/x".toList⟩ ⟨true, "/b".toList, none, [], []⟩ =
      executeHop twoDirs "/a".toList 0 [(['-'], 2), (['-'], 3)] ⟨"/y".toList, []⟩
        (executeHop twoDirs "/a".toList 0 [("/c".toList, 1)] ⟨[], []⟩
          ⟨true, "/b".toList, none, [], []⟩) ∧
    (executeHop twoDirs "/a".toList 0 [(['-'], 2), (['-'], 3)] ⟨[], "/x".toList⟩
        ⟨true, "/b".toList, none, [], []⟩).cwd = true ∧
      (executeHop twoDirs "/a".toList 0 [(['-'], 2), (['-'], 3)] ⟨[], "/x".toList⟩
        ⟨true, "/b".toList, none, [], []⟩).prev_dir = "/b".toList := by
  obtain ⟨hfold, -, hback⟩ := hop_arguments twoDirs canonical_twoDirs "/a".toList
    ⟨true, "/b".toList, none, [], []⟩ 0 ⟨[], "/x".toList⟩
  refine ⟨hfold _ _ (by decide) (by decide) 0 0 _ _, ?_⟩
  exact hback false rfl (by decide) (fun _ => rfl) (fun _ => rfl) 2 3

end ShellXv6.Shell.Hop
