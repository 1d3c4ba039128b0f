import Mathlib.Data.List.Sort
import ShellXv6.Lib.Calls
import ShellXv6.Shell.Redirection

/-!
# The builtin `reveal`

`reveal` lists a directory, with `-t` also the directories in it.  Each call of
`reveal_dir` copies the names that `readdir` returns into a table with 4096 slots,
sorts them, and then prints them one after the other; a directory is listed by another
call, with a path put together from the path of the first one and the name.
-/

namespace ShellXv6.Shell.Reveal

open Calls

/-- The size of the table and of the buffers for paths. -/
def bufferSize : ℕ := 4096

/-- What `snprintf` leaves in a buffer. -/
def fitted (text : Path) : Path := text.take (bufferSize - 1)

def dot : Path := ['.']

def dotDot : Path := ['.', '.']

/-- What `reveal` asks the system. -/
structure Files where
  /-- The names in a directory, if it can be opened, in the order of `readdir`. -/
  readdir : Path → Option (List Path)
  isDir : Path → Bool

structure Options where
  show_hidden : Bool
  is_recursive : Bool
  target_dir : Path
  deriving DecidableEq

inductive Event where
  /-- A name is stored in a slot of the table. -/
  | stored (index : ℕ)
  | stdout (text : List Char)
  | stderr (text : String)
  deriving DecidableEq

/-- The arguments `path` and `prefix` of `reveal_dir`. -/
structure Call where
  path : Path
  pre : Path
  deriving DecidableEq

def noSuchDirectory : String := "reveal: no such directory\n"

def invalidSyntax : String := "reveal: invalid syntax\n"

def Call.newPath (c : Call) (name : Path) : Path := fitted (c.path ++ '/' :: name)

def Call.newPrefix (c : Call) (name : Path) : Path := fitted (c.pre ++ (name ++ ['/']))

def Call.enter (c : Call) (name : Path) : Call := ⟨c.newPath name, c.newPrefix name⟩

def line (pre name : Path) (is_dir : Bool) : List Char :=
  pre ++ (name ++ if is_dir then ['/', '\n'] else ['\n'])

def shown (show_hidden : Bool) (name : Path) : Bool := show_hidden || name.head? != some '.'

/-- One round of the loop that prints. -/
def entryItems (fs : Files) (is_recursive : Bool) (c : Call) (name : Path) :
    List (Effect Event Call) :=
  let is_dir := fs.isDir (c.newPath name)
  .emit (.stdout (line c.pre name is_dir)) ::
    if is_recursive = true ∧ is_dir = true ∧ name ≠ dot ∧ name ≠ dotDot then
      [.call (c.enter name)]
    else []

/-- `strcmp` does not order the second string before the first. -/
def strcmpLe : Path → Path → Bool
  | [], _ => true
  | _ :: _, [] => false
  | a :: as, b :: bs => if a = b then strcmpLe as bs else a.toNat < b.toNat

/-- `qsort` with `cmp_func` -/
def sorted (names : List Path) : List Path := names.insertionSort fun a b => strcmpLe a b = true

def revealDir (fs : Files) (o : Options) (c : Call) : List (Effect Event Call) :=
  match fs.readdir c.path with
  | none => [.emit (.stderr noSuchDirectory)]
  | some names =>
      ((List.range names.length).map Event.stored).map .emit ++
        ((sorted names).filter (shown o.show_hidden)).flatMap (entryItems fs o.is_recursive c)

def parseFlag (o : Options) (c : Char) : Option Options :=
  if c = 'a' then some { o with show_hidden := true }
  else if c = 't' then some { o with is_recursive := true }
  else none

def parseArg (o : Options) (arg : Path) : Option Options :=
  if arg.head? = some '-' ∧ 1 < arg.length then arg.tail.foldlM parseFlag o
  else if o.target_dir = dot then some { o with target_dir := arg }
  else none

def parseArgs (args : List Path) : Option Options := args.foldlM parseArg ⟨false, false, dot⟩

/-- The directory to list; `-` is the one before the last `hop`. -/
def targetDir (target_dir shell_home prev_dir : Path) : Option Path :=
  if target_dir = ['~'] then some shell_home
  else if target_dir = ['-'] then if prev_dir = [] then none else some prev_dir
  else some target_dir

/-- The command, with `depth` nested calls of `reveal_dir` at most. -/
def executeReveal (fs : Files) (depth : ℕ) (args : List Path) (shell_home prev_dir : Path) :
    Trace Event :=
  match parseArgs args with
  | none => ⟨[.stderr invalidSyntax], true⟩
  | some o =>
      match targetDir o.target_dir shell_home prev_dir with
      | none => ⟨[.stderr noSuchDirectory], true⟩
      | some target_dir => run (revealDir fs o) depth ⟨target_dir, []⟩

/-! ## The table -/

/-- The calls that a call makes, the call itself included. -/
def Opens (fs : Files) (o : Options) (c c' : Call) : Prop :=
  c' = c ∨ Starts (revealDir fs o) (revealDir fs o c) c'

variable {fs : Files} {o : Options}

theorem stored_mem_revealDir {c : Call} {i : ℕ} :
    .emit (.stored i) ∈ revealDir fs o c ↔ ∃ names, fs.readdir c.path = some names ∧
      i < names.length := by
  unfold revealDir
  cases fs.readdir c.path with
  | none => simp
  | some names => simp [entryItems]

/-- The table is filled before anything else happens. -/
theorem stored_mem_run {c : Call} {names : List Path} (h : fs.readdir c.path = some names) {i : ℕ}
    (hi : i < names.length) : .stored i ∈ (run (revealDir fs o) 1 c).events := by
  have key (events : List Event) (rest : List (Effect Event Call)) (call : Call → Trace Event) :
      events ⊆ (runItems call (events.map .emit ++ rest)).events := by
    induction events with
    | nil => exact List.nil_subset _
    | cons e events ih => exact List.cons_subset_cons e ih
  rw [run, revealDir, h]
  exact key _ _ _ (List.mem_map.mpr ⟨i, List.mem_range.mpr hi, rfl⟩)

/-- All slots that are written are slots of the table exactly if no directory that is opened
has more entries than the table has slots. -/
theorem table_indices_lt_iff (fs : Files) (o : Options) (c : Call) :
    (∀ depth i, .stored i ∈ (run (revealDir fs o) depth c).events → i < bufferSize) ↔
      ∀ c', Opens fs o c c' → ∀ names, fs.readdir c'.path = some names →
        names.length ≤ bufferSize := by
  constructor
  · intro h c' hc' names hnames
    by_contra hlong
    have hstored := stored_mem_run (o := o) hnames (Nat.lt_of_not_le hlong)
    rcases hc' with rfl | hstarts
    · exact Nat.lt_irrefl _ (h _ _ hstored)
    · obtain ⟨m, hm⟩ := events_of_starts hstarts 1
      exact Nat.lt_irrefl _ (h (m + 1) _ (hm m (Nat.le_refl m) hstored))
  · intro h depth i hi
    have hfits : ∀ c', Opens fs o c c' → .emit (.stored i) ∈ revealDir fs o c' →
        i < bufferSize := by
      intro c' hc' hemit
      obtain ⟨names, hnames, hlt⟩ := stored_mem_revealDir.mp hemit
      exact Nat.lt_of_lt_of_le hlt (h c' hc' names hnames)
    rcases starts_of_mem hi with hemit | ⟨c', hstarts, hemit⟩
    · exact hfits c (.inl rfl) hemit
    · exact hfits c' (.inr hstarts) hemit

def crowdedDir : Files where
  readdir _ := some (dot :: dotDot :: (List.range (bufferSize - 1)).map (Nat.toDigits 10))
  isDir path := path.getLast? = some '.'

/-- `reveal` there writes one slot behind the table. -/
theorem crowded_directory_overflows :
    .stored bufferSize ∈ (executeReveal crowdedDir 1 [] [] []).events := by
  have hnames : crowdedDir.readdir dot =
      some (dot :: dotDot :: (List.range (bufferSize - 1)).map (Nat.toDigits 10)) := rfl
  apply stored_mem_run hnames
  rw [List.length_cons, List.length_cons, List.length_map, List.length_range]
  decide

end ShellXv6.Shell.Reveal
