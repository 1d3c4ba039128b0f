import ShellXv6.Lib.Tally
import ShellXv6.Shell.Ping

/-!
# The builtin `spy`

`spy` lists the files of a process: its working directory, its program, the files that
are mapped and the open descriptors.  The mapped files are taken from the lines of
`/proc/<pid>/maps`; the pathname stands at the end of a line, and `spy` takes what
follows the last blank.
-/

namespace ShellXv6.Shell.Spy

open Scanf

inductive FileType
  | REG
  | DIR
  | CHR
  | BLK
  | FIFO
  | SOCK
  | LNK
  | UNK
  deriving DecidableEq

def getTypeStr : FileType → List Char
  | .REG => "REG".toList
  | .DIR => "DIR".toList
  | .CHR => "CHR".toList
  | .BLK => "BLK".toList
  | .FIFO => "FIFO".toList
  | .SOCK => "SOCK".toList
  | .LNK => "LNK".toList
  | .UNK => "UNK".toList

/-- What the calls give when they succeed. -/
structure System where
  getpid : ℕ
  stat : Path → Option FileType
  lstat : Path → Option FileType
  readlink : Path → Option Path
  /-- The text of a file that can be opened. -/
  read : Path → Option (List Char)
  readdir : Path → Option (List Path)

structure Row where
  pid : List Char
  fd : List Char
  type : FileType
  path : Path
  deriving DecidableEq

def printLine (pid fd type path : List Char) : List Char :=
  padded 8 pid ++ ' ' :: (padded 6 fd ++ ' ' :: (padded 6 type ++ ' ' :: (path ++ ['\n'])))

def Row.print (row : Row) : List Char := printLine row.pid row.fd (getTypeStr row.type) row.path

def printEntry (sys : System) (pid fd : List Char) (path : Path) : List Row :=
  match sys.stat path with
  | some type => [⟨pid, fd, type, path⟩]
  | none =>
      match sys.lstat path with
      | some type => [⟨pid, fd, type, path⟩]
      | none => []

def printFdEntry (sys : System) (pid fd_name : List Char) (fd_path : Path) : List Row :=
  match sys.readlink fd_path with
  | some link_target => printEntry sys pid fd_name (link_target.take 4095)
  | none => []

/-! ## The mapped files -/

/-- The calls of `fgets` with an array of 1024 bytes, as long as there is text. -/
def fgetsLoop : ℕ → List Char → List (List Char)
  | 0, _ => []
  | fuel + 1, text =>
      if text = [] then []
      else
        let n := min 1023 ((text.takeWhile (· != '\n')).length + 1)
        text.take n :: fgetsLoop fuel (text.drop n)

/-- Every call takes a character at least. -/
def fgets (text : List Char) : List (List Char) := fgetsLoop text.length text

/-- What stands behind the last blank. -/
def lastSpace (line : List Char) : Option (List Char) :=
  if ' ' ∈ line then some (line.reverse.takeWhile (· != ' ')).reverse else none

/-- The path that a line gives. -/
def linePath (line : List Char) : Option Path :=
  match lastSpace line with
  | none => none
  | some last_space =>
      let path := last_space.takeWhile (· != '\n')
      if path.head? = some '/' then some path else none

def seenSize : ℕ := 1024

/-- The paths seen and the rows printed so far. -/
abbrev MapsState := List Path × List Row

def mapsLine (sys : System) (pid_str : List Char) (s : MapsState) (line : List Char) : MapsState :=
  match linePath line with
  | none => s
  | some path =>
      if path ∉ s.1 ∧ s.1.length < seenSize then
        (s.1 ++ [path], s.2 ++ printEntry sys pid_str "mem".toList path)
      else s

def procFile (pid_str : List Char) (name : String) : Path :=
  "/proc/".toList ++ pid_str ++ '/' :: name.toList

def mapsRows (sys : System) (pid_str : List Char) : List Row :=
  match sys.read (procFile pid_str "maps") with
  | some text => ((fgets text).foldl (mapsLine sys pid_str) ([], [])).2
  | none => []

/-! ## All rows -/

def fdRows (sys : System) (pid_str : List Char) : List Row :=
  match sys.readdir (procFile pid_str "fd") with
  | some names =>
      let fds := ((names.filter fun name => name.head?.any Char.isDigit).take 1024).map Ping.atoi
      (fds.mergeSort (· ≤ ·)).flatMap fun fd =>
        printFdEntry sys pid_str (printInt fd) (procFile pid_str "fd" ++ '/' :: printInt fd)
  | none => []

def spyRows (sys : System) (pid_str : List Char) : List Row :=
  printFdEntry sys pid_str "cwd".toList (procFile pid_str "cwd") ++
    printFdEntry sys pid_str "txt".toList (procFile pid_str "exe") ++
    mapsRows sys pid_str ++ fdRows sys pid_str

/-- What is printed. -/
def executeSpy (sys : System) (args : List (List Char)) : List Char :=
  if args.length > 2 then "spy: invalid syntax\n".toList
  else
    let pid_str :=
      match args[1]? with
      | none => printInt sys.getpid
      | some arg => arg.take 31
    if sys.stat ("/proc/".toList ++ pid_str) ≠ some .DIR then "spy: no such process\n".toList
    else
      printLine "PID".toList "FD".toList "TYPE".toList "PATH".toList ++
        (spyRows sys pid_str).flatMap Row.print

def memRows (sys : System) (pid_str : List Char) : List Row :=
  (spyRows sys pid_str).filter fun row => row.fd = "mem".toList

theorem fd_of_mem_printEntry {sys : System} {pid fd : List Char} {path : Path} {row : Row}
    (h : row ∈ printEntry sys pid fd path) : row.fd = fd ∧ row.path = path := by
  rw [printEntry] at h
  split at h
  · obtain rfl := List.mem_singleton.mp h
    exact ⟨rfl, rfl⟩
  · split at h
    · obtain rfl := List.mem_singleton.mp h
      exact ⟨rfl, rfl⟩
    · cases h

theorem fd_of_mem_printFdEntry {sys : System} {pid fd : List Char} {path : Path} {row : Row}
    (h : row ∈ printFdEntry sys pid fd path) : row.fd = fd := by
  rw [printFdEntry] at h
  split at h
  · exact (fd_of_mem_printEntry h).1
  · cases h

theorem printInt_ne_mem (n : ℤ) : printInt n ≠ "mem".toList := by
  intro heq
  rw [printInt] at heq
  split_ifs at heq
  · exact absurd (List.cons.inj heq).1 (by decide)
  · have hdigit := toDigits_isDigit (n := n.natAbs) 'm' (heq ▸ List.mem_cons_self)
    exact absurd hdigit (by decide)

/-- What the loop over the lines of the maps has seen and printed. -/
theorem foldl_mapsLine (sys : System) (pid_str : List Char) (lines : List (List Char)) :
    lines.foldl (mapsLine sys pid_str) ([], []) =
      (Tally.kept id seenSize (lines.filterMap linePath),
        (Tally.kept id seenSize (lines.filterMap linePath)).flatMap
          (printEntry sys pid_str "mem".toList)) := by
  induction lines using List.reverseRecOn with
  | nil => rfl
  | append_singleton lines line ih =>
      rw [List.foldl_append, ih, List.filterMap_append, List.foldl_cons, List.foldl_nil, mapsLine]
      cases hpath : linePath line with
      | none => simp [hpath]
      | some path =>
          have hone : [line].filterMap linePath = [path] := by simp [hpath]
          rw [hone, Tally.kept_concat]
          dsimp only [id_eq]
          split_ifs
          · rw [List.flatMap_append, List.flatMap_singleton]
          · rfl

theorem mapsRows_eq {sys : System} {pid_str text : List Char}
    (h : sys.read (procFile pid_str "maps") = some text) :
    mapsRows sys pid_str = (Tally.kept id seenSize ((fgets text).filterMap linePath)).flatMap
      (printEntry sys pid_str "mem".toList) := by
  rw [mapsRows, h]
  exact congrArg Prod.snd (foldl_mapsLine sys pid_str (fgets text))

theorem fd_of_mem_mapsRows {sys : System} {pid_str : List Char} {row : Row}
    (h : row ∈ mapsRows sys pid_str) : row.fd = "mem".toList := by
  cases hread : sys.read (procFile pid_str "maps") with
  | none =>
      rw [mapsRows, hread] at h
      cases h
  | some text =>
      rw [mapsRows_eq hread] at h
      obtain ⟨path, -, hrow⟩ := List.mem_flatMap.mp h
      exact (fd_of_mem_printEntry hrow).1

theorem filter_mem_eq_nil {rows : List Row} (h : ∀ row ∈ rows, row.fd ≠ "mem".toList) :
    (rows.filter fun row => row.fd = "mem".toList) = [] :=
  List.filter_eq_nil_iff.mpr fun row hrow heq => h row hrow (of_decide_eq_true heq)

/-- The rows of the mapped files are those of the loop over the maps. -/
theorem memRows_eq (sys : System) (pid_str : List Char) :
    memRows sys pid_str = mapsRows sys pid_str := by
  have hlink {fd : List Char} {path : Path} (hne : fd ≠ "mem".toList) :
      ∀ row ∈ printFdEntry sys pid_str fd path, row.fd ≠ "mem".toList := fun row hrow =>
    fd_of_mem_printFdEntry hrow ▸ hne
  have hfds : ∀ row ∈ fdRows sys pid_str, row.fd ≠ "mem".toList := by
    intro row hrow
    rw [fdRows] at hrow
    split at hrow
    · obtain ⟨fd, -, hrow⟩ := List.mem_flatMap.mp hrow
      exact hlink (printInt_ne_mem fd) row hrow
    · cases hrow
  have hmaps : (mapsRows sys pid_str).filter (fun row => row.fd = "mem".toList) =
      mapsRows sys pid_str :=
    List.filter_eq_self.mpr fun row hrow => decide_eq_true (fd_of_mem_mapsRows hrow)
  rw [memRows, spyRows, List.filter_append, List.filter_append, List.filter_append, hmaps,
    filter_mem_eq_nil hfds, filter_mem_eq_nil (hlink (by decide)),
    filter_mem_eq_nil (hlink (by decide)), List.append_nil, List.append_nil, List.nil_append]

/-! ## The format of the maps -/

/-- None of the characters is in the text. -/
def FreeOf (cs text : List Char) : Prop := ∀ c ∈ cs, c ∉ text

-- over all characters the quantifier could not be decided by evaluation
instance (cs text : List Char) : Decidable (FreeOf cs text) := List.decidableBAll _ cs

/-- The fields in front of the pathname have no blanks, and the pathname may be empty. -/
structure MapEntry where
  address : List Char
  perms : List Char
  offset : List Char
  dev : List Char
  inode : List Char
  /-- The number of blanks behind the inode, less one. -/
  padding : ℕ
  pathname : Path
  fields_ok : FreeOf [' ', '\n', nul] (address ++ perms ++ offset ++ dev ++ inode)
  pathname_ok : FreeOf ['\n', nul] pathname

namespace MapEntry

def front (e : MapEntry) : List Char :=
  e.address ++ ' ' :: (e.perms ++ ' ' :: (e.offset ++ ' ' :: (e.dev ++ ' ' :: (e.inode ++
    List.replicate e.padding ' '))))

/-- A line without its newline. -/
def line (e : MapEntry) : List Char := e.front ++ ' ' :: e.pathname

/-- The part of the pathname that `spy` looks at. -/
def word (e : MapEntry) : Path := (e.pathname.reverse.takeWhile (· != ' ')).reverse

end MapEntry

def mapsText (entries : List MapEntry) : List Char := entries.flatMap fun e => e.line ++ ['\n']

def isFile (path : Path) : Bool := path.head? = some '/'

/-- The rows that are asked for: the pathnames that begin with a slash, each where it
first appears. -/
def files (entries : List MapEntry) : List Path :=
  Tally.keys id ((entries.map MapEntry.pathname).filter isFile)

/-- The word of an entry, if it looks like a file. -/
def fileWord (e : MapEntry) : Option Path := if isFile e.word then some e.word else none

theorem newline_not_mem_pathname (e : MapEntry) : '\n' ∉ e.pathname :=
  e.pathname_ok '\n' List.mem_cons_self

theorem newline_not_mem_line (e : MapEntry) : '\n' ∉ e.line := by
  have hfields : '\n' ∉ e.address ++ e.perms ++ e.offset ++ e.dev ++ e.inode :=
    e.fields_ok '\n' (List.mem_cons_of_mem _ List.mem_cons_self)
  simp only [List.mem_append, not_or] at hfields
  simp [MapEntry.line, MapEntry.front, hfields, newline_not_mem_pathname]

theorem mem_word {e : MapEntry} {c : Char} (h : c ∈ e.word) : c ∈ e.pathname ∧ c ≠ ' ' := by
  have hmem := List.mem_reverse.mp h
  refine ⟨List.mem_reverse.mp ((List.takeWhile_sublist _).subset hmem), ?_⟩
  have hne : (c != ' ') = true := List.mem_takeWhile_imp (p := (· != ' ')) hmem
  exact bne_iff_ne.mp hne

theorem word_of_no_blank {e : MapEntry} (h : ' ' ∉ e.pathname) : e.word = e.pathname := by
  rw [MapEntry.word, List.takeWhile_eq_self_iff.mpr, List.reverse_reverse]
  intro c hc
  exact bne_iff_ne.mpr fun heq => h (heq ▸ List.mem_reverse.mp hc)

theorem lastSpace_line (e : MapEntry) {tail : List Char} (h : ' ' ∉ tail) :
    lastSpace (e.line ++ tail) = some (e.word ++ tail) := by
  have hblank : ' ' ∈ e.line ++ tail := by simp [MapEntry.line]
  have hrev : (e.line ++ tail).reverse =
      tail.reverse ++ (e.pathname.reverse ++ ' ' :: e.front.reverse) := by
    simp [MapEntry.line]
  rw [lastSpace, if_pos hblank, hrev, List.takeWhile_append_of_pos,
    Split.takeWhile_append_stop (by rfl), List.reverse_append, List.reverse_reverse, MapEntry.word]
  intro c hc
  exact bne_iff_ne.mpr fun heq => h (heq ▸ List.mem_reverse.mp hc)

theorem linePath_line (e : MapEntry) {tail : List Char} (h : tail = [] ∨ tail = ['\n']) :
    linePath (e.line ++ tail) = fileWord e := by
  have hblank : ' ' ∉ tail := by
    rcases h with rfl | rfl <;> decide
  have hcut : (e.word ++ tail).takeWhile (· != '\n') = e.word := by
    rw [List.takeWhile_append_of_pos]
    · rcases h with rfl | rfl <;> exact List.append_nil _
    · exact fun c hc => bne_iff_ne.mpr fun heq =>
        newline_not_mem_pathname e (heq ▸ (mem_word hc).1)
  rw [linePath, lastSpace_line e hblank]
  simp only [hcut, fileWord, isFile, decide_eq_true_eq]

/-! ## The lines of the maps -/

theorem fgetsLoop_short {line rest : List Char} (fuel : ℕ) (hline : '\n' ∉ line)
    (hlen : line.length < 1023) :
    fgetsLoop (fuel + 1) (line ++ '\n' :: rest) = (line ++ ['\n']) :: fgetsLoop fuel rest := by
  have hsplit : line ++ '\n' :: rest = (line ++ ['\n']) ++ rest := by simp
  have hn : min 1023 (line.length + 1) = (line ++ ['\n']).length := by
    rw [List.length_append, List.length_singleton]
    omega
  rw [fgetsLoop, if_neg (by simp), Split.takeWhile_ne hline]
  simp only [hn]
  rw [hsplit, List.take_left, List.drop_left]

/-- A line of 1023 bytes leaves its newline for the next call. -/
theorem fgetsLoop_full {line rest : List Char} (fuel : ℕ) (hline : '\n' ∉ line)
    (hlen : line.length = 1023) :
    fgetsLoop (fuel + 2) (line ++ '\n' :: rest) = line :: ['\n'] :: fgetsLoop fuel rest := by
  have hn : min 1023 (line.length + 1) = line.length := by omega
  rw [fgetsLoop, if_neg (by simp), Split.takeWhile_ne hline]
  simp only [hn]
  rw [List.take_left, List.drop_left]
  have hnewline : fgetsLoop (fuel + 1) ([] ++ '\n' :: rest) =
      ([] ++ ['\n']) :: fgetsLoop fuel rest :=
    fgetsLoop_short fuel List.not_mem_nil (by decide)
  exact congrArg _ hnewline

/-- Every entry gives its word, however its line is read. -/
theorem filterMap_fgetsLoop {entries : List MapEntry} (hlines : ∀ e ∈ entries, e.line.length < 1024)
    {fuel : ℕ} (hfuel : (mapsText entries).length ≤ fuel) :
    (fgetsLoop fuel (mapsText entries)).filterMap linePath = entries.filterMap fileWord := by
  induction entries generalizing fuel with
  | nil => cases fuel <;> rfl
  | cons e entries ih =>
      obtain ⟨hline, hlines⟩ := List.forall_mem_cons.mp hlines
      have htext : mapsText (e :: entries) = e.line ++ '\n' :: mapsText entries := by
        simp [mapsText]
      rw [htext] at hfuel ⊢
      rw [List.length_append, List.length_cons] at hfuel
      have hword := linePath_line e (.inr rfl)
      rcases Nat.lt_or_eq_of_le (Nat.le_of_lt_succ hline) with hshort | hfull
      · obtain ⟨fuel, rfl⟩ : ∃ k, fuel = k + 1 := ⟨fuel - 1, by omega⟩
        rw [fgetsLoop_short fuel (newline_not_mem_line e) hshort, List.filterMap_cons, hword,
          List.filterMap_cons, ih hlines (by omega)]
      · obtain ⟨fuel, rfl⟩ : ∃ k, fuel = k + 2 := ⟨fuel - 2, by omega⟩
        have hfirst : linePath e.line = fileWord e := by
          rw [← linePath_line e (.inl rfl), List.append_nil]
        have hrest : linePath ['\n'] = none := rfl
        rw [fgetsLoop_full fuel (newline_not_mem_line e) hfull, List.filterMap_cons, hfirst,
          List.filterMap_cons, hrest, List.filterMap_cons, ih hlines (by omega)]

/-! ## The rows -/

def Exists (sys : System) (path : Path) : Prop :=
  (sys.stat path).isSome = true ∨ (sys.lstat path).isSome = true

instance (sys : System) (path : Path) : Decidable (Exists sys path) :=
  inferInstanceAs (Decidable (_ ∨ _))

/-- No pathname that begins with a slash contains a blank. -/
def NoBlanks (entries : List MapEntry) : Prop :=
  ∀ e ∈ entries, isFile e.pathname = true → ' ' ∉ e.pathname

/-- No other pathname has a last word that begins with a slash. -/
def NoStrays (entries : List MapEntry) : Prop :=
  ∀ e ∈ entries, isFile e.pathname = false → isFile e.word = false

instance (entries : List MapEntry) : Decidable (NoBlanks entries) :=
  inferInstanceAs (Decidable (∀ _ ∈ _, _))

instance (entries : List MapEntry) : Decidable (NoStrays entries) :=
  inferInstanceAs (Decidable (∀ _ ∈ _, _))

/-- `maps` has the entries, the files exist and the lines are short. -/
structure Listed (sys : System) (pid_str : List Char) (entries : List MapEntry) : Prop where
  read : sys.read (procFile pid_str "maps") = some (mapsText entries)
  lines : ∀ e ∈ entries, e.line.length < 1024
  few : (files entries).length < 1024
  exist : ∀ path ∈ files entries, Exists sys path

theorem mem_files {entries : List MapEntry} {path : Path} :
    path ∈ files entries ↔ ∃ e ∈ entries, e.pathname = path ∧ isFile path = true := by
  rw [files, Tally.mem_keys]
  constructor
  · rintro ⟨other, hmem, rfl⟩
    obtain ⟨hmap, hfile⟩ := List.mem_filter.mp hmem
    obtain ⟨e, he, heq⟩ := List.mem_map.mp hmap
    exact ⟨e, he, heq, hfile⟩
  · rintro ⟨e, he, rfl, hfile⟩
    exact ⟨_, List.mem_filter.mpr ⟨List.mem_map_of_mem he, hfile⟩, rfl⟩

theorem map_path_printEntry {sys : System} {pid fd : List Char} {path : Path}
    (h : Exists sys path) : (printEntry sys pid fd path).map Row.path = [path] := by
  rw [printEntry]
  split
  · rfl
  · rename_i hstat
    rw [Exists, hstat] at h
    obtain ⟨type, htype⟩ := Option.isSome_iff_exists.mp (h.resolve_left Bool.false_ne_true)
    rw [htype]
    rfl

theorem fileWord_eq_some {e : MapEntry} {path : Path} (h : fileWord e = some path) :
    ' ' ∉ path := by
  rw [fileWord] at h
  split_ifs at h
  obtain rfl := Option.some.inj h
  exact fun hblank => (mem_word hblank).2 rfl

theorem filterMap_fileWord {entries : List MapEntry} (hblanks : NoBlanks entries)
    (hstrays : NoStrays entries) :
    entries.filterMap fileWord = (entries.map MapEntry.pathname).filter isFile := by
  induction entries with
  | nil => rfl
  | cons e entries ih =>
      obtain ⟨hblank, hblanks⟩ := List.forall_mem_cons.mp hblanks
      obtain ⟨hstray, hstrays⟩ := List.forall_mem_cons.mp hstrays
      rw [List.filterMap_cons, List.map_cons, List.filter_cons, ih hblanks hstrays, fileWord]
      cases hfile : isFile e.pathname with
      | true => rw [word_of_no_blank (hblank hfile), hfile]; rfl
      | false => rw [hstray hfile]; rfl

section

variable {sys : System} {pid_str : List Char} {entries : List MapEntry}

theorem Listed.memRows_eq (h : Listed sys pid_str entries) :
    memRows sys pid_str = (Tally.kept id seenSize (entries.filterMap fileWord)).flatMap
      (printEntry sys pid_str "mem".toList) := by
  rw [Spy.memRows_eq, mapsRows_eq h.read, fgets, filterMap_fgetsLoop h.lines (Nat.le_refl _)]

/-- Every row is a word, and words have no blanks. -/
theorem Listed.noBlanks (h : Listed sys pid_str entries)
    (hrows : (memRows sys pid_str).map Row.path = files entries) : NoBlanks entries := by
  intro e he hfile
  have hmem : e.pathname ∈ files entries := mem_files.mpr ⟨e, he, rfl, hfile⟩
  rw [← hrows, h.memRows_eq] at hmem
  obtain ⟨row, hrow, hpath⟩ := List.mem_map.mp hmem
  obtain ⟨word, hword, hrow⟩ := List.mem_flatMap.mp hrow
  obtain ⟨path, hseen, rfl⟩ := Tally.mem_of_mem_kept hword
  obtain ⟨other, -, hother⟩ := List.mem_filterMap.mp hseen
  rw [← hpath, (fd_of_mem_printEntry hrow).2]
  exact fileWord_eq_some hother

theorem Listed.rows (h : Listed sys pid_str entries) (hblanks : NoBlanks entries)
    (hstrays : NoStrays entries) : (memRows sys pid_str).map Row.path = files entries := by
  have hkept : Tally.kept id seenSize (entries.filterMap fileWord) = files entries := by
    rw [filterMap_fileWord hblanks hstrays, Tally.kept]
    exact List.take_of_length_le (Nat.le_of_lt h.few)
  rw [h.memRows_eq, hkept, List.map_flatMap]
  calc (files entries).flatMap (fun path =>
        (printEntry sys pid_str "mem".toList path).map Row.path)
      = (files entries).flatMap fun path => [path] :=
        List.flatMap_congr fun path hpath => map_path_printEntry (h.exist path hpath)
    _ = files entries := List.flatMap_singleton' _

end

/-- Pathnames with blanks are never shown as they are; without them, and without words that
only look like files, the rows are the files. -/
theorem mem_rows_are_files {sys : System} {pid_str : List Char} {entries : List MapEntry}
    (h : Listed sys pid_str entries) :
    ((memRows sys pid_str).map Row.path = files entries → NoBlanks entries) ∧
      (NoBlanks entries → NoStrays entries →
        (memRows sys pid_str).map Row.path = files entries) :=
  ⟨h.noBlanks, h.rows⟩

/-- An entry with the fields of a first mapping. -/
def mapped (pathname : Path) (h : FreeOf ['\n', nul] pathname) : MapEntry where
  address := "400000-401000".toList
  perms := "r-xp".toList
  offset := "00000000".toList
  dev := "08:01".toList
  inode := "42".toList
  padding := 4
  pathname := pathname
  fields_ok := by decide
  pathname_ok := h

/-- Every path exists, and process 7 has the given maps. -/
def processWith (entries : List MapEntry) : System where
  getpid := 1
  stat _ := some .REG
  lstat _ := some .REG
  readlink _ := none
  read path := if path = "/proc/7/maps".toList then some (mapsText entries) else none
  readdir _ := none

theorem listed_processWith {entries : List MapEntry}
    (hlines : ∀ e ∈ entries, e.line.length < 1024) (hfew : (files entries).length < 1024) :
    Listed (processWith entries) "7".toList entries where
  read := by
    have hpath : procFile "7".toList "maps" = "/proc/7/maps".toList := by decide
    simp only [processWith, hpath, if_true]
  lines := hlines
  few := hfew
  exist _ _ := .inl rfl

def twoLibraries : List MapEntry :=
  [mapped "/lib/b.so".toList (by decide), mapped "[heap]".toList (by decide),
    mapped "/lib/a.so".toList (by decide), mapped [] (by decide),
    mapped "/lib/b.so".toList (by decide)]

theorem mem_rows_two_libraries :
    (memRows (processWith twoLibraries) "7".toList).map Row.path =
      ["/lib/b.so".toList, "/lib/a.so".toList] :=
  (mem_rows_are_files (listed_processWith (by decide) (by decide))).2 (by decide) (by decide)

def blankName : List MapEntry :=
  [mapped "/home/my lib.so".toList (by decide), mapped "/home/x /lib/b.so".toList (by decide)]

/-- Of a pathname with a blank, the last word is shown if it looks like a file, and nothing
otherwise. -/
theorem mem_rows_not_files :
    Listed (processWith blankName) "7".toList blankName ∧
      (memRows (processWith blankName) "7".toList).map Row.path = ["/lib/b.so".toList] ∧
      files blankName = ["/home/my lib.so".toList, "/home/x /lib/b.so".toList] :=
  ⟨listed_processWith (by decide) (by decide), by decide, by decide⟩

end ShellXv6.Shell.Spy
