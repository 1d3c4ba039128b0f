import Mathlib.Data.BitVec
import Mathlib.Data.List.TakeWhile
import Mathlib.Data.PNat.Basic
import ShellXv6.Lib.Lines

/-!
# The builtin `peek`

`peek` prints files and its standard input, with numbers on the lines that are not
blank (`-n`) or from the last line to the first (`-r`). Three paths of the source
do the printing: forwards with `getline`, backwards over an array of lines for the
standard input, and backwards over chunks of `CHUNK_SIZE` bytes for a file. All of
them hand their lines to `printf` and `strlen`, which stop at a NUL byte.
-/

namespace ShellXv6.Shell.Peek

open Lines

/-- The C type `int`. -/
abbrev CInt := BitVec 32

theorem toInt_natCast {k : ℕ} (h : k < 2 ^ 31) : ((k : CInt)).toInt = k := by
  have htoNat : (BitVec.ofNat 32 k).toNat = k := by
    rw [BitVec.toNat_ofNat]
    exact Nat.mod_eq_of_lt (by omega)
  rw [BitVec.natCast_eq_ofNat, BitVec.toInt_eq_toNat_of_lt (by rw [htoNat]; omega), htoNat]

/-- What `stat` and `fopen` find under a name. -/
inductive Entry
  | missing
  | directory
  | unreadable (reason : String)
  | file (content : List Char)

abbrev Files := List Char → Entry

/-- What the string functions of C see of a buffer. -/
def cString (s : List Char) : List Char := s.takeWhile (· != '\x00')

def strlen (s : List Char) : ℕ := (cString s).length

def isNotEmpty (line : List Char) : Bool :=
  (cString line).any fun c => c != ' ' && c != '\t' && c != '\n' && c != '\r'

/-- The lines that a loop over `getline` reads. -/
def getlines (content : List Char) : List (List Char) := lines '\n' content

/-- `line[strlen(line) - 1] != '\n'`; the index is -1 for a line that starts with NUL,
and `before` is the byte in front of the buffer. -/
def lacksNewline (before : Char) (line : List Char) : Bool :=
  (cString line).getLast?.getD before != '\n'

def decimal (n : CInt) : List Char :=
  match n.toInt with
  | .ofNat m => Nat.toDigits 10 m
  | .negSucc m => '-' :: Nat.toDigits 10 (m + 1)

/-- One line as it is printed: the number in front, the text of `%s`, and whether
`printf("\n")` follows. -/
structure Printed where
  number : Option CInt
  text : List Char
  newline : Bool

def printLine (numberLines : Bool) (num : CInt) (line : List Char) (newline : Bool) : Printed :=
  ⟨if numberLines && isNotEmpty line then some num else none, cString line, newline⟩

/-- The loop of the forward path; `before i` stands in front of the buffer of line `i`. -/
def forward (numberLines : Bool) : (ℕ → Char) → CInt → List (List Char) → CInt × List Printed
  | _, globalLineNum, [] => (globalLineNum, [])
  | before, globalLineNum, line :: rest =>
      let next := if numberLines && isNotEmpty line then globalLineNum + 1 else globalLineNum
      let r := forward numberLines (fun i => before (i + 1)) next rest
      (r.1, printLine numberLines globalLineNum line (lacksNewline (before 0) line) :: r.2)

/-- The printing of both backward paths, for lines with the answer whether a newline
is added. -/
def backward (numberLines : Bool) : CInt → List (List Char × Bool) → List Printed
  | _, [] => []
  | currentLineNum, (line, newline) :: rest =>
      let next := if numberLines && isNotEmpty line then currentLineNum - 1 else currentLineNum
      printLine numberLines currentLineNum line newline :: backward numberLines next rest

def totalNonEmpty (lines : List (List Char)) : CInt := BitVec.ofNat 32 (lines.countP isNotEmpty)

/-- `if (count >= cap) cap *= 2` -/
def grow (cap count : CInt) : CInt := if cap.toInt ≤ count.toInt then cap * 2 else cap

/-- The loop that stores the lines of the standard input in an array, for `cap`, `count`
and `total_non_empty`.  When `cap * 2` no longer fits, `realloc` is asked for more than there
is, and the store goes through a null pointer. -/
def storeLines : CInt → CInt → CInt → List (List Char) → Option (List (List Char) × CInt)
  | _, _, total, [] => some ([], total)
  | cap, count, total, line :: rest =>
      if (grow cap count).toInt < 0 then none
      else
        -- `strdup` copies up to the NUL.
        (storeLines (grow cap count) (count + 1) (if isNotEmpty line then total + 1 else total)
          rest).map fun r => (cString line :: r.1, r.2)

def reverseStdin (numberLines : Bool) (before : ℕ → Char) (globalLineNum : CInt)
    (content : List Char) : Option (CInt × List Printed) :=
  (storeLines 1024 0 0 (getlines content)).map fun (stored, total) =>
    (globalLineNum + total, backward numberLines (globalLineNum + total - 1)
      (stored.mapIdx fun j line => (line, lacksNewline (before j) line)).reverse)

/-- The loop over `j` in a chunk: the lines it completes, `segment_end` and the
leftover. -/
def scanChunk (chunk : List Char) : ℕ → ℕ → List Char → List (List Char) × ℕ × List Char
  | 0, segmentEnd, leftover => ([], segmentEnd, leftover)
  | j + 1, segmentEnd, leftover =>
      if chunk[j]? = some '\n' then
        let fullLine := (chunk.take segmentEnd).drop (j + 1) ++ leftover ++ ['\n']
        let r := scanChunk chunk j j []
        (fullLine :: r.1, r.2)
      else scanChunk chunk j segmentEnd leftover

/-- The loop over the chunks and the line that is left at its end. -/
def scanFile (size : ℕ+) (content : List Char) (pos : ℕ) (leftover : List Char) :
    List (List Char) :=
  if pos = 0 then
    if leftover = [] then [] else [leftover ++ ['\n']]
  else
    let readSize := if pos < size then pos else size
    let chunk := (content.drop (pos - readSize)).take readSize
    let r := scanChunk chunk readSize readSize leftover
    r.1 ++ scanFile size content (pos - readSize)
      (if 0 < r.2.1 then chunk.take r.2.1 ++ r.2.2 else r.2.2)
termination_by pos
decreasing_by
  have := size.pos
  split <;> omega

def reverseFile (size : ℕ+) (numberLines : Bool) (globalLineNum : CInt) (content : List Char) :
    CInt × List Printed :=
  let total := totalNonEmpty (getlines content)
  (globalLineNum + total, backward numberLines (globalLineNum + total - 1)
    ((scanFile size content content.length []).map fun fullLine => (fullLine, false)))

structure State where
  globalLineNum : CInt
  stdin : List Char
  stdout : List Printed
  stderr : List String

def State.print (s : State) (r : CInt × List Printed) : State :=
  { s with globalLineNum := r.1, stdout := s.stdout ++ r.2 }

def State.complain (s : State) (msg : String) : State := { s with stderr := s.stderr ++ [msg] }

/-- One operand, unless the shell crashes. The first `-` reads the standard input to its
end. -/
def peekFile (size : ℕ+) (files : Files) (before : ℕ → Char) (numberLines reverseLines : Bool)
    (s : State) (currentFile : List Char) : Option State :=
  if currentFile = ['-'] then
    (if reverseLines then reverseStdin numberLines before s.globalLineNum s.stdin
      else some (forward numberLines before s.globalLineNum (getlines s.stdin))).map
        fun r => { s.print r with stdin := [] }
  else
    match files currentFile with
    | .missing => some (s.complain "peek: no such file or directory\n")
    | .directory => some (s.complain "peek: is a directory\n")
    | .unreadable reason => some (s.complain ("peek: " ++ reason ++ "\n"))
    | .file content =>
        some (s.print
          (if reverseLines then reverseFile size numberLines s.globalLineNum content
          else forward numberLines before s.globalLineNum (getlines content)))

def parseFlags : Bool → Bool → List Char → Option (Bool × Bool)
  | numberLines, reverseLines, [] => some (numberLines, reverseLines)
  | numberLines, reverseLines, c :: cs =>
      if c = 'n' then parseFlags true reverseLines cs
      else if c = 'r' then parseFlags numberLines true cs
      else none

def isFlag : List Char → Bool
  | '-' :: _ :: _ => true
  | _ => false

def maxOperands : ℕ := 1024

def parseArgs : Bool → Bool → List (List Char) → List (List Char) →
    Except String (Bool × Bool × List (List Char))
  | numberLines, reverseLines, filenames, [] => .ok (numberLines, reverseLines, filenames)
  | numberLines, reverseLines, filenames, arg :: rest =>
      if isFlag arg then
        match parseFlags numberLines reverseLines arg.tail with
        | some (numberLines, reverseLines) => parseArgs numberLines reverseLines filenames rest
        | none => .error "peek: invalid syntax\n"
      else if filenames.length < maxOperands then
        parseArgs numberLines reverseLines (filenames ++ [arg]) rest
      else .error "peek: too many arguments\n"

structure Output where
  stdout : List Printed
  stderr : List String
  status : ℕ

/-- The builtin on the arguments after its name; `none` is a crash. -/
def peek (size : ℕ+) (files : Files) (stdin : List Char) (before : ℕ → Char)
    (argv : List (List Char)) : Option Output :=
  match parseArgs false false [] argv with
  | .error msg => some ⟨[], [msg], 1⟩
  | .ok (numberLines, reverseLines, filenames) =>
      let filenames := if filenames = [] then [['-']] else filenames
      (filenames.foldlM (peekFile size files before numberLines reverseLines)
        ⟨1, stdin, [], []⟩).map fun s => ⟨s.stdout, s.stderr, 0⟩

/-- The printed line with its end. -/
def Printed.line (p : Printed) : List Char := p.text ++ if p.newline then ['\n'] else []

def numberText : Option CInt → List Char
  | some n => decimal n ++ [' ']
  | none => []

def Output.bytes (o : Output) : List Char :=
  o.stdout.flatMap fun p => numberText p.number ++ p.line

/-- The arguments `-n` and `-r`, where they are given. -/
def flagArgs (numberLines reverseLines : Bool) : List (List Char) :=
  (if numberLines then [['-', 'n']] else []) ++ if reverseLines then [['-', 'r']] else []

/-! ### The backward scan -/

theorem scanChunk_spec {chunk after : List Char} {j segmentEnd : ℕ} {leftover : List Char}
    {done : List (List Char)} (hj : j ≤ segmentEnd) (hend : segmentEnd ≤ chunk.length)
    (h : (chunk.drop j ++ after).splitOn '\n' =
      ((chunk.take segmentEnd).drop j ++ leftover) :: done) :
    ∃ done', (chunk ++ after).splitOn '\n' =
        (chunk.take (scanChunk chunk j segmentEnd leftover).2.1 ++
          (scanChunk chunk j segmentEnd leftover).2.2) :: done' ∧
      done'.reverse.map (· ++ ['\n']) =
        done.reverse.map (· ++ ['\n']) ++ (scanChunk chunk j segmentEnd leftover).1 := by
  induction j generalizing segmentEnd leftover done with
  | zero =>
      refine ⟨done, ?_, ?_⟩
      · simpa [scanChunk] using h
      · simp [scanChunk]
  | succ j ih =>
      have hlt : j < chunk.length := by omega
      have hget : chunk[j]? = some chunk[j] := List.getElem?_eq_getElem hlt
      have hdrop : chunk.drop j ++ after = chunk[j] :: (chunk.drop (j + 1) ++ after) := by
        rw [List.drop_eq_getElem_cons hlt]
        rfl
      unfold scanChunk
      by_cases hc : chunk[j] = '\n'
      · rw [if_pos (by rw [hget, hc])]
        -- The line behind the newline is complete; the scan goes on with nothing left over.
        have hsplit : (chunk.drop j ++ after).splitOn '\n' =
            ((chunk.take j).drop j ++ []) ::
              ((chunk.take segmentEnd).drop (j + 1) ++ leftover) :: done := by
          rw [hdrop, hc, splitOn_cons_self, h]
          simp
        obtain ⟨done', hdone', hlines⟩ := ih le_rfl hlt.le hsplit
        refine ⟨done', hdone', ?_⟩
        rw [hlines]
        simp
      · rw [if_neg (by rw [hget]; simpa using hc)]
        have hsplit : (chunk.drop j ++ after).splitOn '\n' =
            ((chunk.take segmentEnd).drop j ++ leftover) :: done := by
          have hseg : j < (chunk.take segmentEnd).length := by
            rw [List.length_take]
            omega
          rw [hdrop, splitOn_cons_of_ne hc, h, List.drop_eq_getElem_cons hseg]
          simp
        exact ih (by omega) hend hsplit

/-- What the scan still emits, when the part behind `pos` has the piece `leftover` in
front and the pieces `done` have been printed. -/
theorem scanFile_spec (size : ℕ+) {content leftover : List Char} {pos : ℕ}
    {done : List (List Char)} (hpos : pos ≤ content.length)
    (h : (content.drop pos).splitOn '\n' = leftover :: done) :
    done.reverse.map (· ++ ['\n']) ++ scanFile size content pos leftover =
      (upwards (content.splitOn '\n')).map (· ++ ['\n']) := by
  induction pos using Nat.strong_induction_on generalizing leftover done with
  | _ pos ih =>
    unfold scanFile
    by_cases hzero : pos = 0
    · subst hzero
      rw [List.drop_zero] at h
      rw [if_pos rfl, h]
      unfold upwards
      by_cases hleft : leftover = []
      · simp [hleft]
      · simp [hleft]
    · rw [if_neg hzero]
      simp only
      generalize hsize : (if pos < (size : ℕ) then pos else (size : ℕ)) = readSize
      have hread : 0 < readSize ∧ readSize ≤ pos := by
        have := size.pos
        split_ifs at hsize <;> omega
      generalize hchunk : (content.drop (pos - readSize)).take readSize = chunk
      have hlength : chunk.length = readSize := by
        rw [← hchunk, List.length_take, List.length_drop]
        omega
      have hcut : content.drop (pos - readSize) = chunk ++ content.drop pos := by
        rw [← hchunk]
        have hadd : pos = pos - readSize + readSize := by omega
        conv_lhs => rw [← List.take_append_drop readSize (content.drop (pos - readSize))]
        rw [List.drop_drop, ← hadd]
      have hstart : (chunk.drop readSize ++ content.drop pos).splitOn '\n' =
          ((chunk.take readSize).drop readSize ++ leftover) :: done := by
        simpa [← hlength] using h
      obtain ⟨done', hdone', hlines⟩ := scanChunk_spec le_rfl hlength.ge hstart
      have hleft : ∀ (n : ℕ) (left : List Char),
          (if 0 < n then chunk.take n ++ left else left) = chunk.take n ++ left := by
        intro n left
        split_ifs with hn
        · rfl
        · rw [Nat.eq_zero_of_not_pos hn]
          rfl
      rw [hleft, ← List.append_assoc, ← hlines]
      exact ih (pos - readSize) (by omega) (by omega) (by rw [hcut]; exact hdone')

/-- The lines that the backward scan hands to `printf`, for every chunk size. -/
theorem scanFile_eq (size : ℕ+) (content : List Char) :
    scanFile size content content.length [] =
      (upwards (content.splitOn '\n')).map (· ++ ['\n']) := by
  have hempty : (content.drop content.length).splitOn '\n' = [] :: [] := by simp
  simpa using scanFile_spec size le_rfl hempty

/-! ### What is printed -/

theorem cString_eq_self {s : List Char} (h : '\x00' ∉ s) : cString s = s := by
  unfold cString
  rw [List.takeWhile_eq_self_iff]
  intro c hc
  rw [bne_iff_ne]
  exact ne_of_mem_of_not_mem hc h

theorem nul_not_mem_cString (s : List Char) : '\x00' ∉ cString s := by
  intro h
  simpa using List.mem_takeWhile_imp h

theorem cString_cString (s : List Char) : cString (cString s) = cString s :=
  cString_eq_self (nul_not_mem_cString s)

theorem isNotEmpty_cString (s : List Char) : isNotEmpty (cString s) = isNotEmpty s := by
  unfold isNotEmpty
  rw [cString_cString]

@[simp] theorem isNotEmpty_nil : isNotEmpty [] = false := rfl

theorem isNotEmpty_append_newline (s : List Char) : isNotEmpty (s ++ ['\n']) = isNotEmpty s := by
  unfold isNotEmpty cString
  rw [List.takeWhile_append]
  split_ifs with h
  · rw [(List.takeWhile_prefix _).eq_of_length h, List.any_append]
    simp
  · rfl

/-- What a line of the given text looks like in the output, when `newline` says whether
a newline is added. -/
def shown (x : List Char × Bool) : List Char := cString x.1 ++ if x.2 then ['\n'] else []

theorem isNotEmpty_shown (x : List Char × Bool) : isNotEmpty (shown x) = isNotEmpty x.1 := by
  obtain ⟨line, newline⟩ := x
  cases newline with
  | false => simp [shown, isNotEmpty_cString]
  | true => simp [shown, isNotEmpty_append_newline, isNotEmpty_cString]

/-- Texts with the numbers of those that are not blank, counted on by `δ`. -/
def label (numberLines : Bool) (δ : CInt) : CInt → List (List Char) →
    List (Option CInt × List Char)
  | _, [] => []
  | num, text :: rest =>
      if numberLines && isNotEmpty text then
        (some num, text) :: label numberLines δ (num + δ) rest
      else (none, text) :: label numberLines δ num rest

def Printed.entry (p : Printed) : Option CInt × List Char := (p.number, p.line)

theorem Output.bytes_eq (o : Output) :
    o.bytes = (o.stdout.map Printed.entry).flatMap fun e => numberText e.1 ++ e.2 := by
  unfold Output.bytes
  rw [List.flatMap_map]
  rfl

theorem entry_printLine (numberLines : Bool) (num : CInt) (line : List Char) (newline : Bool) :
    (printLine numberLines num line newline).entry =
      (if numberLines && isNotEmpty line then some num else none, shown (line, newline)) := rfl

theorem backward_entries (numberLines : Bool) (num : CInt) (ls : List (List Char × Bool)) :
    (backward numberLines num ls).map Printed.entry =
      label numberLines (-1) num (ls.map shown) := by
  induction ls generalizing num with
  | nil => rfl
  | cons x rest ih =>
      obtain ⟨line, newline⟩ := x
      simp only [backward, List.map_cons, label, isNotEmpty_shown, ih, entry_printLine]
      split_ifs
      · rw [sub_eq_add_neg]
      · rfl

theorem forward_entries (numberLines : Bool) (before : ℕ → Char) (num : CInt)
    (ls : List (List Char)) (f : List Char → List Char)
    (hf : ∀ line ∈ ls, ∀ c, shown (line, lacksNewline c line) = f line) :
    (forward numberLines before num ls).2.map Printed.entry =
      label numberLines 1 num (ls.map f) := by
  induction ls generalizing before num with
  | nil => rfl
  | cons line rest ih =>
      obtain ⟨hline, hrest⟩ := List.forall_mem_cons.mp hf
      have hblank : isNotEmpty (f line) = isNotEmpty line := by
        rw [← hline (before 0), isNotEmpty_shown]
      simp only [forward, List.map_cons, label, hblank, ih _ _ hrest, entry_printLine, hline]
      split_ifs
      · rfl
      · rfl

theorem totalNonEmpty_cons (line : List Char) (rest : List (List Char)) (num : CInt) :
    (if isNotEmpty line then num + 1 else num) + totalNonEmpty rest =
      num + totalNonEmpty (line :: rest) := by
  simp only [totalNonEmpty, List.countP_cons]
  split_ifs
  · rw [add_assoc, BitVec.ofNat_add, add_comm (1 : CInt)]
    rfl
  · rfl

theorem forward_number (before : ℕ → Char) (num : CInt) (ls : List (List Char)) :
    (forward true before num ls).1 = num + totalNonEmpty ls := by
  induction ls generalizing before num with
  | nil => simp [forward, totalNonEmpty]
  | cons line rest ih =>
      simp only [forward, ih, Bool.true_and, totalNonEmpty_cons]

theorem grow_natCast {cap n : ℕ} (hcap : cap < 2 ^ 31) (hn : n < 2 ^ 31) :
    grow cap n = ((if cap ≤ n then cap * 2 else cap : ℕ) : CInt) := by
  unfold grow
  rw [toInt_natCast hcap, toInt_natCast hn]
  by_cases hfull : cap ≤ n
  · rw [if_pos (Int.ofNat_le.mpr hfull), if_pos hfull, Nat.cast_mul]
    rfl
  · rw [if_neg (mt Int.ofNat_le.mp hfull), if_neg hfull]

/-- The array grows up to `2 ^ 30` lines. -/
theorem storeLines_eq {c n : ℕ} (hc : c ≤ 30) (hn : n ≤ 2 ^ c) (total : CInt)
    (ls : List (List Char)) :
    storeLines ((2 ^ c : ℕ) : CInt) n total ls =
      if n + ls.length ≤ 2 ^ 30 then some (ls.map cString, total + totalNonEmpty ls) else none := by
  have hpow : 2 ^ c ≤ 2 ^ 30 := Nat.pow_le_pow_right (by decide) hc
  induction ls generalizing c n total with
  | nil =>
      rw [if_pos (by simpa using hn.trans hpow)]
      simp [storeLines, totalNonEmpty]
  | cons line rest ih =>
      have hsum : (if isNotEmpty line then total + 1 else total) + totalNonEmpty rest =
          total + totalNonEmpty (line :: rest) := totalNonEmpty_cons line rest total
      have hstep : ∀ {c' : ℕ}, c' ≤ 30 → n + 1 ≤ 2 ^ c' → 2 ^ c' ≤ 2 ^ 30 →
          (storeLines ((2 ^ c' : ℕ) : CInt) (n + 1)
            (if isNotEmpty line then total + 1 else total) rest).map
              (fun r => (cString line :: r.1, r.2)) =
            if n + (line :: rest).length ≤ 2 ^ 30 then
              some ((line :: rest).map cString, total + totalNonEmpty (line :: rest))
            else none := by
        intro c' hc' hn' hpow'
        have hnext : (n : CInt) + 1 = ((n + 1 : ℕ) : CInt) := by push_cast; rfl
        have hlength : n + (line :: rest).length = n + 1 + rest.length := by
          rw [List.length_cons]
          omega
        rw [hnext, ih hc' hn' _ hpow', hlength, hsum]
        split_ifs <;> rfl
      rw [storeLines, grow_natCast (by omega) (by omega)]
      by_cases hfull : 2 ^ c ≤ n
      · rw [if_pos hfull, ← pow_succ]
        by_cases hlast : c = 30
        · -- `2 ^ 31` is negative as an `int`.
          subst hlast
          rw [if_pos (by decide), if_neg (by rw [List.length_cons]; omega)]
        · have hroom : c + 1 ≤ 30 := by omega
          have hpow' : 2 ^ (c + 1) ≤ 2 ^ 30 := Nat.pow_le_pow_right (by decide) hroom
          rw [toInt_natCast (by omega), if_neg (Int.natCast_nonneg _).not_gt]
          have hpos := Nat.two_pow_pos c
          exact hstep hroom (by rw [pow_succ]; omega) hpow'
      · rw [if_neg hfull, toInt_natCast (by omega), if_neg (by omega)]
        exact hstep hc (by omega) hpow

theorem storeLines_getlines (content : List Char) :
    storeLines 1024 0 0 (getlines content) =
      if (getlines content).length ≤ 2 ^ 30 then
        some ((getlines content).map cString, totalNonEmpty (getlines content))
      else none := by
  have h := storeLines_eq (by decide : 10 ≤ 30) (Nat.zero_le (2 ^ 10)) 0 (getlines content)
  rw [Nat.zero_add, zero_add] at h
  exact h

theorem shown_eq_complete {line : List Char} (hne : line ≠ []) (hnul : '\x00' ∉ line) (c : Char) :
    shown (line, lacksNewline c line) = complete '\n' line := by
  unfold shown lacksNewline complete
  rw [cString_eq_self hnul]
  rw [List.getLast?_eq_getLast_of_ne_nil hne]
  by_cases hlast : line.getLast hne = '\n'
  · simp [hlast]
  · simp [hlast]

section Content

variable {content : List Char} (hnul : '\x00' ∉ content)
include hnul

theorem nul_not_mem_getlines {line : List Char} (h : line ∈ getlines content) : '\x00' ∉ line :=
  fun hline => hnul (mem_of_mem_lines h _ hline)

theorem forward_content (numberLines : Bool) (before : ℕ → Char) (num : CInt) :
    (forward numberLines before num (getlines content)).2.map Printed.entry =
      label numberLines 1 num ((rows (content.splitOn '\n')).map (· ++ ['\n'])) := by
  rw [← map_complete_lines]
  apply forward_entries
  intro line hline c
  exact shown_eq_complete (ne_nil_of_mem_lines hline) (nul_not_mem_getlines hnul hline) c

theorem reverseStdin_content (hroom : (getlines content).length ≤ 2 ^ 30) (numberLines : Bool)
    (before : ℕ → Char) (num : CInt) :
    ∃ printed, reverseStdin numberLines before num content =
        some (num + totalNonEmpty (getlines content), printed) ∧
      printed.map Printed.entry =
        label numberLines (-1) (num + totalNonEmpty (getlines content) - 1)
          ((rows (content.splitOn '\n')).map (· ++ ['\n'])).reverse := by
  unfold reverseStdin
  rw [storeLines_getlines, if_pos hroom]
  refine ⟨_, rfl, ?_⟩
  rw [← map_complete_lines, backward_entries, List.map_reverse]
  congr 2
  apply List.ext_getElem
  · simp [getlines]
  · intro i hi hi'
    have hlength : i < (getlines content).length := by simpa [getlines] using hi'
    have hmem : (getlines content)[i] ∈ getlines content := List.getElem_mem hlength
    have hline := nul_not_mem_getlines hnul hmem
    simp only [List.getElem_map, List.getElem_mapIdx, cString_eq_self hline]
    exact shown_eq_complete (ne_nil_of_mem_lines hmem) hline _

end Content

/-- More lines than the array can hold. -/
theorem reverseStdin_none {content : List Char} (hmany : 2 ^ 30 < (getlines content).length)
    (numberLines : Bool) (before : ℕ → Char) (num : CInt) :
    reverseStdin numberLines before num content = none := by
  unfold reverseStdin
  rw [storeLines_getlines, if_neg (by omega)]
  rfl

/-- The backward path over a file, for every chunk size and every content. -/
theorem reverseFile_content (size : ℕ+) (numberLines : Bool) (num : CInt) (content : List Char) :
    (reverseFile size numberLines num content).2.map Printed.entry =
      label numberLines (-1) (num + totalNonEmpty (getlines content) - 1)
        ((upwards (content.splitOn '\n')).map fun piece => cString (piece ++ ['\n'])) := by
  unfold reverseFile
  rw [backward_entries, scanFile_eq]
  simp [shown, Function.comp_def]

/-! ### The arguments -/

theorem parseArgs_operands (numberLines reverseLines : Bool) {filenames ops : List (List Char)}
    (hlen : filenames.length + ops.length ≤ maxOperands) (hops : ∀ op ∈ ops, isFlag op = false) :
    parseArgs numberLines reverseLines filenames ops =
      .ok (numberLines, reverseLines, filenames ++ ops) := by
  induction ops generalizing filenames with
  | nil => simp [parseArgs]
  | cons op ops ih =>
      obtain ⟨hop, hops⟩ := List.forall_mem_cons.mp hops
      rw [List.length_cons] at hlen
      have hroom : filenames.length < maxOperands := by omega
      unfold parseArgs
      rw [hop, if_neg Bool.false_ne_true, if_pos hroom, ih (by simp; omega) hops]
      simp

theorem peek_flags (size : ℕ+) (files : Files) (stdin : List Char) (before : ℕ → Char)
    (numberLines reverseLines : Bool) {ops : List (List Char)} (hlen : ops.length ≤ maxOperands)
    (hops : ∀ op ∈ ops, isFlag op = false) :
    (peek size files stdin before (flagArgs numberLines reverseLines ++ ops)).map Output.stdout =
      ((if ops = [] then [['-']] else ops).foldlM
        (peekFile size files before numberLines reverseLines) ⟨1, stdin, [], []⟩).map
          State.stdout := by
  have hargs : parseArgs false false [] (flagArgs numberLines reverseLines ++ ops) =
      .ok (numberLines, reverseLines, ops) := by
    have hstart : ([] : List (List Char)).length + ops.length ≤ maxOperands := by simpa using hlen
    have h := parseArgs_operands numberLines reverseLines hstart hops
    cases numberLines <;> cases reverseLines <;> exact h
  unfold peek
  rw [hargs, Option.map_map]
  rfl

end ShellXv6.Shell.Peek
