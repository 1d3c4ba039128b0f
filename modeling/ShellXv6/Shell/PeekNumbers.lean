import Mathlib.Tactic.Ring
import ShellXv6.Shell.PeekOutput

/-!
# The numbers of `peek -n`

Three loops count lines: forwards, down an array, and down a file after a counting
pass. All three hand the same number to the same line, since they agree on the lines
that are not blank, and each operand leaves the counter behind its last number.
-/

namespace ShellXv6.Shell.Peek

open Lines

/-- The content that each operand reads; only the first `-` finds something on the
standard input. -/
def contents (files : Files) : List Char → List (List Char) → List (List Char)
  | _, [] => []
  | stdin, name :: rest =>
      if name = ['-'] then stdin :: contents files [] rest
      else
        match files name with
        | .file content => content :: contents files stdin rest
        | _ => [] :: contents files stdin rest

def operands (ops : List (List Char)) : List (List Char) := if ops = [] then [['-']] else ops

/-- The lines of a content that are not blank, each with its newline. -/
def nonBlank (content : List Char) : List (List Char) :=
  ((getlines content).map (complete '\n')).filter isNotEmpty

/-- The numbered lines of an output. -/
def numbered (stdout : List Printed) : List (ℤ × List Char) :=
  stdout.filterMap fun p => p.number.map fun n => (n.toInt, p.line)

/-- Blocks of lines with running numbers from `k` on. -/
def numbering : ℕ → List (List (List Char)) → List (List (ℤ × List Char))
  | _, [] => []
  | k, block :: rest =>
      (block.zipIdx k).map (fun x => ((x.2 : ℤ), x.1)) :: numbering (k + block.length) rest

def blocks (files : Files) (stdin : List Char) (ops : List (List Char)) :
    List (List (List Char)) :=
  (contents files stdin (operands ops)).map nonBlank

/-- Every line that is not blank has the same number with and without `-r`, and the
numbers run through the operands from 1 on. -/
def NumbersAgree (size : ℕ+) (files : Files) (stdin : List Char) (before : ℕ → Char)
    (ops : List (List Char)) : Prop :=
  (peek size files stdin before (flagArgs true false ++ ops)).map (numbered ·.stdout) =
      some (numbering 1 (blocks files stdin ops)).flatten ∧
    (peek size files stdin before (flagArgs true true ++ ops)).map (numbered ·.stdout) =
      some ((numbering 1 (blocks files stdin ops)).map List.reverse).flatten ∧
    (numbering 1 (blocks files stdin ops)).flatten.map Prod.fst =
      (List.range' 1 (blocks files stdin ops).flatten.length).map fun k : ℕ => (k : ℤ)

/-! ### Counting with `int` -/

/-- Texts with running numbers of type `int`. -/
def count (δ : CInt) : CInt → List (List Char) → List (CInt × List Char)
  | _, [] => []
  | num, text :: rest => (num, text) :: count δ (num + δ) rest

def numberedLines (entries : List (Option CInt × List Char)) : List (CInt × List Char) :=
  entries.filterMap fun e => e.1.map fun n => (n, e.2)

theorem numbered_eq (stdout : List Printed) :
    numbered stdout =
      (numberedLines (stdout.map Printed.entry)).map fun x => (x.1.toInt, x.2) := by
  unfold numbered numberedLines
  rw [List.filterMap_map, List.map_filterMap]
  congr 1
  funext p
  simp [Printed.entry, Function.comp_def]

theorem numberedLines_label (δ num : CInt) (texts : List (List Char)) :
    numberedLines (label true δ num texts) = count δ num (texts.filter isNotEmpty) := by
  induction texts generalizing num with
  | nil => rfl
  | cons text rest ih =>
      unfold numberedLines at ih ⊢
      by_cases h : isNotEmpty text = true
      · simp [label, h, count, ih]
      · simp [label, h, ih]

theorem count_append (δ num : CInt) (l₁ l₂ : List (List Char)) :
    count δ num (l₁ ++ l₂) = count δ num l₁ ++ count δ (num + l₁.length * δ) l₂ := by
  induction l₁ generalizing num with
  | nil => simp [count]
  | cons text rest ih =>
      simp only [List.cons_append, count, ih, List.length_cons, Nat.cast_add, Nat.cast_one]
      congr 3
      ring

/-- Counting down over the reversed lines gives the numbers of counting up. -/
theorem count_reverse (num : CInt) (l : List (List Char)) :
    count (-1) (num + l.length - 1) l.reverse = (count 1 num l).reverse := by
  induction l generalizing num with
  | nil => rfl
  | cons text rest ih =>
      have hnum : num + ((text :: rest).length : CInt) - 1 = num + 1 + rest.length - 1 := by
        rw [List.length_cons, Nat.cast_add, Nat.cast_one]
        ring
      have hlast : num + 1 + (rest.length : CInt) - 1 + rest.reverse.length * -1 = num := by
        rw [List.length_reverse]
        ring
      rw [List.reverse_cons, count_append, hnum, ih, hlast]
      simp [count]

/-! ### One operand -/

theorem totalNonEmpty_eq (content : List Char) :
    totalNonEmpty (getlines content) = (nonBlank content).length := by
  unfold totalNonEmpty nonBlank
  rw [← List.countP_eq_length_filter, List.countP_map]
  congr 1
  exact List.countP_congr fun line _ => by simp [isNotEmpty_complete]

theorem nonBlank_eq (content : List Char) :
    nonBlank content =
      ((rows (content.splitOn '\n')).filter isNotEmpty).map (· ++ ['\n']) := by
  unfold nonBlank
  rw [getlines, map_complete_lines, List.filter_map]
  congr 1
  apply List.filter_congr
  intro piece _
  exact isNotEmpty_append_newline piece

theorem numberedLines_forward {content : List Char} (hnul : '\x00' ∉ content)
    (before : ℕ → Char) (num : CInt) :
    numberedLines ((forward true before num (getlines content)).2.map Printed.entry) =
      count 1 num (nonBlank content) := by
  rw [forward_content hnul, numberedLines_label, ← map_complete_lines]
  rfl

theorem numberedLines_reverseStdin {content : List Char} (hnul : '\x00' ∉ content)
    (hroom : (getlines content).length ≤ 2 ^ 30) (before : ℕ → Char) (num : CInt) :
    ∃ printed, reverseStdin true before num content =
        some (num + (nonBlank content).length, printed) ∧
      numberedLines (printed.map Printed.entry) = (count 1 num (nonBlank content)).reverse := by
  obtain ⟨printed, hprinted, hentries⟩ := reverseStdin_content hnul hroom true before num
  rw [totalNonEmpty_eq] at hprinted
  refine ⟨printed, hprinted, ?_⟩
  rw [hentries, numberedLines_label, List.filter_reverse, ← map_complete_lines, totalNonEmpty_eq]
  exact count_reverse num (nonBlank content)

theorem numberedLines_reverseFile {content : List Char} (hnul : '\x00' ∉ content) (size : ℕ+)
    (num : CInt) :
    numberedLines ((reverseFile size true num content).2.map Printed.entry) =
      (count 1 num (nonBlank content)).reverse := by
  have hlines : ((upwards (content.splitOn '\n')).map
      fun piece => cString (piece ++ ['\n'])).filter isNotEmpty = (nonBlank content).reverse := by
    have hblank : isNotEmpty ∘ (· ++ ['\n']) = isNotEmpty := by
      funext piece
      exact isNotEmpty_append_newline piece
    rw [map_cString_upwards hnul, List.filter_map, hblank, filter_upwards_eq isNotEmpty_nil,
      nonBlank_eq, List.map_reverse]
  rw [reverseFile_content, numberedLines_label, hlines, totalNonEmpty_eq]
  exact count_reverse num (nonBlank content)

/-! ### All operands -/

/-- The blocks of `numbering`, with numbers of type `int`. -/
def blockCount : CInt → List (List (List Char)) → List (List (CInt × List Char))
  | _, [] => []
  | num, block :: rest => count 1 num block :: blockCount (num + block.length) rest

def turned (reverseLines : Bool) (block : List (CInt × List Char)) : List (CInt × List Char) :=
  if reverseLines then block.reverse else block

section Operands

variable (size : ℕ+) {files : Files} (before : ℕ → Char) {reverseLines : Bool}

theorem numberedLines_append (e₁ e₂ : List (Option CInt × List Char)) :
    numberedLines (e₁ ++ e₂) = numberedLines e₁ ++ numberedLines e₂ := List.filterMap_append

/-- What printing one content adds. -/
structure Adds (reverseLines : Bool) (s t : State) (content : List Char) : Prop where
  number : t.globalLineNum = s.globalLineNum + (nonBlank content).length
  lines : numberedLines (t.stdout.map Printed.entry) =
    numberedLines (s.stdout.map Printed.entry) ++
      turned reverseLines (count 1 s.globalLineNum (nonBlank content))

theorem adds_print {content : List Char} {s : State} {r : CInt × List Printed}
    (hnum : r.1 = s.globalLineNum + (nonBlank content).length)
    (hlines : numberedLines (r.2.map Printed.entry) =
      turned reverseLines (count 1 s.globalLineNum (nonBlank content))) :
    Adds reverseLines s (s.print r) content := by
  refine ⟨hnum, ?_⟩
  rw [← hlines, ← numberedLines_append, ← List.map_append]
  rfl

theorem adds_stdin (files : Files) (reverseLines : Bool) {s : State} (hnul : '\x00' ∉ s.stdin)
    (hroom : reverseLines = true → (getlines s.stdin).length ≤ 2 ^ 30) :
    ∃ t, peekFile size files before true reverseLines s ['-'] = some t ∧
      Adds reverseLines s t s.stdin ∧ t.stdin = [] := by
  have hprint : ∀ r : CInt × List Printed, Adds reverseLines s (s.print r) s.stdin →
      Adds reverseLines s { s.print r with stdin := [] } s.stdin :=
    fun _ hadds => ⟨hadds.number, hadds.lines⟩
  cases reverseLines with
  | false =>
      refine ⟨_, rfl, hprint _ (adds_print ?_ ?_), rfl⟩
      · exact (forward_number _ _ _).trans (by rw [totalNonEmpty_eq])
      · exact numberedLines_forward hnul _ _
  | true =>
      obtain ⟨printed, hprinted, hlines⟩ :=
        numberedLines_reverseStdin hnul (hroom rfl) before s.globalLineNum
      refine ⟨_, ?_, hprint (_, printed) (adds_print rfl hlines), rfl⟩
      rw [peekFile, if_pos rfl, if_pos rfl, hprinted]
      rfl

/-- An operand that cannot be read adds a message only. -/
theorem complains (reverseLines : Bool) {name : List Char} (hname : name ≠ ['-'])
    (hentry : ¬∃ content, files name = .file content) (s : State) (rest : List (List Char)) :
    ∃ msg, peekFile size files before true reverseLines s name = some (s.complain msg) ∧
      contents files s.stdin (name :: rest) = [] :: contents files s.stdin rest := by
  rw [peekFile, if_neg hname, contents, if_neg hname]
  cases hfile : files name with
  | file content => exact absurd ⟨content, hfile⟩ hentry
  | missing => exact ⟨_, rfl, rfl⟩
  | directory => exact ⟨_, rfl, rfl⟩
  | unreadable reason => exact ⟨_, rfl, rfl⟩

theorem adds_file (reverseLines : Bool) {s : State} {name content : List Char}
    (hname : name ≠ ['-']) (hfile : files name = .file content) (hnul : '\x00' ∉ content) :
    ∃ t, peekFile size files before true reverseLines s name = some t ∧
      Adds reverseLines s t content ∧ t.stdin = s.stdin := by
  unfold peekFile
  rw [if_neg hname, hfile]
  refine ⟨_, rfl, ?_, rfl⟩
  cases reverseLines with
  | false =>
      apply adds_print
      · exact (forward_number _ _ _).trans (by rw [totalNonEmpty_eq])
      · exact numberedLines_forward hnul _ _
  | true =>
      apply adds_print
      · exact congrArg (s.globalLineNum + ·) (totalNonEmpty_eq content)
      · exact numberedLines_reverseFile hnul _ _

/-- One operand adds its block, and leaves the standard input as it was or at its end. -/
theorem adds_operand {name : List Char} {rest : List (List Char)} {s : State}
    (hnul : ∀ content ∈ contents files s.stdin (name :: rest), '\x00' ∉ content)
    (hroom : reverseLines = true → name = ['-'] → (getlines s.stdin).length ≤ 2 ^ 30) :
    ∃ t content, peekFile size files before true reverseLines s name = some t ∧
      Adds reverseLines s t content ∧
      contents files s.stdin (name :: rest) = content :: contents files t.stdin rest ∧
      (t.stdin = s.stdin ∨ t.stdin = []) := by
  by_cases hname : name = ['-']
  · subst hname
    have hcontents : contents files s.stdin (['-'] :: rest) =
        s.stdin :: contents files [] rest := by simp [contents]
    have hstdin : '\x00' ∉ s.stdin := hnul _ (by rw [hcontents]; exact List.mem_cons_self)
    obtain ⟨t, ht, hadds, hempty⟩ := adds_stdin size before files reverseLines hstdin
      fun hrev => hroom hrev rfl
    exact ⟨t, s.stdin, ht, hadds, by rw [hcontents, hempty], .inr hempty⟩
  · by_cases hentry : ∃ content, files name = .file content
    · obtain ⟨content, hentry⟩ := hentry
      have hcontents : contents files s.stdin (name :: rest) =
          content :: contents files s.stdin rest := by simp [contents, hname, hentry]
      have hfree : '\x00' ∉ content := hnul _ (by rw [hcontents]; exact List.mem_cons_self)
      obtain ⟨t, ht, hadds, hsame⟩ := adds_file size before reverseLines hname hentry hfree
      exact ⟨t, content, ht, hadds, by rw [hcontents, hsame], .inl hsame⟩
    · obtain ⟨msg, hmsg, hcontents⟩ := complains size before reverseLines hname hentry s rest
      have hadds : Adds reverseLines s (s.complain msg) [] := ⟨(add_zero _).symm, by
        cases reverseLines <;> exact (List.append_nil _).symm⟩
      exact ⟨s.complain msg, [], hmsg, hadds, hcontents, .inl rfl⟩

theorem numberedLines_foldlM {ops : List (List Char)} {s : State}
    (hnul : ∀ content ∈ contents files s.stdin ops, '\x00' ∉ content)
    (hroom : reverseLines = true → ['-'] ∈ ops → (getlines s.stdin).length ≤ 2 ^ 30) :
    ∃ t, ops.foldlM (peekFile size files before true reverseLines) s = some t ∧
      numberedLines (t.stdout.map Printed.entry) =
        numberedLines (s.stdout.map Printed.entry) ++
          ((blockCount s.globalLineNum ((contents files s.stdin ops).map nonBlank)).map
            (turned reverseLines)).flatten := by
  induction ops generalizing s with
  | nil => exact ⟨s, rfl, by simp [contents, blockCount]⟩
  | cons name rest ih =>
      obtain ⟨t, content, ht, hadds, hcontents, hstdin⟩ := adds_operand size before hnul
        fun hrev hname => hroom hrev (hname ▸ List.mem_cons_self)
      rw [hcontents] at hnul ⊢
      have hroom' : reverseLines = true → ['-'] ∈ rest → (getlines t.stdin).length ≤ 2 ^ 30 := by
        intro hrev hmem
        rcases hstdin with hstdin | hstdin
        · rw [hstdin]
          exact hroom hrev (List.mem_cons_of_mem _ hmem)
        · rw [hstdin]
          decide
      -- the counter goes on behind the block of this operand
      obtain ⟨u, hu, hlines⟩ := ih (fun c hc => hnul c (List.mem_cons_of_mem _ hc)) hroom'
      refine ⟨u, ?_, ?_⟩
      · rw [List.foldlM_cons, ht]
        exact hu
      · rw [hlines, hadds.lines, hadds.number]
        simp [blockCount]

end Operands

/-! ### The numbers as they are printed -/

theorem toInt_count {k : ℕ} {block : List (List Char)} (h : k + block.length ≤ 2 ^ 31) :
    (count 1 (k : CInt) block).map (fun x => (x.1.toInt, x.2)) =
      (block.zipIdx k).map fun x => ((x.2 : ℤ), x.1) := by
  induction block generalizing k with
  | nil => rfl
  | cons text rest ih =>
      rw [List.length_cons] at h
      have hnext : (k : CInt) + 1 = ((k + 1 : ℕ) : CInt) := by push_cast; rfl
      rw [count, List.map_cons, hnext, ih (by omega), toInt_natCast (by omega)]
      rfl

theorem toInt_blockCount {k : ℕ} {bs : List (List (List Char))}
    (h : k + bs.flatten.length ≤ 2 ^ 31) :
    (blockCount (k : CInt) bs).map (List.map fun x => (x.1.toInt, x.2)) = numbering k bs := by
  induction bs generalizing k with
  | nil => rfl
  | cons block rest ih =>
      rw [List.flatten_cons, List.length_append] at h
      have hnext : (k : CInt) + block.length = ((k + block.length : ℕ) : CInt) := by push_cast; rfl
      rw [blockCount, List.map_cons, hnext, ih (by omega), toInt_count (by omega)]
      rfl

theorem numbering_fst (k : ℕ) (bs : List (List (List Char))) :
    (numbering k bs).flatten.map Prod.fst =
      (List.range' k bs.flatten.length).map fun i : ℕ => (i : ℤ) := by
  induction bs generalizing k with
  | nil => rfl
  | cons block rest ih =>
      rw [numbering, List.flatten_cons, List.map_append, ih, List.flatten_cons,
        List.length_append, List.range'_append_1.symm, List.map_append,
        ← List.zipIdx_map_snd k block, List.map_map, List.map_map]
      rfl

section Numbers

variable {files : Files} {stdin : List Char} {ops : List (List Char)}

theorem numbered_peek (size : ℕ+) (before : ℕ → Char) (reverseLines : Bool)
    (hlen : ops.length ≤ maxOperands) (hops : ∀ op ∈ ops, isFlag op = false)
    (hnul : ∀ content ∈ contents files stdin (operands ops), '\x00' ∉ content)
    (hroom : reverseLines = true → ['-'] ∈ operands ops → (getlines stdin).length ≤ 2 ^ 30) :
    (peek size files stdin before (flagArgs true reverseLines ++ ops)).map (numbered ·.stdout) =
      some (((blockCount 1 (blocks files stdin ops)).map (turned reverseLines)).flatten.map
        fun x => (x.1.toInt, x.2)) := by
  have hstart : ∀ content ∈ contents files (⟨1, stdin, [], []⟩ : State).stdin (operands ops),
      '\x00' ∉ content := hnul
  obtain ⟨t, ht, hlines⟩ := numberedLines_foldlM size before hstart hroom
  have hstdout := peek_flags size files stdin before true reverseLines hlen hops
  have hfold : (if ops = [] then [['-']] else ops).foldlM
      (peekFile size files before true reverseLines) ⟨1, stdin, [], []⟩ = some t := ht
  rw [hfold] at hstdout
  obtain ⟨o, ho, hprinted⟩ := Option.map_eq_some_iff.mp hstdout
  rw [ho, Option.map_some, hprinted, numbered_eq, hlines]
  rfl

/-- The numbers of `peek -n` and of `peek -n -r`, for as many operands as `peek` takes,
as many lines as an `int` counts, and as many lines on the standard input as the array of
`peek -r` can hold. -/
theorem numbers_agree (size : ℕ+) (before : ℕ → Char) (hlen : ops.length ≤ maxOperands)
    (hops : ∀ op ∈ ops, isFlag op = false)
    (hnul : ∀ content ∈ contents files stdin (operands ops), '\x00' ∉ content)
    (hsmall : (blocks files stdin ops).flatten.length < 2 ^ 31)
    (hstdin : ['-'] ∈ operands ops → (getlines stdin).length ≤ 2 ^ 30) :
    NumbersAgree size files stdin before ops := by
  have hroom : 1 + (blocks files stdin ops).flatten.length ≤ 2 ^ 31 := by omega
  have hnumbers := toInt_blockCount hroom
  rw [Nat.cast_one] at hnumbers
  refine ⟨?_, ?_, numbering_fst _ _⟩
  · rw [numbered_peek size before false hlen hops hnul (by simp), List.map_flatten, ← hnumbers,
      List.map_map]
    rfl
  · rw [numbered_peek size before true hlen hops hnul fun _ => hstdin, List.map_flatten,
      ← hnumbers, List.map_map, List.map_map]
    congr 3
    funext block
    exact List.map_reverse

end Numbers

theorem numbers_agree_two_operands :
    NumbersAgree 4096 (Files.of ['a', '\n', '\n', 'b']) ['c'] (fun _ => ' ') [['f'], ['-']] :=
  numbers_agree 4096 (fun _ => ' ') (by decide) (by decide) (by decide) (by decide) (by decide)

/-! ### Beyond the bounds -/

theorem parseArgs_too_many {numberLines reverseLines : Bool} {filenames ops : List (List Char)}
    (hroom : filenames.length ≤ maxOperands) (hlen : maxOperands < filenames.length + ops.length)
    (hops : ∀ op ∈ ops, isFlag op = false) :
    parseArgs numberLines reverseLines filenames ops = .error "peek: too many arguments\n" := by
  induction ops generalizing filenames with
  | nil => exact absurd hlen (by simpa using hroom)
  | cons op ops ih =>
      obtain ⟨hop, hops⟩ := List.forall_mem_cons.mp hops
      rw [List.length_cons] at hlen
      unfold parseArgs
      rw [hop, if_neg Bool.false_ne_true]
      split_ifs with hfull
      · apply ih
        · rw [List.length_append]
          exact hfull
        · simp only [List.length_append, List.length_singleton]
          omega
        · exact hops
      · rfl

theorem stdout_too_many (size : ℕ+) (files : Files) (stdin : List Char) (before : ℕ → Char)
    {ops : List (List Char)} (hlen : maxOperands < ops.length)
    (hops : ∀ op ∈ ops, isFlag op = false) :
    (peek size files stdin before (flagArgs true false ++ ops)).map Output.stdout = some [] := by
  have hargs : parseArgs false false [] (flagArgs true false ++ ops) =
      .error "peek: too many arguments\n" := by
    change parseArgs true false [] ops = _
    exact parseArgs_too_many (Nat.zero_le _) (by simpa using hlen) hops
  unfold peek
  rw [hargs]
  rfl

theorem nonneg_of_mem_numbering {k : ℕ} {bs : List (List (List Char))} {x : ℤ × List Char}
    (h : x ∈ (numbering k bs).flatten) : 0 ≤ x.1 := by
  have hmem : x.1 ∈ (numbering k bs).flatten.map Prod.fst := List.mem_map_of_mem h
  rw [numbering_fst] at hmem
  obtain ⟨i, _, hi⟩ := List.mem_map.mp hmem
  rw [← hi]
  exact Int.natCast_nonneg i

/-- A content of `n` lines `a`. -/
def manyLines (n : ℕ) : List Char := (List.replicate n ['a', '\n']).flatten

theorem getlines_manyLines (n : ℕ) : getlines (manyLines n) = List.replicate n ['a', '\n'] := by
  have hfirst : '\n' ∉ ['a'] := by decide
  induction n with
  | zero => rfl
  | succ n ih =>
      rw [List.replicate_succ, ← ih, manyLines, List.replicate_succ, List.flatten_cons]
      exact lines_append_of_not_mem hfirst _

theorem nonBlank_manyLines (n : ℕ) : nonBlank (manyLines n) = List.replicate n ['a', '\n'] := by
  unfold nonBlank
  rw [getlines_manyLines, List.map_replicate, List.filter_replicate_of_pos (by decide)]
  rfl

theorem not_numbersAgree_manyLines {n : ℕ} (hn : 2 ^ 31 ≤ n) :
    ¬NumbersAgree 4096 (Files.of (manyLines n)) [] (fun _ => ' ') [['f']] := by
  rintro ⟨hforward, -, -⟩
  have hnul : '\x00' ∉ manyLines n := by
    intro h
    obtain ⟨line, hline, hmem⟩ := List.mem_flatten.mp h
    rw [List.eq_of_mem_replicate hline] at hmem
    exact absurd hmem (by decide)
  have hblocks : blocks (Files.of (manyLines n)) [] [['f']] = [nonBlank (manyLines n)] := rfl
  have hcontents : ∀ content ∈ contents (Files.of (manyLines n)) [] (operands [['f']]),
      '\x00' ∉ content := by
    intro content hcontent
    rw [List.mem_singleton.mp hcontent]
    exact hnul
  rw [numbered_peek 4096 (fun _ => ' ') false (by decide) (by decide) hcontents (by simp),
    hblocks, Option.some.injEq] at hforward
  -- Line number 2 ^ 31 is printed as a negative number.
  obtain ⟨m, rfl⟩ := Nat.exists_eq_add_of_le hn
  have hsplit : nonBlank (manyLines (2 ^ 31 + m)) =
      List.replicate (2 ^ 31 - 1) ['a', '\n'] ++
        ['a', '\n'] :: List.replicate m ['a', '\n'] := by
    rw [nonBlank_manyLines, ← List.replicate_succ, List.replicate_append_replicate]
    congr 1
    omega
  have hmem : ((-2 ^ 31 : ℤ), ['a', '\n']) ∈
      ((blockCount 1 [nonBlank (manyLines (2 ^ 31 + m))]).map (turned false)).flatten.map
        fun x => (x.1.toInt, x.2) := by
    apply List.mem_map.mpr
    refine ⟨(BitVec.ofNat 32 (2 ^ 31), ['a', '\n']), ?_, by decide⟩
    have hnum : (1 : CInt) + ((List.replicate (2 ^ 31 - 1) ['a', '\n']).length : CInt) * 1 =
        BitVec.ofNat 32 (2 ^ 31) := by
      rw [List.length_replicate]
      decide
    rw [hsplit]
    simp only [blockCount, List.map_cons, List.map_nil, List.flatten_singleton, turned,
      count_append, hnum, count]
    exact List.mem_append_right _ List.mem_cons_self
  rw [hforward] at hmem
  exact absurd (nonneg_of_mem_numbering hmem) (by decide)

/-- `peek -n -r` crashes on a standard input of more than `2 ^ 30` lines. -/
theorem not_numbersAgree_stdin {n : ℕ} (hn : 2 ^ 30 < n) (files : Files) :
    ¬NumbersAgree 4096 files (manyLines n) (fun _ => ' ') [['-']] := by
  rintro ⟨-, hreverse, -⟩
  have hmany : 2 ^ 30 < (getlines (manyLines n)).length := by
    rw [getlines_manyLines, List.length_replicate]
    exact hn
  rw [peek_reverse_stdin_none (.inr rfl) hmany] at hreverse
  cases hreverse

/-- One operand too many, more lines than an `int` counts, or more lines on the standard
input than the array can hold. -/
theorem numbers_disagree_beyond_bounds :
    ¬NumbersAgree 4096 (Files.of ['a']) [] (fun _ => ' ') (List.replicate 1025 ['f']) ∧
      ¬NumbersAgree 4096 (Files.of (manyLines (2 ^ 31))) [] (fun _ => ' ') [['f']] ∧
      ¬NumbersAgree 4096 (Files.of []) (manyLines (2 ^ 30 + 1)) (fun _ => ' ') [['-']] := by
  refine ⟨?_, not_numbersAgree_manyLines le_rfl, not_numbersAgree_stdin (Nat.lt_succ_self _) _⟩
  rintro ⟨hforward, -, -⟩
  have hnone := stdout_too_many 4096 (Files.of ['a']) [] (fun _ => ' ')
    (by rw [List.length_replicate]; decide : maxOperands < (List.replicate 1025 ['f']).length)
    (fun op hop => by rw [List.eq_of_mem_replicate hop]; rfl)
  obtain ⟨o, ho, hempty⟩ := Option.map_eq_some_iff.mp hnone
  rw [ho, Option.map_some, hempty, Option.some.injEq] at hforward
  cases hforward

end ShellXv6.Shell.Peek
