import ShellXv6.Shell.Peek

/-!
# The bytes that `peek` writes

For one operand the output is the text of `label` over the lines of the content:
the whole content without `-r`, the pieces between its newlines from the last to the
first with it. The path over a file and the path over the standard input take
different pieces for lines, and a NUL byte cuts what is printed of a line.
-/

namespace ShellXv6.Shell.Peek

open Lines

/-- A name that `peek` takes for a file. -/
def IsFileName (name : List Char) : Prop := isFlag name = false ∧ name ≠ ['-']

instance (name : List Char) : Decidable (IsFileName name) :=
  inferInstanceAs (Decidable (_ ∧ _))

def render (entries : List (Option CInt × List Char)) : List Char :=
  entries.flatMap fun e => numberText e.1 ++ e.2

/-- The lines of a content from the last to the first, whole, with the numbers counted
down to 1. -/
def upwardText (numberLines : Bool) (content : List Char) : List Char :=
  let segments := upwards (content.splitOn '\n')
  render (label numberLines (-1) (BitVec.ofNat 32 (segments.countP isNotEmpty))
    (segments.map (· ++ ['\n'])))

/-- Files that all have the same content. -/
def Files.of (content : List Char) : Files := fun _ => .file content

theorem Files.of_apply (content name : List Char) : Files.of content name = .file content := rfl

/-! ### One operand -/

section Operand

variable {size : ℕ+} {files : Files} {stdin : List Char} {before : ℕ → Char}
  {numberLines reverseLines : Bool}

theorem stdout_file {f content : List Char} (hf : IsFileName f) (hfile : files f = .file content) :
    (peek size files stdin before (flagArgs numberLines reverseLines ++ [f])).map Output.stdout =
      some (if reverseLines then (reverseFile size numberLines 1 content).2
        else (forward numberLines before 1 (getlines content)).2) := by
  rw [peek_flags size files stdin before numberLines reverseLines (by simp [maxOperands])
    (by simpa using hf.1), if_neg (List.cons_ne_nil _ _)]
  simp only [List.foldlM_cons, List.foldlM_nil, peekFile, if_neg hf.2, hfile, State.print,
    List.nil_append]
  split_ifs
  · rfl
  · rfl

theorem stdout_reverse_stdin {ops : List (List Char)} (hops : ops = [] ∨ ops = [['-']]) :
    (peek size files stdin before (flagArgs numberLines true ++ ops)).map Output.stdout =
      (reverseStdin numberLines before 1 stdin).map Prod.snd := by
  have hnames : (if ops = [] then [['-']] else ops) = [['-']] := by
    rcases hops with rfl | rfl <;> rfl
  have hlen : ops.length ≤ maxOperands := by
    rcases hops with rfl | rfl <;> decide
  have hflag : ∀ op ∈ ops, isFlag op = false := by
    rcases hops with rfl | rfl <;> decide
  rw [peek_flags size files stdin before numberLines true hlen hflag, hnames]
  simp only [List.foldlM_cons, List.foldlM_nil, peekFile, State.print, List.nil_append, if_true]
  cases reverseStdin numberLines before 1 stdin with
  | none => rfl
  | some r => rfl

/-- What an output writes, from what it prints. -/
theorem map_bytes {o : Option Output} {stdout : List Printed}
    (h : o.map Output.stdout = some stdout) :
    o.map Output.bytes = some (render (stdout.map Printed.entry)) := by
  obtain ⟨out, rfl, rfl⟩ := Option.map_eq_some_iff.mp h
  exact congrArg some out.bytes_eq

theorem isNotEmpty_complete (line : List Char) :
    isNotEmpty (complete '\n' line) = isNotEmpty line := by
  unfold complete
  split_ifs
  · rfl
  · exact isNotEmpty_append_newline line

/-- The counting pass and the backward scan see the same lines that are not blank. -/
theorem countP_getlines (content : List Char) :
    (getlines content).countP isNotEmpty =
      (upwards (content.splitOn '\n')).countP isNotEmpty := by
  have hmap : ∀ ls : List (List Char),
      (ls.map (complete '\n')).countP isNotEmpty = ls.countP isNotEmpty := by
    intro ls
    rw [List.countP_map]
    exact List.countP_congr fun line _ => by simp [isNotEmpty_complete]
  have hrows : ∀ ls : List (List Char),
      (ls.map (· ++ ['\n'])).countP isNotEmpty = ls.countP isNotEmpty := by
    intro ls
    rw [List.countP_map]
    exact List.countP_congr fun line _ => by simp [isNotEmpty_append_newline]
  calc (getlines content).countP isNotEmpty
      = (rows (content.splitOn '\n')).countP isNotEmpty := by
        rw [← hmap, getlines, map_complete_lines, hrows]
    _ = (upwards (content.splitOn '\n')).countP isNotEmpty := by
        rw [List.countP_eq_length_filter, List.countP_eq_length_filter,
          filter_upwards_eq isNotEmpty_nil, List.length_reverse]

theorem start_number (content : List Char) :
    1 + totalNonEmpty (getlines content) - 1 = totalNonEmpty (getlines content) :=
  add_sub_cancel_left _ _

theorem bytes_reverse_file {f content : List Char} (hf : IsFileName f)
    (hfile : files f = .file content) :
    (peek size files stdin before (flagArgs numberLines true ++ [f])).map Output.bytes =
      some (render (label numberLines (-1) (totalNonEmpty (getlines content))
        ((upwards (content.splitOn '\n')).map fun piece => cString (piece ++ ['\n'])))) := by
  rw [map_bytes (stdout_file hf hfile), if_pos rfl, reverseFile_content, start_number]

theorem bytes_reverse_stdin {ops : List (List Char)} (hops : ops = [] ∨ ops = [['-']])
    (hnul : '\x00' ∉ stdin) (hroom : (getlines stdin).length ≤ 2 ^ 30) :
    (peek size files stdin before (flagArgs numberLines true ++ ops)).map Output.bytes =
      some (render (label numberLines (-1) (totalNonEmpty (getlines stdin))
        ((rows (stdin.splitOn '\n')).reverse.map (· ++ ['\n'])))) := by
  obtain ⟨printed, hprinted, hentries⟩ := reverseStdin_content hnul hroom numberLines before 1
  have hstdout : (peek size files stdin before (flagArgs numberLines true ++ ops)).map
      Output.stdout = some printed := by
    rw [stdout_reverse_stdin hops, hprinted]
    rfl
  rw [map_bytes hstdout, hentries, start_number, List.map_reverse]

theorem peek_reverse_stdin_none {ops : List (List Char)} (hops : ops = [] ∨ ops = [['-']])
    (hmany : 2 ^ 30 < (getlines stdin).length) :
    peek size files stdin before (flagArgs numberLines true ++ ops) = none := by
  rw [← Option.map_eq_none_iff, stdout_reverse_stdin hops, reverseStdin_none hmany]
  rfl

end Operand

/-! ### Texts with numbers -/

section Label

variable {numberLines : Bool} {δ num : CInt} {texts : List (List Char)}

@[simp] theorem render_nil : render [] = [] := rfl

@[simp] theorem render_cons (e : Option CInt × List Char) (es : List (Option CInt × List Char)) :
    render (e :: es) = numberText e.1 ++ e.2 ++ render es := rfl

theorem render_label_cons_blank {text : List Char} (h : isNotEmpty text = false) :
    render (label numberLines δ num (text :: texts)) =
      text ++ render (label numberLines δ num texts) := by
  simp [label, h, numberText]

theorem render_label_concat_blank {text : List Char} (h : isNotEmpty text = false) :
    render (label numberLines δ num (texts ++ [text])) =
      render (label numberLines δ num texts) ++ text := by
  induction texts generalizing num with
  | nil => simp [label, h, numberText]
  | cons first rest ih =>
      simp only [List.cons_append, label]
      split_ifs
      · simp [ih]
      · simp [ih]

theorem mem_render_label {text : List Char} (h : text ∈ texts) {c : Char} (hc : c ∈ text) :
    c ∈ render (label numberLines δ num texts) := by
  induction texts generalizing num with
  | nil => cases h
  | cons first rest ih =>
      simp only [label]
      rcases List.mem_cons.mp h with rfl | h
      · split_ifs <;> simp [hc]
      · split_ifs <;> simp [ih h]

theorem nul_not_mem_decimal (n : CInt) : '\x00' ∉ decimal n := by
  have hdigits : ∀ m, '\x00' ∉ Nat.toDigits 10 m := by
    intro m h
    exact absurd (Nat.isDigit_of_mem_toDigits (by decide) (by decide) h) (by decide)
  unfold decimal
  split
  · exact hdigits _
  · simpa using hdigits _

theorem nul_not_mem_numberText (number : Option CInt) : '\x00' ∉ numberText number := by
  cases number with
  | none => simp [numberText]
  | some n => simpa [numberText] using nul_not_mem_decimal n

theorem nul_not_mem_render (h : ∀ text ∈ texts, '\x00' ∉ text) :
    '\x00' ∉ render (label numberLines δ num texts) := by
  induction texts generalizing num with
  | nil => simp [label]
  | cons first rest ih =>
      obtain ⟨hfirst, hrest⟩ := List.forall_mem_cons.mp h
      simp only [label]
      split_ifs
      · simp [nul_not_mem_numberText, hfirst, ih hrest]
      · simp [nul_not_mem_numberText, hfirst, ih hrest]

end Label

/-! ### Without flags -/

theorem render_label_false (δ num : CInt) (texts : List (List Char)) :
    render (label false δ num texts) = texts.flatten := by
  induction texts with
  | nil => rfl
  | cons text rest ih => simp [label, numberText, ih]

theorem mem_forward {numberLines : Bool} {before : ℕ → Char} {num : CInt}
    {ls : List (List Char)} {p : Printed} (h : p ∈ (forward numberLines before num ls).2) :
    ∃ num' line newline, p = printLine numberLines num' line newline := by
  induction ls generalizing before num with
  | nil => cases h
  | cons line rest ih =>
      rcases List.mem_cons.mp h with rfl | h
      · exact ⟨_, _, _, rfl⟩
      · exact ih h

theorem nul_not_mem_printLine (numberLines : Bool) (num : CInt) (line : List Char)
    (newline : Bool) :
    '\x00' ∉ numberText (printLine numberLines num line newline).number ++
      (printLine numberLines num line newline).line := by
  have htext : '\x00' ∉ (printLine numberLines num line newline).line := by
    unfold printLine Printed.line
    cases newline <;> simpa using nul_not_mem_cString line
  intro h
  rcases List.mem_append.mp h with h | h
  · exact nul_not_mem_numberText _ h
  · exact htext h

/-- `peek f` writes the bytes of the file, closed by a newline, and reads no byte in
front of a line, exactly when the file has no NUL byte. -/
theorem plain_output_faithful_iff {size : ℕ+} {files : Files} {stdin : List Char}
    {before : ℕ → Char} {f content : List Char} (hf : IsFileName f)
    (hfile : files f = .file content) :
    ((peek size files stdin before [f]).map Output.bytes = some (closed '\n' content) ∧
      ∀ line ∈ getlines content, 0 ≤ (strlen line : ℤ) - 1) ↔ '\x00' ∉ content := by
  have hstdout : (peek size files stdin before [f]).map Output.stdout =
      some (forward false before 1 (getlines content)).2 := by
    change (peek size files stdin before (flagArgs false false ++ [f])).map Output.stdout = _
    rw [stdout_file hf hfile]
    rfl
  constructor
  · rintro ⟨hbytes, _⟩ hnul
    obtain ⟨o, ho, hprinted⟩ := Option.map_eq_some_iff.mp hstdout
    rw [ho, Option.map_some, Option.some.injEq] at hbytes
    have hmem : '\x00' ∈ o.bytes := by
      rw [hbytes]
      exact List.mem_append_left _ hnul
    unfold Output.bytes at hmem
    rw [hprinted] at hmem
    obtain ⟨p, hp, hmem⟩ := List.mem_flatMap.mp hmem
    obtain ⟨num, line, newline, rfl⟩ := mem_forward hp
    exact nul_not_mem_printLine false num line newline hmem
  · intro hnul
    refine ⟨?_, ?_⟩
    · rw [map_bytes hstdout, forward_content hnul, ← map_complete_lines,
        ← flatten_map_complete, render_label_false]
    · intro line hline
      have hlength := List.length_pos_of_ne_nil (ne_nil_of_mem_lines hline)
      unfold strlen
      rw [cString_eq_self (nul_not_mem_getlines hnul hline)]
      omega

theorem plain_output_faithful_two_lines :
    (peek 4096 (Files.of ['a', '\n', 'b']) [] (fun _ => ' ') [['f']]).map Output.bytes =
      some (closed '\n' ['a', '\n', 'b']) ∧
    ∀ line ∈ getlines ['a', '\n', 'b'], 0 ≤ (strlen line : ℤ) - 1 :=
  (plain_output_faithful_iff (by decide) (Files.of_apply ['a', '\n', 'b'] ['f'])).mpr (by decide)

/-- A NUL byte ends what is printed of its line, and at the start of a line it makes the
index negative. -/
theorem plain_output_cuts_at_nul :
    (peek 4096 (Files.of ['a', '\x00', 'b', '\n']) [] (fun _ => ' ') [['f']]).map Output.bytes ≠
      some (closed '\n' ['a', '\x00', 'b', '\n']) ∧
    ¬∀ line ∈ getlines ['\x00', '\n'], 0 ≤ (strlen line : ℤ) - 1 := by
  decide

/-! ### The chunks of the backward scan -/

/-- Every piece between newlines is printed when no piece is empty at the front. -/
theorem exists_upwards_mem {content : List Char} {c : Char} (hc : c ∈ content) (hne : c ≠ '\n') :
    ∃ piece ∈ upwards (content.splitOn '\n'), c ∈ piece := by
  obtain ⟨piece, hpiece, hmem⟩ := exists_mem_splitOn hc hne
  refine ⟨piece, ?_, hmem⟩
  cases hsplit : content.splitOn '\n' with
  | nil => exact absurd hsplit (List.splitOn_ne_nil _ _)
  | cons first rest =>
      rw [hsplit] at hpiece
      rcases List.mem_cons.mp hpiece with rfl | hpiece
      · simp [upwards, List.ne_nil_of_mem hmem]
      · simp [upwards, hpiece]

theorem map_cString_upwards {content : List Char} (hnul : '\x00' ∉ content) :
    (upwards (content.splitOn '\n')).map (fun piece => cString (piece ++ ['\n'])) =
      (upwards (content.splitOn '\n')).map (· ++ ['\n']) := by
  apply List.map_congr_left
  intro piece hpiece
  apply cString_eq_self
  have hpieces := mem_of_mem_splitOn (mem_upwards hpiece) '\x00'
  simpa using fun h => hnul (hpieces h)

theorem bytes_reverse_file_nul_free {size : ℕ+} {files : Files} {stdin : List Char}
    {before : ℕ → Char} {numberLines : Bool} {f content : List Char} (hf : IsFileName f)
    (hfile : files f = .file content) (hnul : '\x00' ∉ content) :
    (peek size files stdin before (flagArgs numberLines true ++ [f])).map Output.bytes =
      some (upwardText numberLines content) := by
  rw [bytes_reverse_file hf hfile, totalNonEmpty, countP_getlines, map_cString_upwards hnul]
  rfl

/-- The backward scan prints the pieces of the content, the same for every chunk size,
exactly when the content has no NUL byte. -/
theorem reverse_file_text_iff {files : Files} {f content : List Char} (hf : IsFileName f)
    (hfile : files f = .file content) (numberLines : Bool) (stdin : List Char)
    (before : ℕ → Char) :
    (∀ k m : ℕ+,
      (peek k files stdin before (flagArgs numberLines true ++ [f])).map Output.bytes =
        (peek m files stdin before (flagArgs numberLines true ++ [f])).map Output.bytes ∧
      (peek k files stdin before (flagArgs numberLines true ++ [f])).map Output.bytes =
        some (upwardText numberLines content)) ↔ '\x00' ∉ content := by
  constructor
  · intro h hnul
    have htext := (h 1 1).2
    rw [bytes_reverse_file hf hfile, Option.some.injEq] at htext
    -- The scan never prints a NUL byte; the pieces have one.
    obtain ⟨piece, hpiece, hmem⟩ := exists_upwards_mem hnul (by decide)
    have hspec : '\x00' ∈ upwardText numberLines content := by
      apply mem_render_label (List.mem_map_of_mem hpiece)
      exact List.mem_append_left _ hmem
    rw [← htext] at hspec
    refine nul_not_mem_render ?_ hspec
    intro text htext
    obtain ⟨piece, _, rfl⟩ := List.mem_map.mp htext
    exact nul_not_mem_cString _
  · intro hnul k m
    rw [bytes_reverse_file_nul_free hf hfile hnul, bytes_reverse_file_nul_free hf hfile hnul]
    exact ⟨rfl, rfl⟩

theorem reverse_file_text_two_lines :
    (peek 1 (Files.of ['a', '\n', 'b']) [] (fun _ => ' ')
        (flagArgs true true ++ [['f']])).map Output.bytes =
      (peek 4096 (Files.of ['a', '\n', 'b']) [] (fun _ => ' ')
        (flagArgs true true ++ [['f']])).map Output.bytes ∧
    (peek 1 (Files.of ['a', '\n', 'b']) [] (fun _ => ' ')
        (flagArgs true true ++ [['f']])).map Output.bytes =
      some (upwardText true ['a', '\n', 'b']) :=
  (reverse_file_text_iff (by decide) (Files.of_apply ['a', '\n', 'b'] ['f']) true []
    (fun _ => ' ')).mpr (by decide) 1 4096

/-- Of the line `a`, NUL, `b` only the `a` is printed, without a newline. -/
theorem reverse_file_cuts_at_nul :
    (peek 4096 (Files.of ['a', '\x00', 'b', '\n', 'c']) [] (fun _ => ' ')
        (flagArgs false true ++ [['f']])).map Output.bytes ≠
      some (upwardText false ['a', '\x00', 'b', '\n', 'c']) := by
  rw [bytes_reverse_file (by decide) (Files.of_apply _ _)]
  decide

/-! ### A file and the standard input -/

theorem eq_of_cons_eq_concat {α : Type*} {x : α} {l : List α} (h : x :: l = l ++ [x]) :
    ∀ y ∈ l, y = x := by
  induction l with
  | nil => exact List.forall_mem_nil _
  | cons z l ih =>
      obtain ⟨hz, hl⟩ := List.cons.inj h
      subst hz
      exact List.forall_mem_cons.mpr ⟨rfl, ih hl⟩

section Ends

variable {numberLines : Bool} {num : CInt} {mid : List (List Char)}

theorem isNotEmpty_newline : isNotEmpty ['\n'] = false := rfl

/-- Only newlines stay the same when the one in front is taken to the end. -/
theorem render_blank_moved_iff (hmid : ∀ piece ∈ mid, '\n' ∉ piece) :
    '\n' :: render (label numberLines (-1) num (mid.map (· ++ ['\n']))) =
      render (label numberLines (-1) num (mid.map (· ++ ['\n']))) ++ ['\n'] ↔
      ∀ piece ∈ mid, piece = [] := by
  constructor
  · intro h piece hpiece
    rw [List.eq_nil_iff_forall_not_mem]
    intro c hc
    have hmem : c ∈ render (label numberLines (-1) num (mid.map (· ++ ['\n']))) := by
      apply mem_render_label (List.mem_map_of_mem hpiece)
      exact List.mem_append_left _ hc
    exact hmid piece hpiece (eq_of_cons_eq_concat h c hmem ▸ hc)
  · intro h
    have hall : mid.map (· ++ ['\n']) = List.replicate mid.length ['\n'] := by
      rw [List.eq_replicate_iff, List.length_map]
      refine ⟨rfl, ?_⟩
      intro text htext
      obtain ⟨piece, hpiece, rfl⟩ := List.mem_map.mp htext
      rw [h piece hpiece]
      rfl
    have hturn : ['\n'] :: List.replicate mid.length ['\n'] =
        List.replicate mid.length ['\n'] ++ [['\n']] := by
      rw [← List.replicate_succ, List.replicate_succ']
    rw [hall]
    calc '\n' :: render (label numberLines (-1) num (List.replicate mid.length ['\n']))
        = render (label numberLines (-1) num (['\n'] :: List.replicate mid.length ['\n'])) :=
          (render_label_cons_blank isNotEmpty_newline).symm
      _ = render (label numberLines (-1) num (List.replicate mid.length ['\n'])) ++ ['\n'] := by
          rw [hturn, render_label_concat_blank isNotEmpty_newline]

/-- The two paths on the pieces `first`, `mid` and `last` of a content. -/
theorem render_upwards_eq_rows_iff {first last : List Char}
    (hmid : ∀ piece ∈ mid, '\n' ∉ piece) :
    render (label numberLines (-1) num
        ((upwards (first :: (mid ++ [last]))).map (· ++ ['\n']))) =
      render (label numberLines (-1) num
        ((rows (first :: (mid ++ [last]))).reverse.map (· ++ ['\n']))) ↔
      (first ≠ [] ∧ last ≠ []) ∨ (first = [] ∧ last = [] ∧ ∀ piece ∈ mid, piece = []) := by
  have hrev : ∀ piece ∈ mid.reverse, '\n' ∉ piece := by simpa using hmid
  rw [upwards_ends, reverse_rows_ends]
  by_cases hfirst : first = []
  · by_cases hlast : last = []
    · -- An empty line more in front, an empty line less at the end.
      subst hfirst hlast
      simp only [if_true, List.append_nil, List.nil_append, List.map_cons, List.map_append,
        List.map_nil]
      rw [render_label_cons_blank isNotEmpty_newline,
        render_label_concat_blank isNotEmpty_newline]
      simpa using render_blank_moved_iff hrev
    · simp only [hfirst, hlast, if_true, if_false, List.append_nil, List.map_append,
        List.map_cons, List.map_nil, List.singleton_append, ← List.cons_append]
      rw [List.nil_append, render_label_concat_blank isNotEmpty_newline]
      simp
  · by_cases hlast : last = []
    · simp only [hfirst, hlast, if_true, if_false, List.nil_append, List.map_cons]
      rw [render_label_cons_blank isNotEmpty_newline]
      simp
    · simp [hfirst, hlast]

end Ends

theorem all_newlines_iff (content : List Char) :
    (∀ c ∈ content, c = '\n') ↔ ∀ piece ∈ content.splitOn '\n', piece = [] := by
  constructor
  · intro h piece hpiece
    rw [List.eq_nil_iff_forall_not_mem]
    intro c hc
    have hnewline := h c (mem_of_mem_splitOn hpiece c hc)
    exact not_mem_of_mem_splitOn hpiece (hnewline ▸ hc)
  · intro h c hc
    by_contra hne
    obtain ⟨piece, hpiece, hmem⟩ := exists_mem_splitOn hc hne
    rw [h piece hpiece] at hmem
    cases hmem

/-- The two paths on the pieces of a content, told by its first and last byte. -/
theorem render_content_eq_iff (numberLines : Bool) (num : CInt) (content : List Char) :
    render (label numberLines (-1) num
        ((upwards (content.splitOn '\n')).map (· ++ ['\n']))) =
      render (label numberLines (-1) num
        ((rows (content.splitOn '\n')).reverse.map (· ++ ['\n']))) ↔
      (∀ c ∈ content, c = '\n') ∨
        (content ≠ [] ∧ content.head? ≠ some '\n' ∧ content.getLast? ≠ some '\n') := by
  have hhead := splitOn_head_eq_nil_iff '\n' content
  have hlast := splitOn_getLast_eq_nil_iff '\n' content
  have hall := all_newlines_iff content
  have hpieces : ∀ piece ∈ content.splitOn '\n', '\n' ∉ piece :=
    fun piece => not_mem_of_mem_splitOn
  obtain ⟨first, rest, hsplit⟩ := exists_splitOn '\n' content
  rw [hsplit] at hhead hlast hall hpieces ⊢
  rcases List.eq_nil_or_concat rest with rfl | ⟨mid, last, rfl⟩
  · -- One piece: a content without a newline.
    simp only [List.head?_cons, List.getLast?_singleton, List.mem_singleton, forall_eq,
      Option.some.injEq] at hhead hlast hall
    rw [upwards_singleton, iff_true_left rfl, hall]
    by_cases hfirst : first = []
    · exact Or.inl hfirst
    · rw [iff_false_left hfirst, not_or] at hhead hlast
      exact Or.inr ⟨hhead.1, hhead.2, hlast.2⟩
  · rw [List.concat_eq_append] at hhead hlast hall hpieces ⊢
    have hmid : ∀ piece ∈ mid, '\n' ∉ piece := fun piece h => hpieces piece (by simp [h])
    have hne : content ≠ [] := by
      rintro rfl
      simp at hsplit
    rw [render_upwards_eq_rows_iff hmid, hall]
    rw [List.head?_cons, Option.some.injEq, or_iff_right hne] at hhead
    rw [← List.cons_append, List.getLast?_concat, Option.some.injEq, or_iff_right hne] at hlast
    rw [ne_eq (content.head?), ne_eq (content.getLast?), ← hhead, ← hlast]
    simp only [List.mem_cons, List.mem_append, List.not_mem_nil, or_false, or_imp, forall_and,
      forall_eq, ne_eq, hne, not_false_eq_true, true_and]
    tauto

/-- A file and the same content on the standard input are printed alike with `-r`
exactly when the content is made of newlines, or neither begins nor ends with one, and has
no more lines than the array of the second path can hold. -/
theorem reverse_file_eq_stdin_iff {size : ℕ+} {files : Files} {stdin : List Char}
    {before : ℕ → Char} {f content : List Char} {ops : List (List Char)} (hf : IsFileName f)
    (hfile : files f = .file content) (hnul : '\x00' ∉ content)
    (hops : ops = [] ∨ ops = [['-']]) (numberLines : Bool) :
    (peek size files stdin before (flagArgs numberLines true ++ [f])).map Output.bytes =
      (peek size files content before (flagArgs numberLines true ++ ops)).map Output.bytes ↔
      ((∀ c ∈ content, c = '\n') ∨
        (content ≠ [] ∧ content.head? ≠ some '\n' ∧ content.getLast? ≠ some '\n')) ∧
      (getlines content).length ≤ 2 ^ 30 := by
  rw [bytes_reverse_file_nul_free hf hfile hnul]
  by_cases hroom : (getlines content).length ≤ 2 ^ 30
  · rw [bytes_reverse_stdin hops hnul hroom, Option.some.injEq, upwardText, totalNonEmpty,
      countP_getlines, and_iff_left hroom]
    exact render_content_eq_iff numberLines _ content
  · rw [peek_reverse_stdin_none hops (by omega)]
    exact iff_of_false (Option.some_ne_none _) fun h => hroom h.2

theorem reverse_file_eq_stdin_two_lines :
    (peek 4096 (Files.of ['a', '\n', 'b']) [] (fun _ => ' ')
        (flagArgs true true ++ [['f']])).map Output.bytes =
      (peek 4096 (Files.of ['a', '\n', 'b']) ['a', '\n', 'b'] (fun _ => ' ')
        (flagArgs true true ++ [])).map Output.bytes :=
  (reverse_file_eq_stdin_iff (by decide) (Files.of_apply ['a', '\n', 'b'] ['f']) (by decide)
    (Or.inl rfl) true).mpr ⟨Or.inr ⟨by decide, by decide, by decide⟩, by decide⟩

/-- A file that ends with a newline gets an empty line in front. -/
theorem reverse_file_prints_empty_line :
    (peek 4096 (Files.of ['a', '\n']) [] (fun _ => ' ')
        (flagArgs false true ++ [['f']])).map Output.bytes ≠
      (peek 4096 (Files.of ['a', '\n']) ['a', '\n'] (fun _ => ' ')
        (flagArgs false true ++ [['-']])).map Output.bytes := by
  rw [bytes_reverse_file (by decide) (Files.of_apply _ _),
    bytes_reverse_stdin (Or.inr rfl) (by decide) (by decide)]
  decide

end ShellXv6.Shell.Peek
