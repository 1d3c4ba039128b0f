import ShellXv6.Shell.QuoteStatus
import ShellXv6.Shell.Words

/-!
# Lexing a line in two parts

Whatever quotes and operators an accepted line holds, the lexer is in `START` or
in a word when it reaches the end.  A separator behind the line ends the word as
the terminating NUL does, and the rest is read from `START` with an empty buffer.
What fails is the index: two lines may each be short enough for an `int` and
together be too long.
-/

namespace ShellXv6.Shell

open Lexer

/-- The separators that end a word and are never the first half of an operator. -/
def isSeparator (c : Char) : Bool :=
  c = ' ' || c = '\t' || c = '\n' || c = '|' || c = '&' || c = ';'

def separatorTokens (c : Char) : List Token :=
  if c = '|' then [⟨['|'], .OP_PIPE⟩]
  else if c = '&' then [⟨['&'], .OP_AMP⟩]
  else if c = ';' then [⟨[';'], .OP_SEMI⟩]
  else []

/-! ## Actions at the end of the first part -/

theorem isSeparator_cases {c : Char} (h : isSeparator c = true) :
    c = ' ' ∨ c = '\t' ∨ c = '\n' ∨ c = '|' ∨ c = '&' ∨ c = ';' := by
  simpa [isSeparator, or_assoc] using h

theorem endsWord_of_isSeparator {c : Char} (h : isSeparator c = true) : endsWord c = true := by
  rcases isSeparator_cases h with rfl | rfl | rfl | rfl | rfl | rfl <;> decide

/-- The last character of an accepted line is read in the same way in front of a
separator as in front of the terminating NUL. -/
theorem action_next {st : LexerState} {e c : Char} (hc : isSeparator c = true)
    (h : action st e nul ≠ .fail) : action st e c = action st e nul := by
  cases st with
  | START =>
      have hlt : c ≠ '<' := by
        rintro rfl
        cases hc
      have hgt : c ≠ '>' := by
        rintro rfl
        cases hc
      simp only [action, hlt, hgt, if_false, show nul ≠ '<' by decide, show nul ≠ '>' by decide]
  | IN_DQUOTE =>
      by_cases he : e = '\\'
      · subst he
        exact absurd (by decide) h
      · simp only [action, he, if_false]
  | IN_WORD => rfl
  | IN_SQUOTE => rfl
  | AFTER_ESCAPE => rfl

theorem action_extend {st : LexerState} {a b : List Char} {c : Char} {x : Action}
    (hc : isSeparator c = true) (ha : a ≠ [])
    (h : action st (a.headD nul) (a.tail.headD nul) = x) (hx : x ≠ .fail) :
    action st ((a ++ c :: b).headD nul) ((a ++ c :: b).tail.headD nul) = x := by
  cases a with
  | nil => exact absurd rfl ha
  | cons e a =>
      cases a with
      | nil =>
          subst h
          exact action_next hc hx
      | cons d a => exact h

theorem ne_nil_of_headD_ne {a : List Char} (h : a.headD nul ≠ nul) : a ≠ [] := by
  rintro rfl
  exact h rfl

theorem headD_ne_nul {a : List Char} (ha : nul ∉ a) (hne : a ≠ []) : a.headD nul ≠ nul := by
  cases a with
  | nil => exact absurd rfl hne
  | cons e a =>
      rintro rfl
      exact ha List.mem_cons_self

/-- An action that reads two characters has a second one. -/
theorem le_length {a : List Char} {n : ℕ} (ha : a.headD nul ≠ nul)
    (hn : Advances (a.tail.headD nul) n) : n ≤ a.length := by
  obtain ⟨e, a, rfl⟩ := List.exists_cons_of_ne_nil (ne_nil_of_headD_ne ha)
  rcases hn with rfl | ⟨rfl, hd⟩
  · exact Nat.le_add_left 1 a.length
  · obtain ⟨d, a, rfl⟩ := List.exists_cons_of_ne_nil (ne_nil_of_headD_ne hd)
    exact Nat.le_add_left 2 a.length

/-! ## The scan -/

/-- Tokens in front of what the rest of the line gives. -/
def emitAll (toks : List Token) (r : Option (List Token × Bool)) : Option (List Token × Bool) :=
  r.map fun x => (toks ++ x.1, x.2)

theorem emitAll_nil (r : Option (List Token × Bool)) : emitAll [] r = r := by
  cases r <;> rfl

theorem emit_emitAll (t : Token) (toks : List Token) (r : Option (List Token × Bool)) :
    emit t (emitAll toks r) = emitAll (t :: toks) r := by
  cases r <;> rfl

/-- A separator behind an accepted text sends the lexer back to a clean `START`. -/
theorem scan_append_separator {st : LexerState} {buffer a : List Char} {toks : List Token}
    (hstart : st = .START → buffer = []) (ha : nul ∉ a) {c : Char} (hc : isSeparator c = true)
    (b : List Char) (h : scan st buffer a = some (toks, true)) :
    scan st buffer (a ++ c :: b) = emitAll toks (scan .START [] (c :: b)) := by
  fun_induction scan st buffer a generalizing toks with
  | case1 st buffer a hact =>
      have hnil : a = [] := by
        by_contra hne
        exact headD_ne_nul ha hne (action_stop hact).2
      subst hnil
      cases h
      have hst := (action_stop hact).1
      rw [hstart hst, hst, List.nil_append, emitAll_nil]
  | case2 st buffer a hact => cases h
  | case3 st buffer a s hact ih =>
      have hne := ne_nil_of_headD_ne (action_goto hact)
      have hs : s = .START → buffer = [] := by
        rintro rfl
        exact hstart (action_goto_start hact).1
      rw [scan_goto (action_extend hc hne hact (by simp)),
        List.drop_append_of_le_length (List.length_pos_iff.mpr hne)]
      exact ih hs (fun hmem => ha (List.mem_of_mem_drop hmem)) h
  | case4 st buffer a content type n hact ih =>
      obtain ⟨hnul, hsteps⟩ := action_append hact
      obtain ⟨rest, hrest, rfl⟩ := emit_eq_some.mp h
      rw [scan_append content n (action_extend hc (ne_nil_of_headD_ne hnul) hact (by simp)),
        List.drop_append_of_le_length (le_length hnul hsteps),
        ih hstart (fun hmem => ha (List.mem_of_mem_drop hmem)) hrest, emit_emitAll]
  | case5 st buffer a s cs n hact hfit ih =>
      obtain ⟨hnul, hsteps⟩ := action_put hact
      have hs : s = .START → buffer ++ cs = [] := fun hs => absurd hs (action_put_ne hact)
      rw [scan_put cs n (action_extend hc (ne_nil_of_headD_ne hnul) hact (by simp)) hfit,
        List.drop_append_of_le_length (le_length hnul hsteps)]
      exact ih hs (fun hmem => ha (List.mem_of_mem_drop hmem)) h
  | case6 st buffer a s cs n hact hfit => cases h
  | case7 st buffer a hact hfit ih =>
      obtain rfl := action_endWord hact
      obtain ⟨rest, hrest, rfl⟩ := emit_eq_some.mp h
      have hend : action .IN_WORD ((a ++ c :: b).headD nul) ((a ++ c :: b).tail.headD nul) =
          .endWord := by
        cases a with
        | nil => exact if_pos (endsWord_of_isSeparator hc)
        | cons e a => exact action_extend hc (List.cons_ne_nil e a) hact (by simp)
      rw [scan_endWord hend hfit, ih (fun _ => rfl) ha hrest, emit_emitAll]
  | case8 st buffer a hact hfit => cases h

theorem scan_separator {c : Char} (hc : isSeparator c = true) (b : List Char) :
    scan .START [] (c :: b) = emitAll (separatorTokens c) (scan .START [] b) := by
  rcases isSeparator_cases hc with rfl | rfl | rfl | rfl | rfl | rfl
  · rw [scan_goto (s := .START) rfl]
    exact (emitAll_nil _).symm
  · rw [scan_goto (s := .START) rfl]
    exact (emitAll_nil _).symm
  · rw [scan_goto (s := .START) rfl]
    exact (emitAll_nil _).symm
  · rw [scan_append "|" 1 rfl]
    rfl
  · rw [scan_append "&" 1 rfl]
    rfl
  · rw [scan_append ";" 1 rfl]
    rfl

theorem length_le_append (a b : List Char) (c : Char) : b.length ≤ (a ++ c :: b).length := by
  rw [List.length_append, List.length_cons]
  omega

theorem nul_notMem_append {a b : List Char} {c : Char} (ha : nul ∉ a)
    (hc : isSeparator c = true) (hb : nul ∉ b) : nul ∉ a ++ c :: b := by
  intro hmem
  rcases List.mem_append.mp hmem with hmem | hmem
  · exact ha hmem
  · rcases List.mem_cons.mp hmem with rfl | hmem
    · cases hc
    · exact hb hmem

/-- A line that the lexer accepts, a separator and another line give the tokens of
the first, the operator and the tokens of the second, with its flag, just when the
three together can be indexed by an `int`. -/
theorem lexer_append_separator_iff {a b : List Char} {c : Char} {toks : List Token}
    (ha : nul ∉ a) (hb : nul ∉ b) (hc : isSeparator c = true) (hfit : WordsFit b)
    (h : lexer a = some (toks, true)) :
    (∃ rest ok, lexer b = some (rest, ok) ∧
      lexer (a ++ c :: b) = some (toks ++ separatorTokens c ++ rest, ok)) ↔
        (a ++ c :: b).length < 2 ^ 31 := by
  have hself := beforeNul_eq_self (nul_notMem_append ha hc hb)
  constructor
  · rintro ⟨rest, ok, -, hboth⟩
    rw [← hself]
    exact lt_of_lexer hboth
  · intro hlen
    have hblen : b.length < 2 ^ 31 := Nat.lt_of_le_of_lt (length_le_append a b c) hlen
    have hsome : (lexer b).isSome = true := by
      rw [lexer_isSome_iff, beforeNul_eq_self hb]
      exact ⟨hfit, hblen⟩
    obtain ⟨⟨rest, ok⟩, hrest⟩ := Option.isSome_iff_exists.mp hsome
    refine ⟨rest, ok, hrest, ?_⟩
    rw [lexer_eq_scan (by rwa [hself]),
      scan_append_separator (fun _ => rfl) ha hc b (scan_of_lexer h), scan_separator hc b,
      scan_of_lexer hrest]
    simp only [emitAll, Option.map_some, List.append_assoc]

/-- The line `";"`, a semicolon and the line `c`. -/
theorem lexer_append_separator_quoted : ∃ rest ok, lexer ['c'] = some (rest, ok) ∧
    lexer ['"', ';', '"', ';', 'c'] = some ([⟨[';'], .WORD⟩, ⟨[';'], .OP_SEMI⟩] ++ rest, ok) := by
  have hfirst : lexer ['"', ';', '"'] = some ([⟨[';'], .WORD⟩], true) := by decide
  have hlen : (['"', ';', '"'] ++ ';' :: ['c']).length < 2 ^ 31 := by decide
  exact (lexer_append_separator_iff (by decide) (by decide) (by decide) (by decide) hfirst).mpr hlen

theorem scan_blanks (n : ℕ) : scan .START [] (List.replicate n ' ') = some ([], true) := by
  induction n with
  | zero =>
      rw [List.replicate_zero, scan]
      rfl
  | succ n ih =>
      rw [List.replicate_succ, scan_goto (s := .START) rfl]
      exact ih

theorem nul_notMem_blanks (n : ℕ) : nul ∉ List.replicate n ' ' := fun h =>
  absurd (List.eq_of_mem_replicate h) (by decide)

theorem lexer_blanks {n : ℕ} (hn : n < 2 ^ 31) :
    lexer (List.replicate n ' ') = some ([], true) := by
  have hself := beforeNul_eq_self (nul_notMem_blanks n)
  rw [lexer_eq_scan (by rwa [hself, List.length_replicate]), scan_blanks]

/-- Two lines of `2 ^ 30` blanks, with a blank between. -/
theorem lexer_blanks_too_long :
    lexer (List.replicate (2 ^ 30) ' ') = some ([], true) ∧
      WordsFit (List.replicate (2 ^ 30) ' ') ∧
      lexer (List.replicate (2 ^ 30) ' ' ++ ' ' :: List.replicate (2 ^ 30) ' ') = none := by
  have hnul := nul_notMem_blanks (2 ^ 30)
  have hblanks := lexer_blanks (n := 2 ^ 30) (by decide)
  have hsome := congrArg Option.isSome hblanks
  rw [Option.isSome_some, lexer_isSome_iff, beforeNul_eq_self hnul] at hsome
  refine ⟨hblanks, hsome.1, lexer_eq_none ?_⟩
  rw [beforeNul_eq_self (nul_notMem_append hnul rfl hnul), List.length_append, List.length_cons,
    List.length_replicate]
  decide

end ShellXv6.Shell
