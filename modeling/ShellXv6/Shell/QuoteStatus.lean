import ShellXv6.Shell.Scan

/-!
# Quotes and the word buffer

A reader that only keeps track of quotes and backslashes goes through the line from
left to right, one character at a time.  It knows whether the line ends in the
middle of a quotation, and how many bytes of `buffer` each word takes.  The lexer
rejects the line in the first case, and has no result if a word takes more bytes
than there are, or if the line is too long for its index.
-/

namespace ShellXv6.Shell

open Lexer

/-! ## Reading from left to right -/

inductive QuoteStatus
  | unquoted
  /-- Directly after an unquoted backslash. -/
  | escaped
  | single
  | double
  /-- Directly after a backslash inside double quotes. -/
  | doubleEscaped
  deriving DecidableEq

namespace QuoteStatus

/-- A backslash takes the next character with it, except inside single quotes. -/
def next : QuoteStatus → Char → QuoteStatus
  | unquoted, c =>
      if c = '\'' then single else if c = '"' then double else if c = '\\' then escaped
      else unquoted
  | escaped, _ => unquoted
  | single, c => if c = '\'' then unquoted else single
  | double, c => if c = '"' then unquoted else if c = '\\' then doubleEscaped else double
  | doubleEscaped, _ => double

/-- The bytes that a character adds to the word it stands in.  Quotes and backslashes
add none, but a backslash inside double quotes is kept unless it stands in front of a
double quote or of another one. -/
def bytes : QuoteStatus → Char → ℕ
  | unquoted, c => if c = '\'' ∨ c = '"' ∨ c = '\\' then 0 else 1
  | escaped, _ => 1
  | single, c => if c = '\'' then 0 else 1
  | double, c => if c = '"' ∨ c = '\\' then 0 else 1
  | doubleEscaped, c => if c = '"' ∨ c = '\\' then 1 else 2

end QuoteStatus

/-- The line ends inside a quotation or directly after an unquoted backslash. -/
def EndsOpen (line : List Char) : Prop :=
  line.foldl QuoteStatus.next .unquoted ≠ .unquoted

instance (line : List Char) : Decidable (EndsOpen line) := inferInstanceAs (Decidable (_ ≠ _))

/-- An unquoted character that belongs to no word; a carriage return is one only in
front of a word. -/
def separates (size : Option ℕ) (c : Char) : Bool := endsWord c || size.isNone && isBlank c

/-- The bytes of `buffer` that each word takes: one for each character of its content,
and one for the NUL behind a word that has come to its end.  There are `size` bytes of
the first word already. -/
def bufferNeeds (st : QuoteStatus) (size : Option ℕ) : List Char → List ℕ
  | [] => (size.map fun n => if st = .unquoted then n + 1 else n).toList
  | c :: cs =>
      if st = .unquoted ∧ separates size c = true then
        (size.map (· + 1)).toList ++ bufferNeeds .unquoted none cs
      else bufferNeeds (st.next c) (some (size.getD 0 + st.bytes c)) cs

/-- No word takes more bytes than `buffer` has. -/
def WordsFit (line : List Char) : Prop := ∀ n ∈ bufferNeeds .unquoted none line, n ≤ bufferSize

instance (line : List Char) : Decidable (WordsFit line) :=
  inferInstanceAs (Decidable (∀ n ∈ _, n ≤ bufferSize))

/-! ## Where the lexer stands -/

def LexerState.quoteStatus : LexerState → QuoteStatus
  | .START => .unquoted
  | .IN_WORD => .unquoted
  | .IN_DQUOTE => .double
  | .IN_SQUOTE => .single
  | .AFTER_ESCAPE => .escaped

def LexerState.size (st : LexerState) (buffer : List Char) : Option ℕ :=
  if st = .START then none else some buffer.length

/-- What the reader says about the rest of the line: whether it is complete, if the
words fit. -/
def verdict (st : QuoteStatus) (size : Option ℕ) (rest : List Char) : Option Bool :=
  if ∀ n ∈ bufferNeeds st size rest, n ≤ bufferSize then
    some (decide (rest.foldl QuoteStatus.next st = .unquoted))
  else none

section

variable {st : QuoteStatus} {size : Option ℕ} {c : Char}

theorem next_of_separates (h : separates size c = true) :
    QuoteStatus.next .unquoted c = .unquoted := by
  have hq : c ≠ '\'' ∧ c ≠ '"' ∧ c ≠ '\\' := by
    refine ⟨?_, ?_, ?_⟩ <;> rintro rfl <;> cases size <;> cases h
  simp [QuoteStatus.next, hq]

theorem bufferNeeds_separator (h : separates size c = true) (cs : List Char) :
    bufferNeeds .unquoted size (c :: cs) =
      (size.map (· + 1)).toList ++ bufferNeeds .unquoted none cs :=
  if_pos ⟨rfl, h⟩

theorem verdict_read (h : ¬(st = .unquoted ∧ separates size c = true)) (cs : List Char) :
    verdict st size (c :: cs) = verdict (st.next c) (some (size.getD 0 + st.bytes c)) cs := by
  rw [verdict, verdict, bufferNeeds, if_neg h, List.foldl_cons]

theorem verdict_skip (h : separates none c = true) (cs : List Char) :
    verdict .unquoted none (c :: cs) = verdict .unquoted none cs := by
  rw [verdict, verdict, bufferNeeds_separator h, List.foldl_cons, next_of_separates h]
  rfl

/-- At the end of a word its NUL has to fit too. -/
theorem verdict_end (n : ℕ) {rest : List Char} (h : endsWord (rest.headD nul) = true) :
    verdict .unquoted (some n) rest =
      if n < bufferSize then verdict .unquoted none rest else none := by
  have hneeds : bufferNeeds .unquoted (some n) rest =
      (n + 1) :: bufferNeeds .unquoted none rest := by
    cases rest with
    | nil => rfl
    | cons c cs =>
        have hsep : ∀ size, separates size c = true := fun size => by
          rw [separates, show endsWord c = true from h, Bool.true_or]
        rw [bufferNeeds_separator (hsep _), bufferNeeds_separator (hsep _)]
        rfl
  rw [verdict, verdict, hneeds]
  simp only [List.forall_mem_cons, Nat.succ_le_iff]
  split_ifs <;> simp_all

theorem verdict_too_long {n : ℕ} (h : bufferSize < n) (rest : List Char) :
    verdict st (some n) rest = none := by
  rw [verdict, if_neg]
  intro hfit
  induction rest generalizing st n with
  | nil =>
      have hn := hfit (if st = .unquoted then n + 1 else n) (by simp [bufferNeeds])
      split_ifs at hn <;> omega
  | cons c cs ih =>
      rw [bufferNeeds] at hfit
      split_ifs at hfit
      · have hn := hfit (n + 1) (by simp)
        omega
      · exact ih (Nat.lt_of_lt_of_le h (Nat.le_add_right n _)) hfit

end

/-! ## The lexer against the reader -/

section

variable {st s : LexerState} {buffer rest : List Char}

theorem size_of_ne_start (h : st ≠ .START) (buffer : List Char) :
    st.size buffer = some buffer.length :=
  if_neg h

theorem verdict_goto (hbuffer : st = .START → buffer = [])
    (h : action st (rest.headD nul) (rest.tail.headD nul) = .goto s) :
    verdict st.quoteStatus (st.size buffer) (beforeNul rest) =
      verdict s.quoteStatus (s.size buffer) (beforeNul (rest.drop 1)) := by
  rw [beforeNul_cons (action_goto h), List.drop_one]
  generalize rest.headD nul = c, rest.tail.headD nul = d at h
  -- An opening quote or a backslash begins a word of no bytes, if there is none.
  have hbegin : st = .START ∨ st = .IN_WORD → (st.size buffer).getD 0 = buffer.length := by
    rintro (rfl | rfl)
    · rw [hbuffer rfl]
      rfl
    · rfl
  have hopen : ∀ c, c = '"' ∨ c = '\'' ∨ c = '\\' → ∀ size, separates size c = false := by
    rintro c (rfl | rfl | rfl) size <;> cases size <;> rfl
  have hstatus : st = .START ∨ st = .IN_WORD → st.quoteStatus = .unquoted := by
    rintro (rfl | rfl) <;> rfl
  cases acts_of_eq h with
  | blank _ hblank => exact verdict_skip (by simp [separates, hblank]) _
  | dquote hst =>
      rw [hstatus hst, verdict_read (by simp [hopen]), hbegin hst]
      rfl
  | squote hst =>
      rw [hstatus hst, verdict_read (by simp [hopen]), hbegin hst]
      rfl
  | escape hst =>
      rw [hstatus hst, verdict_read (by simp [hopen]), hbegin hst]
      rfl
  | dclose =>
      rw [verdict_read (by simp [LexerState.quoteStatus])]
      rfl
  | sclose =>
      rw [verdict_read (by simp [LexerState.quoteStatus])]
      rfl

theorem tail_tail (l : List Char) : l.tail.tail = l.drop 2 := by
  rw [← List.drop_one, ← List.drop_one, List.drop_drop]

theorem verdict_append {content : String} {type : TokenType} {n : ℕ}
    (h : action st (rest.headD nul) (rest.tail.headD nul) = .append content type n) :
    st = .START ∧ verdict .unquoted none (beforeNul rest) =
      verdict .unquoted none (beforeNul (rest.drop n)) := by
  have hone : ∀ {c}, rest.headD nul = c → c ≠ nul → separates none c = true →
      verdict .unquoted none (beforeNul rest) = verdict .unquoted none (beforeNul rest.tail) := by
    intro c hc hnul hsep
    rw [beforeNul_cons (hc ▸ hnul), hc, verdict_skip hsep]
  have htwo : ∀ {c}, rest.headD nul = c → rest.tail.headD nul = c → c ≠ nul →
      separates none c = true → verdict .unquoted none (beforeNul rest) =
        verdict .unquoted none (beforeNul (rest.drop 2)) := by
    intro c hc hd hnul hsep
    rw [hone hc hnul hsep, beforeNul_cons (hd ▸ hnul), hd, verdict_skip hsep, tail_tail]
  generalize hc : rest.headD nul = c at h hone htwo
  generalize hd : rest.tail.headD nul = d at h htwo
  cases acts_of_eq h with
  | pipe => exact ⟨rfl, List.drop_one ▸ hone rfl (by decide) rfl⟩
  | amp => exact ⟨rfl, List.drop_one ▸ hone rfl (by decide) rfl⟩
  | semi => exact ⟨rfl, List.drop_one ▸ hone rfl (by decide) rfl⟩
  | lt => exact ⟨rfl, List.drop_one ▸ hone rfl (by decide) rfl⟩
  | gt => exact ⟨rfl, List.drop_one ▸ hone rfl (by decide) rfl⟩
  | ltlt => exact ⟨rfl, htwo rfl rfl (by decide) rfl⟩
  | gtgt => exact ⟨rfl, htwo rfl rfl (by decide) rfl⟩

theorem verdict_put {cs : List Char} {n : ℕ} (hbuffer : st = .START → buffer = [])
    (h : action st (rest.headD nul) (rest.tail.headD nul) = .put s cs n) :
    s ≠ .START ∧ verdict st.quoteStatus (st.size buffer) (beforeNul rest) =
      verdict s.quoteStatus (some (buffer ++ cs).length) (beforeNul (rest.drop n)) := by
  rw [beforeNul_cons (action_put h).1, List.length_append]
  generalize hc : rest.headD nul = c at h
  generalize hd : rest.tail.headD nul = d at h
  have hescape : d ≠ nul → beforeNul rest.tail = d :: beforeNul (rest.drop 2) := by
    intro hne
    rw [beforeNul_cons (hd ▸ hne), hd, tail_tail]
  cases acts_of_eq h with
  | char hst hword =>
      have hq : c ≠ '\'' ∧ c ≠ '"' ∧ c ≠ '\\' ∧ endsWord c = false := by
        simp [wordChar] at hword
        tauto
      refine ⟨by decide, ?_⟩
      rcases hst with ⟨rfl, hblank⟩ | rfl
      · rw [hbuffer rfl, verdict_read (by simp [separates, hblank, hq, LexerState.quoteStatus])]
        simp [LexerState.quoteStatus, LexerState.size, QuoteStatus.next, QuoteStatus.bytes, hq]
      · rw [verdict_read (by simp [separates, hq, LexerState.quoteStatus, LexerState.size])]
        simp [LexerState.quoteStatus, LexerState.size, QuoteStatus.next, QuoteStatus.bytes, hq]
  | dquoted hor =>
      have hne : d ≠ nul := by rcases hor with rfl | rfl <;> decide
      refine ⟨by decide, ?_⟩
      rw [verdict_read (by simp [LexerState.quoteStatus]), hescape hne]
      rw [verdict_read (by simp [LexerState.quoteStatus, QuoteStatus.next])]
      simp [LexerState.quoteStatus, LexerState.size, QuoteStatus.next, QuoteStatus.bytes, hor]
  | dkept hne =>
      have hor : ¬(d = '"' ∨ d = '\\') := by
        intro hor
        simp [action, nul, hor] at h
      refine ⟨by decide, ?_⟩
      rw [verdict_read (by simp [LexerState.quoteStatus]), hescape hne]
      rw [verdict_read (by simp [LexerState.quoteStatus, QuoteStatus.next])]
      simp [LexerState.quoteStatus, LexerState.size, QuoteStatus.next, QuoteStatus.bytes, hor]
  | dchar _ hquote hback =>
      refine ⟨by decide, ?_⟩
      rw [verdict_read (by simp [LexerState.quoteStatus])]
      simp [LexerState.quoteStatus, LexerState.size, QuoteStatus.next, QuoteStatus.bytes, hquote,
        hback]
  | schar _ hquote =>
      refine ⟨by decide, ?_⟩
      rw [verdict_read (by simp [LexerState.quoteStatus])]
      simp [LexerState.quoteStatus, LexerState.size, QuoteStatus.next, QuoteStatus.bytes, hquote]
  | escaped =>
      refine ⟨by decide, ?_⟩
      rw [verdict_read (by simp [LexerState.quoteStatus])]
      simp [LexerState.quoteStatus, LexerState.size, QuoteStatus.next, QuoteStatus.bytes]

theorem action_endWord_char {c d : Char} (h : action st c d = .endWord) : endsWord c = true := by
  cases acts_of_eq h
  assumption

theorem emit_ok (t : Token) (r : Option (List Token × Bool)) :
    (emit t r).map Prod.snd = r.map Prod.snd := by
  rw [emit, Option.map_map]
  rfl

/-- A failure leaves a quotation open, or a backslash with nothing behind it. -/
theorem verdict_fail (hfit : buffer.length ≤ bufferSize)
    (h : action st (rest.headD nul) (rest.tail.headD nul) = .fail) :
    verdict st.quoteStatus (st.size buffer) (beforeNul rest) = some false := by
  generalize hc : rest.headD nul = c at h
  generalize hd : rest.tail.headD nul = d at h
  cases acts_of_eq h with
  | dfail => simp [beforeNul_nul rest hc, verdict, bufferNeeds, LexerState.quoteStatus,
      LexerState.size, hfit]
  | sfail => simp [beforeNul_nul rest hc, verdict, bufferNeeds, LexerState.quoteStatus,
      LexerState.size, hfit]
  | efail => simp [beforeNul_nul rest hc, verdict, bufferNeeds, LexerState.quoteStatus,
      LexerState.size, hfit]
  | dlast =>
      rw [beforeNul_cons (hc ▸ by decide), hc, beforeNul_nul _ hd]
      simp [verdict, bufferNeeds, LexerState.quoteStatus, LexerState.size, QuoteStatus.next,
        QuoteStatus.bytes, hfit]

/-- The flag of the lexer is what the reader says. -/
theorem scan_ok (hbuffer : st = .START → buffer = []) (hfit : buffer.length ≤ bufferSize) :
    (scan st buffer rest).map Prod.snd =
      verdict st.quoteStatus (st.size buffer) (beforeNul rest) := by
  fun_induction scan st buffer rest with
  | case1 st buffer rest h =>
      obtain ⟨hst, hnul⟩ := action_stop h
      rw [beforeNul_nul rest hnul, hst]
      rfl
  | case2 st buffer rest h => exact (verdict_fail hfit h).symm
  | case3 st buffer rest s h ih =>
      rw [verdict_goto hbuffer h]
      exact ih (fun hs => hbuffer (action_goto_start (hs ▸ h)).1) hfit
  | case4 st buffer rest content type n h ih =>
      obtain ⟨rfl, happend⟩ := verdict_append h
      rw [emit_ok, ih hbuffer hfit]
      exact happend.symm
  | case5 st buffer rest s cs n h hroom ih =>
      obtain ⟨hs, hput⟩ := verdict_put hbuffer h
      have hlen : (buffer ++ cs).length ≤ bufferSize := by rwa [List.length_append]
      rw [hput, ih (fun h => absurd h hs) hlen, size_of_ne_start hs]
  | case6 st buffer rest s cs n h hroom =>
      obtain ⟨hs, hput⟩ := verdict_put hbuffer h
      rw [hput, verdict_too_long]
      · rfl
      · rw [List.length_append]
        exact Nat.lt_of_not_le hroom
  | case7 st buffer rest h hroom ih =>
      have hend := action_endWord_char h
      rw [← headD_beforeNul] at hend
      rw [action_endWord h, emit_ok, ih (fun _ => rfl) (Nat.zero_le _)]
      exact ((verdict_end _ hend).trans (if_pos hroom)).symm
  | case8 st buffer rest h hroom =>
      have hend := action_endWord_char h
      rw [← headD_beforeNul] at hend
      rw [action_endWord h]
      exact ((verdict_end _ hend).trans (if_neg hroom)).symm

end

theorem scan_ok_start (line : List Char) :
    (scan .START [] line).map Prod.snd = verdict .unquoted none (beforeNul line) :=
  scan_ok (fun _ => rfl) (Nat.zero_le _)

theorem scan_isSome_iff (line : List Char) :
    (scan .START [] line).isSome = true ↔ WordsFit (beforeNul line) := by
  rw [← Option.isSome_map, scan_ok_start, verdict, WordsFit]
  split_ifs with h
  · exact iff_of_true rfl h
  · exact iff_of_false Bool.false_ne_true h

theorem lexer_isSome_iff (line : List Char) :
    (lexer line).isSome = true ↔
      WordsFit (beforeNul line) ∧ (beforeNul line).length < 2 ^ 31 := by
  by_cases hm : (beforeNul line).length < 2 ^ 31
  · rw [lexer_eq_scan hm, scan_isSome_iff, and_iff_left hm]
  · rw [lexer_eq_none (Nat.le_of_not_lt hm)]
    exact iff_of_false Bool.false_ne_true fun h => hm h.2

/-- The lexer returns, with `ok = 0` just when the line ends open. -/
def RejectsExactly (line : List Char) : Prop :=
  ∃ tokens ok, lexer line = some (tokens, ok) ∧ (ok = false ↔ EndsOpen (beforeNul line))

/-- Among the lines that an `int` can index and whose words fit into `buffer` exactly
those that end open are rejected. -/
theorem rejects_exactly_iff (line : List Char) :
    RejectsExactly line ↔ WordsFit (beforeNul line) ∧ (beforeNul line).length < 2 ^ 31 := by
  rw [← lexer_isSome_iff]
  constructor
  · rintro ⟨tokens, ok, hlexer, -⟩
    rw [hlexer]
    rfl
  · intro hsome
    obtain ⟨⟨tokens, ok⟩, hlexer⟩ := Option.isSome_iff_exists.mp hsome
    refine ⟨tokens, ok, hlexer, ?_⟩
    have hfit := ((lexer_isSome_iff line).mp hsome).1
    have hok := scan_ok_start line
    rw [scan_of_lexer hlexer, verdict, if_pos (show ∀ n ∈ _, n ≤ bufferSize from hfit)] at hok
    have hflag : ok = _ := Option.some.inj hok
    rw [hflag, decide_eq_false_iff_not, EndsOpen]

/-! ## Long words -/

theorem foldl_letters {st : QuoteStatus} (hnext : st.next 'a' = st) (n : ℕ) :
    (List.replicate n 'a').foldl QuoteStatus.next st = st := by
  induction n with
  | zero => rfl
  | succ n ih => rw [List.replicate_succ, List.foldl_cons, hnext, ih]

theorem bufferNeeds_letters {q : QuoteStatus} (hnext : q.next 'a' = q)
    (hbytes : q.bytes 'a' = 1) (n k : ℕ) :
    bufferNeeds q (some k) (List.replicate n 'a') =
      [if q = .unquoted then k + n + 1 else k + n] := by
  induction n generalizing k with
  | zero => rfl
  | succ n ih =>
      have hsep : separates (some k) 'a' = false := rfl
      rw [List.replicate_succ, bufferNeeds, if_neg (by simp [hsep]), hnext, hbytes]
      refine (ih (k + 1)).trans ?_
      rw [Nat.add_right_comm k 1 n, Nat.add_assoc k n 1]

theorem not_wordsFit_of_needs {line : List Char} {n : ℕ} (hn : bufferSize < n)
    (h : bufferNeeds .unquoted none line = [n]) : ¬WordsFit line := by
  intro hfit
  have hle := hfit n (by rw [h]; exact List.mem_singleton_self n)
  exact Nat.not_le_of_lt hn hle

theorem not_wordsFit_letters {n : ℕ} (hn : bufferSize ≤ n + 1) :
    ¬WordsFit (List.replicate (n + 1) 'a') :=
  not_wordsFit_of_needs (Nat.lt_succ_of_le (Nat.add_comm n 1 ▸ hn))
    (bufferNeeds_letters (q := .unquoted) rfl rfl n 1)

theorem not_wordsFit_quoted {n : ℕ} (hn : bufferSize < n) :
    ¬WordsFit ('\'' :: List.replicate n 'a') :=
  not_wordsFit_of_needs ((Nat.zero_add n).symm ▸ hn)
    (bufferNeeds_letters (q := .single) rfl rfl n 0)

/-- An open quotation with 4097 letters in it is not rejected: the last letter is written
behind the buffer. -/
theorem open_line_not_rejected :
    lexer ('\'' :: List.replicate 4097 'a') = none ∧
      EndsOpen ('\'' :: List.replicate 4097 'a') := by
  have hnul : nul ∉ '\'' :: List.replicate 4097 'a' := by
    rw [List.mem_cons, List.mem_replicate]
    decide
  refine ⟨?_, ?_⟩
  · by_contra hlexer
    have hfit := (lexer_isSome_iff _).mp (Option.isSome_iff_ne_none.mpr hlexer)
    rw [beforeNul_eq_self hnul] at hfit
    exact not_wordsFit_quoted (by decide) hfit.1
  · intro hend
    rw [List.foldl_cons, show QuoteStatus.next .unquoted '\'' = .single from rfl,
      foldl_letters rfl] at hend
    cases hend

end ShellXv6.Shell
