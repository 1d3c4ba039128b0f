import Mathlib.Data.List.TakeWhile
import ShellXv6.Shell.Lexer

/-!
# The lexer on the rest of the line

`scan` is the loop of `lexer` as a function of its state, the pending word and
the characters that are still to be read; it returns only the tokens appended
from here on.  The loop computes it for every line that an `int` can index, and
has no result for a longer one.
-/

namespace ShellXv6.Shell

open Lexer IntConversion

/-! ## Actions -/

/-- A character that stands for itself inside an unquoted word. -/
def wordChar (c : Char) : Bool := !endsWord c && c != '"' && c != '\'' && c != '\\'

/-- The branches of `action`, in its order. -/
inductive Acts : LexerState → Char → Char → Action → Prop
  | stop {d : Char} : Acts .START nul d .stop
  | blank {c d : Char} : c ≠ nul → isBlank c = true → Acts .START c d (.goto .START)
  | pipe {d : Char} : Acts .START '|' d (.append "|" .OP_PIPE 1)
  | amp {d : Char} : Acts .START '&' d (.append "&" .OP_AMP 1)
  | semi {d : Char} : Acts .START ';' d (.append ";" .OP_SEMI 1)
  | ltlt : Acts .START '<' '<' (.append "<<" .OP_LTLT 2)
  | lt {d : Char} : d ≠ '<' → Acts .START '<' d (.append "<" .OP_LT 1)
  | gtgt : Acts .START '>' '>' (.append ">>" .OP_GTGT 2)
  | gt {d : Char} : d ≠ '>' → Acts .START '>' d (.append ">" .OP_GT 1)
  | dquote {st : LexerState} {d : Char} :
      st = .START ∨ st = .IN_WORD → Acts st '"' d (.goto .IN_DQUOTE)
  | squote {st : LexerState} {d : Char} :
      st = .START ∨ st = .IN_WORD → Acts st '\'' d (.goto .IN_SQUOTE)
  | escape {st : LexerState} {d : Char} :
      st = .START ∨ st = .IN_WORD → Acts st '\\' d (.goto .AFTER_ESCAPE)
  | char {st : LexerState} {c d : Char} :
      st = .START ∧ isBlank c = false ∨ st = .IN_WORD → wordChar c = true →
        Acts st c d (.put .IN_WORD [c] 1)
  | endWord {c d : Char} : endsWord c = true → Acts .IN_WORD c d .endWord
  | dfail {d : Char} : Acts .IN_DQUOTE nul d .fail
  | dclose {d : Char} : Acts .IN_DQUOTE '"' d (.goto .IN_WORD)
  | dquoted {d : Char} : d = '"' ∨ d = '\\' → Acts .IN_DQUOTE '\\' d (.put .IN_DQUOTE [d] 2)
  | dlast : Acts .IN_DQUOTE '\\' nul .fail
  | dkept {d : Char} : d ≠ nul → Acts .IN_DQUOTE '\\' d (.put .IN_DQUOTE ['\\', d] 2)
  | dchar {c d : Char} :
      c ≠ nul → c ≠ '"' → c ≠ '\\' → Acts .IN_DQUOTE c d (.put .IN_DQUOTE [c] 1)
  | sfail {d : Char} : Acts .IN_SQUOTE nul d .fail
  | sclose {d : Char} : Acts .IN_SQUOTE '\'' d (.goto .IN_WORD)
  | schar {c d : Char} : c ≠ nul → c ≠ '\'' → Acts .IN_SQUOTE c d (.put .IN_SQUOTE [c] 1)
  | efail {d : Char} : Acts .AFTER_ESCAPE nul d .fail
  | escaped {c d : Char} : c ≠ nul → Acts .AFTER_ESCAPE c d (.put .IN_WORD [c] 1)

theorem Acts.ite {st : LexerState} {c d : Char} {p : Prop} [Decidable p] {a b : Action}
    (ht : p → Acts st c d a) (he : ¬p → Acts st c d b) : Acts st c d (if p then a else b) := by
  by_cases h : p
  · rw [if_pos h]
    exact ht h
  · rw [if_neg h]
    exact he h

theorem acts (st : LexerState) (c d : Char) : Acts st c d (action st c d) := by
  cases st with
  | START =>
      refine .ite (fun h => h ▸ .stop) fun hnul => .ite (.blank hnul) fun hblank =>
        .ite (fun h => h ▸ .pipe) fun hpipe => .ite (fun h => h ▸ .amp) fun hamp =>
        .ite (fun h => h ▸ .semi) fun hsemi => .ite (fun h => ?_) fun hlt => .ite (fun h => ?_)
        fun hgt => .ite (fun h => h ▸ .dquote (.inl rfl)) fun hd =>
        .ite (fun h => h ▸ .squote (.inl rfl)) fun hs =>
        .ite (fun h => h ▸ .escape (.inl rfl)) fun he => ?_
      · subst h
        refine .ite (fun h => ?_) .lt
        subst h
        exact .ltlt
      · subst h
        refine .ite (fun h => ?_) .gt
        subst h
        exact .gtgt
      · refine .char (.inl ⟨rfl, Bool.eq_false_iff.mpr hblank⟩) ?_
        simp_all [wordChar, endsWord, isBlank]
  | IN_WORD =>
      refine .ite .endWord fun hend => .ite (fun h => h ▸ .dquote (.inr rfl)) fun hd =>
        .ite (fun h => h ▸ .squote (.inr rfl)) fun hs =>
        .ite (fun h => h ▸ .escape (.inr rfl)) fun he => ?_
      exact .char (.inr rfl) (by simp_all [wordChar])
  | IN_DQUOTE =>
      refine .ite (fun h => h ▸ .dfail) fun hnul => .ite (fun h => h ▸ .dclose) fun hd =>
        .ite (fun h => ?_) (.dchar hnul hd)
      subst h
      exact .ite .dquoted fun _ => .ite (fun h => h ▸ .dlast) .dkept
  | IN_SQUOTE =>
      exact .ite (fun h => h ▸ .sfail) fun hnul => .ite (fun h => h ▸ .sclose) (.schar hnul)
  | AFTER_ESCAPE => exact .ite (fun h => h ▸ .efail) .escaped

theorem acts_of_eq {st : LexerState} {c d : Char} {a : Action} (h : action st c d = a) :
    Acts st c d a :=
  h ▸ acts st c d

theorem action_stop {st : LexerState} {c d : Char} (h : action st c d = .stop) :
    st = .START ∧ c = nul := by
  cases acts_of_eq h
  exact ⟨rfl, rfl⟩

theorem action_fail {st : LexerState} {c d : Char} (h : action st c d = .fail) :
    st ≠ .START ∧ st ≠ .IN_WORD := by
  cases acts_of_eq h <;> exact ⟨nofun, nofun⟩

/-- An action that moves on stands at a character of the line. -/
theorem action_goto {st s : LexerState} {c d : Char} (h : action st c d = .goto s) : c ≠ nul := by
  cases acts_of_eq h with
  | blank hc => exact hc
  | _ => decide

theorem action_goto_start {st : LexerState} {c d : Char} (h : action st c d = .goto .START) :
    st = .START ∧ isBlank c = true := by
  cases acts_of_eq h with
  | blank _ hc => exact ⟨rfl, hc⟩

/-- An action goes one character on, or two if it has seen that the second is no NUL. -/
def Advances (d : Char) (n : ℕ) : Prop := n = 1 ∨ n = 2 ∧ d ≠ nul

theorem Advances.pos {d : Char} {n : ℕ} (h : Advances d n) : 0 < n := by
  rcases h with rfl | ⟨rfl, -⟩ <;> decide

theorem action_append {st : LexerState} {c d : Char} {content : String} {type : TokenType} {n : ℕ}
    (h : action st c d = .append content type n) : c ≠ nul ∧ Advances d n := by
  cases acts_of_eq h with
  | ltlt => exact ⟨by decide, .inr ⟨rfl, by decide⟩⟩
  | gtgt => exact ⟨by decide, .inr ⟨rfl, by decide⟩⟩
  | _ => exact ⟨by decide, .inl rfl⟩

theorem wordChar_ne_nul {c : Char} (h : wordChar c = true) : c ≠ nul := by
  rintro rfl
  cases h

theorem action_put {st s : LexerState} {c d : Char} {cs : List Char} {n : ℕ}
    (h : action st c d = .put s cs n) : c ≠ nul ∧ Advances d n := by
  cases acts_of_eq h with
  | char _ hc => exact ⟨wordChar_ne_nul hc, .inl rfl⟩
  | dquoted hd =>
      refine ⟨by decide, .inr ⟨rfl, ?_⟩⟩
      rcases hd with rfl | rfl <;> decide
  | dkept hd => exact ⟨by decide, .inr ⟨rfl, hd⟩⟩
  | dchar hnul => exact ⟨hnul, .inl rfl⟩
  | schar hnul => exact ⟨hnul, .inl rfl⟩
  | escaped hnul => exact ⟨hnul, .inl rfl⟩

theorem action_endWord {st : LexerState} {c d : Char} (h : action st c d = .endWord) :
    st = .IN_WORD := by
  cases acts_of_eq h
  rfl

theorem action_fail_nul {st : LexerState} {c d : Char} (h : action st c d = .fail) :
    c = nul ∨ looksAhead st c = true ∧ d = nul := by
  cases acts_of_eq h with
  | dlast => exact .inr ⟨rfl, rfl⟩
  | _ => exact .inl rfl

theorem looksAhead_ne_nul {st : LexerState} {c : Char} (h : looksAhead st c = true) : c ≠ nul := by
  rintro rfl
  cases st <;> cases h

theorem action_of_not_looksAhead {st : LexerState} {c : Char} (h : looksAhead st c = false)
    (d d' : Char) : action st c d = action st c d' := by
  cases st with
  | START =>
      simp only [looksAhead, Bool.or_eq_false_iff, decide_eq_false_iff_not] at h
      simp only [action, h.1, h.2, if_false]
  | IN_DQUOTE =>
      simp only [looksAhead, decide_eq_false_iff_not] at h
      simp only [action, h, if_false]
  | _ => rfl

/-! ## The scan -/

/-- A token in front of what the rest of the line gives. -/
def emit (t : Token) (r : Option (List Token × Bool)) : Option (List Token × Bool) :=
  r.map fun x => (t :: x.1, x.2)

theorem length_drop_lt {rest : List Char} {n : ℕ} (h : rest.headD nul ≠ nul) (hn : 0 < n) :
    (rest.drop n).length < rest.length := by
  cases rest with
  | nil => exact absurd rfl h
  | cons c cs =>
      rw [List.length_drop, List.length_cons]
      omega

def scan (st : LexerState) (buffer rest : List Char) : Option (List Token × Bool) :=
  match _h : action st (rest.headD nul) (rest.tail.headD nul) with
  | .stop => some ([], true)
  | .fail => some ([], false)
  | .goto s => scan s buffer (rest.drop 1)
  | .append content type n => emit ⟨content.toList, type⟩ (scan st buffer (rest.drop n))
  | .put s cs n =>
      if buffer.length + cs.length ≤ bufferSize then scan s (buffer ++ cs) (rest.drop n) else none
  | .endWord =>
      if buffer.length < bufferSize then emit ⟨buffer, .WORD⟩ (scan .START [] rest) else none
termination_by (rest.length, if st = .IN_WORD then 1 else 0)
decreasing_by
  · exact Prod.Lex.left _ _ (length_drop_lt (action_goto _h) Nat.one_pos)
  · exact Prod.Lex.left _ _ (length_drop_lt (action_append _h).1 (action_append _h).2.pos)
  · exact Prod.Lex.left _ _ (length_drop_lt (action_put _h).1 (action_put _h).2.pos)
  · have hst := action_endWord _h
    subst hst
    exact Prod.Lex.right _ Nat.zero_lt_one

section

variable {st s : LexerState} {buffer rest : List Char}

theorem scan_goto (h : action st (rest.headD nul) (rest.tail.headD nul) = .goto s) :
    scan st buffer rest = scan s buffer (rest.drop 1) := by
  rw [scan, h]

theorem scan_append (content : String) {type : TokenType} (n : ℕ)
    (h : action st (rest.headD nul) (rest.tail.headD nul) = .append content type n) :
    scan st buffer rest = emit ⟨content.toList, type⟩ (scan st buffer (rest.drop n)) := by
  rw [scan, h]

theorem scan_put (cs : List Char) (n : ℕ)
    (h : action st (rest.headD nul) (rest.tail.headD nul) = .put s cs n)
    (hfit : buffer.length + cs.length ≤ bufferSize) :
    scan st buffer rest = scan s (buffer ++ cs) (rest.drop n) := by
  rw [scan, h]
  exact if_pos hfit

theorem scan_endWord (h : action st (rest.headD nul) (rest.tail.headD nul) = .endWord)
    (hfit : buffer.length < bufferSize) :
    scan st buffer rest = emit ⟨buffer, .WORD⟩ (scan .START [] rest) := by
  rw [scan, h]
  exact if_pos hfit

end

/-! ## Reading the line -/

theorem beforeNul_nul (rest : List Char) (h : rest.headD nul = nul) : beforeNul rest = [] := by
  cases rest with
  | nil => rfl
  | cons c cs =>
      have hc : c = nul := h
      simp [beforeNul, hc]

theorem beforeNul_cons {rest : List Char} (h : rest.headD nul ≠ nul) :
    beforeNul rest = rest.headD nul :: beforeNul rest.tail := by
  cases rest with
  | nil => exact absurd rfl h
  | cons c cs =>
      have hc : c ≠ nul := h
      simp [beforeNul, hc]

theorem beforeNul_eq_self {line : List Char} (h : nul ∉ line) : beforeNul line = line := by
  rw [beforeNul, List.takeWhile_eq_self_iff]
  intro c hc
  exact bne_iff_ne.mpr fun hnul => h (hnul ▸ hc)

theorem headD_beforeNul (rest : List Char) : (beforeNul rest).headD nul = rest.headD nul := by
  by_cases h : rest.headD nul = nul
  · rw [beforeNul_nul rest h, h]
    rfl
  · rw [beforeNul_cons h]
    rfl

theorem length_beforeNul_le (line : List Char) : (beforeNul line).length ≤ line.length :=
  (List.takeWhile_prefix _).length_le

theorem charAt_natCast {line : List Char} {i : ℕ} (hi : i ≤ line.length) :
    charAt line i = some ((line.drop i).headD nul) := by
  rw [charAt, if_pos ⟨by omega, by omega⟩, Int.toNat_natCast, List.getD_eq_getElem?_getD,
    ← List.head?_drop, List.headD_eq_head?_getD]

/-- In front of the NUL there is another character. -/
theorem headD_drop_ne_iff {line : List Char} {i : ℕ} (hi : i ≤ (beforeNul line).length) :
    (line.drop i).headD nul ≠ nul ↔ i < (beforeNul line).length := by
  induction line generalizing i with
  | nil => simp [beforeNul]
  | cons c cs ih =>
      by_cases hc : c = nul
      · have hnil : beforeNul (c :: cs) = [] := beforeNul_nul _ hc
        rw [hnil, List.length_nil, Nat.le_zero] at hi
        rw [hnil, hi]
        exact iff_of_false (fun h => h hc) (Nat.lt_irrefl 0)
      · have hcons : beforeNul (c :: cs) = c :: beforeNul cs := beforeNul_cons hc
        rw [hcons, List.length_cons] at hi ⊢
        cases i with
        | zero => exact iff_of_true hc (Nat.succ_pos _)
        | succ i => exact (ih (Nat.le_of_succ_le_succ hi)).trans Nat.succ_lt_succ_iff.symm

/-! ## Lines that an `int` can index -/

section

variable {line : List Char} {v : Vars} {i : ℕ}

theorem curr_char_advance {n : ℕ} (hm : (beforeNul line).length < 2 ^ 31) (hv : v.curr_char = i)
    (hn : i + n ≤ (beforeNul line).length) : (v.advance n).curr_char = (i + n : ℕ) := by
  show toInt (v.curr_char + n) = (i + n : ℕ)
  rw [hv, ← Nat.cast_add, toInt_of_lt (by omega)]

theorem chars_eq (hm : (beforeNul line).length < 2 ^ 31) (hv : v.curr_char = i)
    (hi : i ≤ (beforeNul line).length) :
    chars line v = some ((line.drop i).headD nul,
      if looksAhead v.curr_state ((line.drop i).headD nul) then (line.drop i).tail.headD nul
      else nul) := by
  have hle := length_beforeNul_le line
  have hc : charAt line v.curr_char = some ((line.drop i).headD nul) := by
    rw [hv, charAt_natCast (by omega)]
  rw [chars, hc]
  by_cases hlook : looksAhead v.curr_state ((line.drop i).headD nul) = true
  · have hlt := (headD_drop_ne_iff hi).mp (looksAhead_ne_nul hlook)
    have hd : charAt line (v.advance 1).curr_char = some ((line.drop i).tail.headD nul) := by
      rw [curr_char_advance hm hv hlt, charAt_natCast (by omega), List.tail_drop]
    simp only [Option.bind_eq_bind, Option.bind_some, nextChar, if_pos hlook, hd]
    rfl
  · simp only [Option.bind_eq_bind, Option.bind_some, nextChar, if_neg hlook]
    rfl

theorem iterate_eq (hm : (beforeNul line).length < 2 ^ 31) (hv : v.curr_char = i)
    (hi : i ≤ (beforeNul line).length) :
    iterate line v = perform v
      (action v.curr_state ((line.drop i).headD nul) ((line.drop i).tail.headD nul)) := by
  rw [iterate, chars_eq hm hv hi]
  by_cases hlook : looksAhead v.curr_state ((line.drop i).headD nul) = true
  · simp only [if_pos hlook]
  · simp only [if_neg hlook]
    rw [action_of_not_looksAhead (Bool.eq_false_iff.mpr hlook)]

/-- What is behind a step is still in the line. -/
theorem add_le_length {n : ℕ} (hi : i ≤ (beforeNul line).length)
    (hc : (line.drop i).headD nul ≠ nul)
    (hn : Advances ((line.drop i).tail.headD nul) n) : i + n ≤ (beforeNul line).length := by
  have hlt := (headD_drop_ne_iff hi).mp hc
  rcases hn with rfl | ⟨rfl, hd⟩
  · exact hlt
  · rw [List.tail_drop] at hd
    exact (headD_drop_ne_iff hlt).mp hd

end

/-! ## The loop computes the scan -/

/-- What the loop still has to do: two iterations for a character, one to end a
word, one to stop. -/
def work (line : List Char) (st : LexerState) (i : ℕ) : ℕ :=
  2 * (line.length - i) + if st = .IN_WORD then 2 else 1

theorem work_pos (line : List Char) (st : LexerState) (i : ℕ) : 0 < work line st i := by
  unfold work
  split_ifs <;> omega

/-- A step that reads a character leaves less to do, whatever the new state. -/
theorem work_le {line : List Char} {st s : LexerState} {i n fuel : ℕ} (hn : 0 < n)
    (hi : i + n ≤ (beforeNul line).length) (hfuel : work line st i ≤ fuel + 1) :
    work line s (i + n) ≤ fuel := by
  have hle := length_beforeNul_le line
  unfold work at hfuel ⊢
  split_ifs at hfuel ⊢ <;> omega

theorem loop_eq_scan {line : List Char} (hm : (beforeNul line).length < 2 ^ 31) (fuel : ℕ)
    (v : Vars) (i : ℕ) (hv : v.curr_char = i) (hi : i ≤ (beforeNul line).length)
    (hok : v.ok = true) (hfuel : work line v.curr_state i ≤ fuel) :
    loop line fuel v = (scan v.curr_state v.buffer (line.drop i)).map
      fun r => (v.tokens ++ r.1, r.2) := by
  induction fuel generalizing v i with
  | zero => exact absurd (work_pos line v.curr_state i) (by omega)
  | succ fuel ih =>
      rw [loop, iterate_eq hm hv hi, scan]
      cases hact : action v.curr_state ((line.drop i).headD nul)
          ((line.drop i).tail.headD nul) with
      | stop => simp [perform, finish, (action_stop hact).1, hok]
      | fail =>
          obtain ⟨hstart, hword⟩ := action_fail hact
          simp [perform, finish, hstart, hword]
      | goto s =>
          have hn := add_le_length hi (action_goto hact) (.inl rfl)
          have hrun := ih { v.advance 1 with curr_state := s } (i + 1)
            (curr_char_advance hm hv hn) hn hok (work_le Nat.one_pos hn hfuel)
          simpa [perform, Vars.advance] using hrun
      | append content type n =>
          obtain ⟨hne, hsteps⟩ := action_append hact
          have hn := add_le_length hi hne hsteps
          have hrun := ih { v.advance n with tokens := v.tokens ++ [⟨content.toList, type⟩] }
            (i + n) (curr_char_advance hm hv hn) hn hok (work_le hsteps.pos hn hfuel)
          simpa [perform, Vars.advance, emit, Function.comp_def] using hrun
      | put s cs n =>
          obtain ⟨hne, hsteps⟩ := action_put hact
          have hn := add_le_length hi hne hsteps
          have hrun := ih { v.advance n with curr_state := s, buffer := v.buffer ++ cs }
            (i + n) (curr_char_advance hm hv hn) hn hok (work_le hsteps.pos hn hfuel)
          by_cases hfit : v.buffer.length + cs.length ≤ bufferSize
          · simpa [perform, Vars.advance, hfit] using hrun
          · simp [perform, hfit]
      | endWord =>
          have hst := action_endWord hact
          have hrun := ih { v with
              curr_state := .START, buffer := [], tokens := v.tokens ++ [⟨v.buffer, .WORD⟩] } i hv
            hi hok (by simp [work, hst] at hfuel ⊢; omega)
          by_cases hfit : v.buffer.length < bufferSize
          · simpa [perform, hfit, emit, Function.comp_def] using hrun
          · simp [perform, hfit]

theorem lexer_eq_scan {line : List Char} (hm : (beforeNul line).length < 2 ^ 31) :
    lexer line = scan .START [] line := by
  have hrun := loop_eq_scan hm (2 * line.length + 2) start 0 rfl (Nat.zero_le _) rfl
    (by simp [work, start])
  simpa [lexer, start] using hrun

/-! ## Longer lines -/

section

variable {line : List Char} {v w : Vars}

theorem perform_left {a : Action} (h : perform v a = .left w) :
    a = .stop ∧ w = v ∨ a = .fail ∧ w = { v with ok := false } := by
  cases a with
  | stop =>
      cases h
      exact .inl ⟨rfl, rfl⟩
  | fail =>
      cases h
      exact .inr ⟨rfl, rfl⟩
  | goto s => cases h
  | append content type n => cases h
  | put s cs n =>
      simp only [perform] at h
      split_ifs at h
  | endWord =>
      simp only [perform] at h
      split_ifs at h

theorem curr_char_perform {a : Action} (hv : v.curr_char < 2 ^ 31) (h : perform v a = .again w) :
    w.curr_char < 2 ^ 31 := by
  cases a with
  | stop => cases h
  | fail => cases h
  | goto s =>
      cases h
      exact toInt_lt _
  | append content type n =>
      cases h
      exact toInt_lt _
  | put s cs n =>
      simp only [perform] at h
      split_ifs at h
      cases h
      exact toInt_lt _
  | endWord =>
      simp only [perform] at h
      split_ifs at h
      cases h
      exact hv

theorem chars_eq_some {c d : Char} (h : chars line v = some (c, d)) :
    charAt line v.curr_char = some c ∧
      (looksAhead v.curr_state c = true → charAt line (v.advance 1).curr_char = some d) := by
  rw [chars] at h
  obtain ⟨c', hc, h⟩ := Option.bind_eq_some_iff.mp h
  obtain ⟨d', hd, h⟩ := Option.bind_eq_some_iff.mp h
  cases h
  exact ⟨hc, fun hlook => by rwa [nextChar, if_pos hlook] at hd⟩

theorem iterate_left (h : iterate line v = .left w) :
    ∃ c d, chars line v = some (c, d) ∧
      (action v.curr_state c d = .stop ∧ w = v ∨
        action v.curr_state c d = .fail ∧ w = { v with ok := false }) := by
  rw [iterate] at h
  split at h
  · next c d hchars => exact ⟨c, d, hchars, perform_left h⟩
  · cases h

theorem curr_char_iterate (hv : v.curr_char < 2 ^ 31) (h : iterate line v = .again w) :
    w.curr_char < 2 ^ 31 := by
  rw [iterate] at h
  split at h
  · exact curr_char_perform hv h
  · cases h

theorem charAt_ne_nul (hm : 2 ^ 31 ≤ (beforeNul line).length) {i : ℤ} (hi : i < 2 ^ 31) :
    charAt line i ≠ some nul := by
  unfold charAt
  split_ifs with hin
  · have hlt : i.toNat < (beforeNul line).length := by omega
    have hne := (headD_drop_ne_iff (Nat.le_of_lt hlt)).mpr hlt
    rw [List.headD_eq_head?_getD, List.head?_drop, ← List.getD_eq_getElem?_getD] at hne
    exact fun h => hne (Option.some.inj h)
  · exact nofun

/-- A line that is too long is never read to its end. -/
theorem iterate_ne_left (hm : 2 ^ 31 ≤ (beforeNul line).length) (hv : v.curr_char < 2 ^ 31) :
    iterate line v ≠ .left w := by
  intro h
  obtain ⟨c, d, hchars, hact⟩ := iterate_left h
  obtain ⟨hc, hd⟩ := chars_eq_some hchars
  have hcne : c ≠ nul := fun heq => charAt_ne_nul hm hv (heq ▸ hc)
  rcases hact with ⟨hstop, -⟩ | ⟨hfail, -⟩
  · exact hcne (action_stop hstop).2
  · rcases action_fail_nul hfail with hnul | ⟨hlook, hnul⟩
    · exact hcne hnul
    · exact charAt_ne_nul hm (toInt_lt _) (hnul ▸ hd hlook)

theorem loop_eq_none (hm : 2 ^ 31 ≤ (beforeNul line).length) (fuel : ℕ)
    (hv : v.curr_char < 2 ^ 31) : loop line fuel v = none := by
  induction fuel generalizing v with
  | zero => rfl
  | succ fuel ih =>
      rw [loop]
      cases hit : iterate line v with
      | left w => exact absurd hit (iterate_ne_left hm hv)
      | again w => exact ih (curr_char_iterate hv hit)
      | undefined => rfl

end

theorem lexer_eq_none {line : List Char} (hm : 2 ^ 31 ≤ (beforeNul line).length) :
    lexer line = none :=
  loop_eq_none hm _ (by decide)

theorem lt_of_lexer {line : List Char} {r : List Token × Bool} (h : lexer line = some r) :
    (beforeNul line).length < 2 ^ 31 := by
  by_contra hge
  rw [lexer_eq_none (Nat.le_of_not_lt hge)] at h
  cases h

theorem scan_of_lexer {line : List Char} {r : List Token × Bool} (h : lexer line = some r) :
    scan .START [] line = some r := by
  rw [← lexer_eq_scan (lt_of_lexer h), h]

end ShellXv6.Shell
