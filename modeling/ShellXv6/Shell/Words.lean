import ShellXv6.Shell.Scan

/-!
# The spans of the tokens

Each token is read from a span of the line.  An operator is its own span; a
word may lose quotes and backslashes, so its span is at least as long as its
content, and equally long only if nothing in it is special.
-/

namespace ShellXv6.Shell

open Lexer

/-- The lexer reads these characters as the word they are, wherever a word may start. -/
def plain (w : List Char) : Bool := w.all wordChar && !isBlank (w.headD ' ')

/-! ## Words -/

/-- From state `st` the characters `r` are read as the rest `w` of a word. -/
inductive Word : LexerState → List Char → List Char → Prop
  | done : Word .IN_WORD [] []
  | char {c : Char} {r w : List Char} :
      wordChar c = true → Word .IN_WORD r w → Word .IN_WORD (c :: r) (c :: w)
  | dquote {r w : List Char} : Word .IN_DQUOTE r w → Word .IN_WORD ('"' :: r) w
  | squote {r w : List Char} : Word .IN_SQUOTE r w → Word .IN_WORD ('\'' :: r) w
  | escape {r w : List Char} : Word .AFTER_ESCAPE r w → Word .IN_WORD ('\\' :: r) w
  | dclose {r w : List Char} : Word .IN_WORD r w → Word .IN_DQUOTE ('"' :: r) w
  | dchar {c : Char} {r w : List Char} :
      c ≠ '"' → c ≠ '\\' → Word .IN_DQUOTE r w → Word .IN_DQUOTE (c :: r) (c :: w)
  | dquoted {c : Char} {r w : List Char} :
      c = '"' ∨ c = '\\' → Word .IN_DQUOTE r w → Word .IN_DQUOTE ('\\' :: c :: r) (c :: w)
  | dkept {c : Char} {r w : List Char} :
      Word .IN_DQUOTE r w → Word .IN_DQUOTE ('\\' :: c :: r) ('\\' :: c :: w)
  | sclose {r w : List Char} : Word .IN_WORD r w → Word .IN_SQUOTE ('\'' :: r) w
  | schar {c : Char} {r w : List Char} :
      c ≠ '\'' → Word .IN_SQUOTE r w → Word .IN_SQUOTE (c :: r) (c :: w)
  | escaped {c : Char} {r w : List Char} : Word .IN_WORD r w → Word .AFTER_ESCAPE (c :: r) (c :: w)

/-- An open quote still has to be closed. -/
def toClose : LexerState → ℕ
  | .IN_DQUOTE => 1
  | .IN_SQUOTE => 1
  | _ => 0

theorem Word.length_le {st : LexerState} {r w : List Char} (h : Word st r w) :
    w.length + toClose st ≤ r.length := by
  induction h <;> simp only [toClose, List.length_cons, List.length_nil] at * <;> omega

theorem Word.subset {st : LexerState} {r w : List Char} (h : Word st r w) : w ⊆ r := by
  induction h <;> simp_all

theorem Word.ne_nil {st : LexerState} {r w : List Char} (h : Word st r w) (hst : st ≠ .IN_WORD) :
    r ≠ [] := by
  rintro rfl
  cases h
  exact hst rfl

/-- A word that loses no character has only ordinary ones. -/
theorem Word.eq_of_length_le {r w : List Char} (h : Word .IN_WORD r w)
    (hlen : r.length ≤ w.length) : w = r ∧ ∀ c ∈ r, wordChar c = true := by
  generalize hst : LexerState.IN_WORD = st at h
  induction h with
  | done => simp
  | char hc _ ih =>
      obtain ⟨heq, hall⟩ := ih (by simpa using hlen) hst
      exact ⟨by rw [heq], by simpa [hc] using hall⟩
  | dquote hw _ =>
      have := hw.length_le
      simp only [List.length_cons] at hlen
      omega
  | squote hw _ =>
      have := hw.length_le
      simp only [List.length_cons] at hlen
      omega
  | escape hw _ =>
      have := hw.length_le
      simp only [List.length_cons] at hlen
      omega
  | _ => cases hst

/-- The blank at the end of the span is an escaped one. -/
def EscapedBlank (st : LexerState) (r₀ w : List Char) : Prop :=
  (∃ w₀, w = w₀ ++ [' ']) ∧ (st = .AFTER_ESCAPE ∧ r₀ = [] ∨ ∃ r₁, r₀ = r₁ ++ ['\\'])

theorem EscapedBlank.cons {st st' : LexerState} {r₀ w w' : List Char} {c : Char}
    (h : EscapedBlank st r₀ w) (hst : st = .AFTER_ESCAPE → c = '\\') (hw : w <:+ w') :
    EscapedBlank st' (c :: r₀) w' := by
  obtain ⟨⟨w₀, rfl⟩, h⟩ := h
  obtain ⟨w₁, rfl⟩ := hw
  refine ⟨⟨w₁ ++ w₀, by simp⟩, Or.inr ?_⟩
  rcases h with ⟨rfl, rfl⟩ | ⟨r₁, rfl⟩
  · exact ⟨[], by rw [hst rfl]; rfl⟩
  · exact ⟨c :: r₁, rfl⟩

theorem snoc_of_cons {c d : Char} {r r₀ : List Char} (h : c :: r = r₀ ++ [d])
    (hc : r ≠ [] ∨ c ≠ d) : ∃ r₁, r₀ = c :: r₁ ∧ r = r₁ ++ [d] := by
  cases r₀ with
  | nil =>
      simp only [List.nil_append, List.cons.injEq] at h
      rcases hc with hc | hc
      · exact absurd h.2 hc
      · exact absurd h.1 hc
  | cons e r₁ =>
      simp only [List.cons_append, List.cons.injEq] at h
      exact ⟨r₁, by rw [h.1], h.2⟩

theorem Word.escapedBlank {st : LexerState} {r w r₀ : List Char} (h : Word st r w)
    (hr : r = r₀ ++ [' ']) : EscapedBlank st r₀ w := by
  induction h generalizing r₀ with
  | done => simp at hr
  | char hc _ ih =>
      obtain ⟨r₁, rfl, hr₁⟩ := snoc_of_cons hr (Or.inr (by rintro rfl; cases hc))
      exact (ih hr₁).cons nofun (List.suffix_cons ..)
  | dquote _ ih =>
      obtain ⟨r₁, rfl, hr₁⟩ := snoc_of_cons hr (Or.inr (by decide))
      exact (ih hr₁).cons nofun List.suffix_rfl
  | squote _ ih =>
      obtain ⟨r₁, rfl, hr₁⟩ := snoc_of_cons hr (Or.inr (by decide))
      exact (ih hr₁).cons nofun List.suffix_rfl
  | escape _ ih =>
      obtain ⟨r₁, rfl, hr₁⟩ := snoc_of_cons hr (Or.inr (by decide))
      exact (ih hr₁).cons (fun _ => rfl) List.suffix_rfl
  | dclose _ ih =>
      obtain ⟨r₁, rfl, hr₁⟩ := snoc_of_cons hr (Or.inr (by decide))
      exact (ih hr₁).cons nofun List.suffix_rfl
  | dchar _ _ hw ih =>
      obtain ⟨r₁, rfl, hr₁⟩ := snoc_of_cons hr (Or.inl (hw.ne_nil nofun))
      exact (ih hr₁).cons nofun (List.suffix_cons ..)
  | @dquoted c r w _ hw ih =>
      obtain ⟨r₁, rfl, hr₁⟩ := snoc_of_cons hr (Or.inr (by decide))
      obtain ⟨r₂, rfl, hr₂⟩ := snoc_of_cons hr₁ (Or.inl (hw.ne_nil nofun))
      have hquoted : EscapedBlank .IN_DQUOTE (c :: r₂) (c :: w) :=
        (ih hr₂).cons nofun (List.suffix_cons ..)
      exact hquoted.cons nofun List.suffix_rfl
  | @dkept c r w hw ih =>
      obtain ⟨r₁, rfl, hr₁⟩ := snoc_of_cons hr (Or.inr (by decide))
      obtain ⟨r₂, rfl, hr₂⟩ := snoc_of_cons hr₁ (Or.inl (hw.ne_nil nofun))
      have hkept : EscapedBlank .IN_DQUOTE (c :: r₂) (c :: w) :=
        (ih hr₂).cons nofun (List.suffix_cons ..)
      exact hkept.cons nofun (List.suffix_cons ..)
  | sclose _ ih =>
      obtain ⟨r₁, rfl, hr₁⟩ := snoc_of_cons hr (Or.inr (by decide))
      exact (ih hr₁).cons nofun List.suffix_rfl
  | schar _ hw ih =>
      obtain ⟨r₁, rfl, hr₁⟩ := snoc_of_cons hr (Or.inl (hw.ne_nil nofun))
      exact (ih hr₁).cons nofun (List.suffix_cons ..)
  | @escaped c r w hw ih =>
      cases r₀ with
      | nil =>
          obtain ⟨rfl, rfl⟩ := List.cons.inj hr
          cases hw
          exact ⟨⟨[], rfl⟩, Or.inl ⟨rfl, rfl⟩⟩
      | cons e r₁ =>
          obtain ⟨rfl, hr₁⟩ := List.cons.inj hr
          exact (ih hr₁).cons nofun (List.suffix_cons ..)

/-! ## The first token -/

theorem emit_eq_some {t : Token} {r : Option (List Token × Bool)} {toks : List Token} {ok : Bool} :
    emit t r = some (toks, ok) ↔ ∃ ts, r = some (ts, ok) ∧ toks = t :: ts := by
  cases r with
  | none => simp [emit]
  | some x =>
      obtain ⟨ts, b⟩ := x
      simp only [emit, Option.map_some, Option.some.injEq, Prod.mk.injEq]
      constructor
      · rintro ⟨rfl, rfl⟩
        exact ⟨ts, ⟨rfl, rfl⟩, rfl⟩
      · rintro ⟨_, ⟨rfl, rfl⟩, rfl⟩
        exact ⟨rfl, rfl⟩

/-- Once a token has begun, `START` reads on like `IN_WORD`. -/
def inToken : LexerState → LexerState
  | .START => .IN_WORD
  | st => st

theorem action_append_start {st : LexerState} {c d : Char} {content : String} {type : TokenType}
    {n : ℕ} (h : action st c d = .append content type n) : st = .START := by
  cases acts_of_eq h <;> rfl

theorem action_put_ne {st s : LexerState} {c d : Char} {cs : List Char} {n : ℕ}
    (h : action st c d = .put s cs n) : s ≠ .START := by
  cases acts_of_eq h <;> exact nofun

theorem inToken_of_or {st : LexerState} (h : st = .START ∨ st = .IN_WORD) :
    inToken st = .IN_WORD := by
  rcases h with rfl | rfl <;> rfl

theorem word_of_goto {st s : LexerState} {rest r w : List Char}
    (h : action st (rest.headD nul) (rest.tail.headD nul) = .goto s) (hs : s ≠ .START)
    (hw : Word s r w) : Word (inToken st) (rest.take 1 ++ r) w := by
  cases rest with
  | nil => exact absurd rfl (action_goto h)
  | cons c cs =>
      have hacts : Acts st c (cs.headD nul) (.goto s) := acts_of_eq h
      generalize cs.headD nul = d at hacts
      cases hacts with
      | blank => exact absurd rfl hs
      | dquote hst => exact inToken_of_or hst ▸ hw.dquote
      | squote hst => exact inToken_of_or hst ▸ hw.squote
      | escape hst => exact inToken_of_or hst ▸ hw.escape
      | dclose => exact hw.dclose
      | sclose => exact hw.sclose

theorem word_of_put {st s : LexerState} {rest cs r w : List Char} {n : ℕ}
    (h : action st (rest.headD nul) (rest.tail.headD nul) = .put s cs n) (hw : Word s r w) :
    Word (inToken st) (rest.take n ++ r) (cs ++ w) := by
  cases rest with
  | nil => exact absurd rfl (action_put h).1
  | cons c rest =>
      have hacts : Acts st c (rest.headD nul) (.put s cs n) := acts_of_eq h
      generalize hd : rest.headD nul = d at hacts
      cases hacts with
      | char hst hc => exact inToken_of_or (hst.imp_left And.left) ▸ hw.char hc
      | dquoted hquote =>
          cases rest with
          | nil =>
              subst hd
              rcases hquote with hquote | hquote <;> cases hquote
          | cons e rest =>
              obtain rfl : e = d := hd
              exact hw.dquoted hquote
      | dkept hnul =>
          cases rest with
          | nil => exact absurd hd.symm hnul
          | cons e rest =>
              obtain rfl : e = d := hd
              exact hw.dkept
      | dchar _ hquote hslash => exact hw.dchar hquote hslash
      | schar _ hquote => exact hw.schar hquote
      | escaped => exact hw.escaped

theorem inToken_of_ne {st : LexerState} (h : st ≠ .START) : inToken st = st := by
  cases st <;> simp_all [inToken]

/-- A scan that stands inside a word reads the rest of it first. -/
theorem scan_word {st : LexerState} {buffer rest : List Char} {toks : List Token}
    (hst : st ≠ .START) (h : scan st buffer rest = some (toks, true)) :
    ∃ r w rest' ts, rest = r ++ rest' ∧ Word st r w ∧ toks = ⟨buffer ++ w, .WORD⟩ :: ts ∧
      (buffer ++ w).length < bufferSize ∧ scan .START [] rest' = some (ts, true) := by
  induction st, buffer, rest using scan.induct with
  | case1 _ _ _ hact => exact absurd (action_stop hact).1 hst
  | case2 _ _ _ hact =>
      rw [scan, hact] at h
      cases h
  | case3 st buffer rest s hact ih =>
      rw [scan, hact] at h
      have hs : s ≠ .START := by
        rintro rfl
        exact hst (action_goto_start hact).1
      obtain ⟨r, w, rest', ts, hrest, hw, htoks, hlen, hts⟩ := ih hs h
      refine ⟨rest.take 1 ++ r, w, rest', ts, ?_, ?_, htoks, hlen, hts⟩
      · rw [List.append_assoc, ← hrest, List.take_append_drop]
      · rw [← inToken_of_ne hst]
        exact word_of_goto hact hs hw
  | case4 st _ _ _ _ _ hact =>
      exact absurd (action_append_start hact) hst
  | case5 st buffer rest s cs n hact hfit ih =>
      rw [scan, hact] at h
      simp only [hfit, if_true] at h
      obtain ⟨r, w, rest', ts, hrest, hw, htoks, hlen, hts⟩ := ih (action_put_ne hact) h
      refine ⟨rest.take n ++ r, cs ++ w, rest', ts, ?_, ?_, ?_, ?_, hts⟩
      · rw [List.append_assoc, ← hrest, List.take_append_drop]
      · rw [← inToken_of_ne hst]
        exact word_of_put hact hw
      · rw [htoks, List.append_assoc]
      · rw [← List.append_assoc]
        exact hlen
  | case6 _ _ _ _ _ _ hact hfit =>
      rw [scan, hact] at h
      simp only [hfit, if_false] at h
      cases h
  | case7 st buffer rest hact hfit =>
      rw [scan, hact] at h
      simp only [hfit, if_true, emit_eq_some] at h
      obtain ⟨ts, hts, htoks⟩ := h
      obtain rfl := action_endWord hact
      exact ⟨[], [], rest, ts, rfl, .done, by rw [htoks, List.append_nil],
        by rwa [List.append_nil], hts⟩
  | case8 _ _ _ hact hfit =>
      rw [scan, hact] at h
      simp only [hfit, if_false] at h
      cases h

def operators : List Token :=
  [⟨['|'], .OP_PIPE⟩, ⟨['&'], .OP_AMP⟩, ⟨[';'], .OP_SEMI⟩, ⟨['<'], .OP_LT⟩, ⟨['<', '<'], .OP_LTLT⟩,
    ⟨['>'], .OP_GT⟩, ⟨['>', '>'], .OP_GTGT⟩]

/-- The token `t` is read from the characters `r`. -/
inductive Span (t : Token) (r : List Char) : Prop
  | operator (mem : t ∈ operators) (content : r = t.content)
  | word (type : t.type = .WORD) (fits : t.content.length < bufferSize)
      (start : isBlank (r.headD ' ') = false) (content : Word .IN_WORD r t.content)

theorem span_of_append {st : LexerState} {rest : List Char} {content : String} {type : TokenType}
    {n : ℕ} (h : action st (rest.headD nul) (rest.tail.headD nul) = .append content type n) :
    Span ⟨content.toList, type⟩ (rest.take n) := by
  cases rest with
  | nil => exact absurd rfl (action_append h).1
  | cons c rest =>
      have hacts : Acts st c (rest.headD nul) (.append content type n) := acts_of_eq h
      generalize hd : rest.headD nul = d at hacts
      cases hacts with
      | ltlt =>
          cases rest with
          | nil => cases hd
          | cons e rest =>
              obtain rfl : e = '<' := hd
              exact .operator (by decide) rfl
      | gtgt =>
          cases rest with
          | nil => cases hd
          | cons e rest =>
              obtain rfl : e = '>' := hd
              exact .operator (by decide) rfl
      | _ => exact .operator (by decide) rfl

theorem action_start_goto {c d : Char} {s : LexerState} (h : action .START c d = .goto s)
    (hs : s ≠ .START) : isBlank c = false := by
  cases acts_of_eq h with
  | blank => exact absurd rfl hs
  | _ => rfl

theorem action_start_put {c d : Char} {s : LexerState} {cs : List Char} {n : ℕ}
    (h : action .START c d = .put s cs n) : isBlank c = false := by
  cases acts_of_eq h with
  | char hc => exact (hc.resolve_right nofun).2

/-- The first token of a line stands behind the blanks. -/
theorem scan_start {rest : List Char} {t : Token} {ts : List Token}
    (h : scan .START [] rest = some (t :: ts, true)) :
    ∃ b r rest', rest = b ++ r ++ rest' ∧ (∀ c ∈ b, isBlank c = true) ∧ Span t r ∧
      scan .START [] rest' = some (ts, true) := by
  induction rest with
  | nil =>
      rw [scan] at h
      cases h
  | cons c rest ih =>
      cases hact : action .START ((c :: rest).headD nul) ((c :: rest).tail.headD nul) with
      | stop =>
          rw [scan, hact] at h
          cases h
      | fail => exact absurd rfl (action_fail hact).1
      | goto s =>
          rw [scan, hact] at h
          by_cases hs : s = .START
          · subst hs
            obtain ⟨b, r, rest', hrest, hb, hspan, hts⟩ := ih h
            refine ⟨c :: b, r, rest', by rw [hrest]; rfl, ?_, hspan, hts⟩
            exact List.forall_mem_cons.mpr ⟨(action_goto_start hact).2, hb⟩
          · obtain ⟨r, w, rest', ts', hrest, hw, htoks, hlen, hts⟩ := scan_word hs h
            obtain ⟨rfl, rfl⟩ := List.cons.inj htoks
            refine ⟨[], c :: r, rest', ?_, by simp, ?_, hts⟩
            · exact congrArg (c :: ·) hrest
            · exact .word rfl hlen (action_start_goto hact hs) (word_of_goto hact hs hw)
      | append content type n =>
          rw [scan, hact] at h
          obtain ⟨ts', hts, htoks⟩ := emit_eq_some.mp h
          obtain ⟨rfl, rfl⟩ := List.cons.inj htoks
          exact ⟨[], (c :: rest).take n, (c :: rest).drop n, by simp, by simp,
            span_of_append hact, hts⟩
      | put s cs n =>
          rw [scan, hact] at h
          simp only [Option.ite_none_right_eq_some] at h
          obtain ⟨r, w, rest', ts', hrest, hw, htoks, hlen, hts⟩ :=
            scan_word (action_put_ne hact) h.2
          obtain ⟨rfl, rfl⟩ := List.cons.inj htoks
          refine ⟨[], (c :: rest).take n ++ r, rest', ?_, by simp, ?_, hts⟩
          · rw [List.nil_append, List.append_assoc, ← hrest, List.take_append_drop]
          · have hhead : ((c :: rest).take n ++ r).headD ' ' = c := by
              cases n with
              | zero => exact absurd (action_put hact).2.pos (Nat.lt_irrefl 0)
              | succ m => rfl
            refine .word rfl hlen ?_ (word_of_put hact hw)
            rw [hhead]
            exact action_start_put hact
      | endWord => cases action_endWord hact

theorem exists_span_of_scan {rest : List Char} {toks : List Token}
    (h : scan .START [] rest = some (toks, true)) : ∀ t ∈ toks, ∃ r, Span t r ∧ r ⊆ rest := by
  induction toks generalizing rest with
  | nil => simp
  | cons t ts ih =>
      obtain ⟨b, r, rest', rfl, -, hspan, hts⟩ := scan_start h
      intro u hu
      rcases List.mem_cons.mp hu with rfl | hu
      · exact ⟨r, hspan, fun _ hc => by simp [hc]⟩
      · obtain ⟨r', hspan', hsub⟩ := ih hts u hu
        exact ⟨r', hspan', fun _ hc => by simp [hsub hc]⟩

end ShellXv6.Shell
