import ShellXv6.Shell.Parser

/-!
# The language of the grammar check

The automaton of `parser` accepts the empty list and the sentences of a grammar:
commands with separators between, and perhaps a final `&`.  A run that ends well
can be split into the arguments of a command and what follows the separator
behind them.
-/

namespace ShellXv6.Shell

namespace Grammar

/-- `(WORD | R WORD)*` for the redirections `R`. -/
inductive Arguments : List TokenType → Prop
  | nil : Arguments []
  | word {ts : List TokenType} : Arguments ts → Arguments (.WORD :: ts)
  | redirection {r : TokenType} {ts : List TokenType} :
      r.isRedirection = true → Arguments ts → Arguments (r :: .WORD :: ts)

/-- `C = WORD (WORD | R WORD)*` -/
def Command (ts : List TokenType) : Prop := ∃ args, Arguments args ∧ ts = .WORD :: args

/-- `OP_PIPE | OP_SEMI | OP_AMP` -/
def Separates (type : TokenType) : Prop := type = .OP_PIPE ∨ type = .OP_SEMI ∨ type = .OP_AMP

/-- `C ((OP_PIPE | OP_SEMI | OP_AMP) C)*` -/
inductive Commands : List TokenType → Prop
  | single {c : List TokenType} : Command c → Commands c
  | cons {c cs : List TokenType} {type : TokenType} :
      Command c → Separates type → Commands cs → Commands (c ++ type :: cs)

/-- `C ((OP_PIPE | OP_SEMI | OP_AMP) C)* OP_AMP?` -/
def Sentence (ts : List TokenType) : Prop := ∃ cs, Commands cs ∧ (ts = cs ∨ ts = cs ++ [.OP_AMP])

/-! ## Sentences are accepted -/

/-- The automaton on the types of the tokens. -/
def run (q : ParserState) (ts : List TokenType) : ParserState := ts.foldl step q

theorem run_append (q : ParserState) (l₁ l₂ : List TokenType) :
    run q (l₁ ++ l₂) = run (run q l₁) l₂ :=
  List.foldl_append

theorem loop_eq_run (q : ParserState) (toks : List Token) :
    loop q toks = run q (toks.map Token.type) := by
  induction toks generalizing q with
  | nil => rfl
  | cons t toks ih =>
      rw [loop_cons, ih]
      rfl

theorem step_redirection {r : TokenType} (hr : r.isRedirection = true) :
    step .q_arg r = .q_tgt := by
  cases r <;> first | rfl | cases hr

theorem step_separates {type : TokenType} (h : Separates type) :
    AtCommand (step .q_arg type) := by
  rcases h with rfl | rfl | rfl
  · exact Or.inr (Or.inl rfl)
  · exact Or.inr (Or.inl rfl)
  · exact Or.inr (Or.inr rfl)

theorem run_arguments {args : List TokenType} (h : Arguments args) : run .q_arg args = .q_arg := by
  induction h with
  | nil => rfl
  | word _ ih => exact ih
  | @redirection r ts hr _ ih =>
      change run (step (step .q_arg r) .WORD) ts = .q_arg
      rw [step_redirection hr]
      exact ih

theorem run_command {q : ParserState} (hq : AtCommand q) {c : List TokenType} (hc : Command c) :
    run q c = .q_arg := by
  obtain ⟨args, hargs, rfl⟩ := hc
  change run (step q .WORD) args = .q_arg
  rw [step_atCommand hq]
  exact run_arguments hargs

theorem run_commands {q : ParserState} (hq : AtCommand q) {cs : List TokenType}
    (h : Commands cs) : run q cs = .q_arg := by
  induction h generalizing q with
  | single hc => exact run_command hq hc
  | @cons c cs type hc htype _ ih =>
      rw [run_append, run_command hq hc]
      exact ih (step_separates htype)

theorem accepts_sentence {ts : List TokenType} (h : Sentence ts) : Accepts (run .q_start ts) := by
  obtain ⟨cs, hcs, rfl | rfl⟩ := h
  · rw [run_commands (Or.inl rfl) hcs]
    exact Or.inr (Or.inl rfl)
  · rw [run_append, run_commands (Or.inl rfl) hcs]
    exact Or.inr (Or.inr rfl)

/-! ## Accepted lists are sentences -/

theorem Arguments.append {l₁ l₂ : List TokenType} (h₁ : Arguments l₁) (h₂ : Arguments l₂) :
    Arguments (l₁ ++ l₂) := by
  induction h₁ with
  | nil => exact h₂
  | word _ ih => exact .word ih
  | redirection hr _ ih => exact .redirection hr ih

theorem run_error (ts : List TokenType) : run .q_error ts = .q_error := by
  induction ts with
  | nil => rfl
  | cons t ts ih => exact ih

/-- A token that the automaton does not expect is fatal. -/
theorem step_ne_error {q : ParserState} {t : TokenType} {ts : List TokenType}
    (h : Accepts (run q (t :: ts))) : step q t ≠ .q_error := by
  intro herror
  change Accepts (run (step q t) ts) at h
  rw [herror, run_error] at h
  exact not_accepts_error h

theorem eq_word_of_ne_arg {q : ParserState} {t : TokenType} (hq : q ≠ .q_arg)
    (h : step q t ≠ .q_error) : t = .WORD := by
  by_contra ht
  apply h
  cases q with
  | q_arg => exact absurd rfl hq
  | q_error => rfl
  | q_start | q_cmd | q_tgt | q_bg => exact if_neg ht

/-- What may follow the arguments of a command. -/
theorem step_arg_cases {t : TokenType} (h : step .q_arg t ≠ .q_error) :
    t = .WORD ∨ t.isRedirection = true ∨ Separates t := by
  cases t with
  | WORD => exact Or.inl rfl
  | OP_LT | OP_LTLT | OP_GT | OP_GTGT => exact Or.inr (Or.inl rfl)
  | OP_PIPE => exact Or.inr (Or.inr (Or.inl rfl))
  | OP_SEMI => exact Or.inr (Or.inr (Or.inr (Or.inl rfl)))
  | OP_AMP => exact Or.inr (Or.inr (Or.inr (Or.inr rfl)))

theorem not_accepts_tgt : ¬Accepts .q_tgt := by
  rintro (h | h | h) <;> cases h

/-- A command list may start with a command in front of a separator. -/
theorem Sentence.cons {c ts : List TokenType} {type : TokenType} (hc : Command c)
    (htype : Separates type) (h : Sentence ts) : Sentence (c ++ type :: ts) := by
  obtain ⟨cs, hcs, rfl | rfl⟩ := h
  · exact ⟨_, .cons hc htype hcs, Or.inl rfl⟩
  · refine ⟨_, .cons hc htype hcs, Or.inr ?_⟩
    rw [List.append_assoc, List.cons_append]

theorem eq_amp_of_accepts {type : TokenType} (htype : Separates type)
    (h : Accepts (step .q_arg type)) : type = .OP_AMP := by
  rcases htype with rfl | rfl | rfl
  · rcases h with h | h | h <;> cases h
  · rcases h with h | h | h <;> cases h
  · rfl

/-- The split of a run: `args` are the arguments read so far. -/
theorem sentence_of_run {args ts : List TokenType} (hargs : Arguments args)
    (h : Accepts (run .q_arg ts)) : Sentence (.WORD :: (args ++ ts)) := by
  induction hn : ts.length using Nat.strongRecOn generalizing args ts with
  | _ n ih =>
      cases ts with
      | nil =>
          rw [List.append_nil]
          exact ⟨_, .single ⟨args, hargs, rfl⟩, Or.inl rfl⟩
      | cons t ts =>
          subst hn
          have hlt : ts.length < (t :: ts).length := Nat.lt_succ_self _
          rcases step_arg_cases (step_ne_error h) with rfl | hr | hsep
          · change Accepts (run .q_arg ts) at h
            have hrest := ih _ hlt (hargs.append (.word .nil)) h rfl
            rwa [List.append_assoc] at hrest
          · change Accepts (run (step .q_arg t) ts) at h
            rw [step_redirection hr] at h
            cases ts with
            | nil => exact absurd h not_accepts_tgt
            | cons u us =>
                obtain rfl : u = .WORD := eq_word_of_ne_arg (q := .q_tgt) nofun (step_ne_error h)
                have hlt' : us.length < _ := Nat.lt_trans (Nat.lt_succ_self _) hlt
                change Accepts (run .q_arg us) at h
                have hrest := ih _ hlt' (hargs.append (.redirection hr .nil)) h rfl
                rwa [List.append_assoc] at hrest
          · have hc : Command (.WORD :: args) := ⟨args, hargs, rfl⟩
            change Accepts (run (step .q_arg t) ts) at h
            cases ts with
            | nil =>
                obtain rfl := eq_amp_of_accepts hsep h
                exact ⟨_, .single hc, Or.inr rfl⟩
            | cons u us =>
                have hcmd := step_separates hsep
                obtain rfl := eq_word_of_ne_arg hcmd.ne_arg (step_ne_error h)
                have hlt' : us.length < _ := Nat.lt_trans (Nat.lt_succ_self _) hlt
                change Accepts (run (step _ .WORD) us) at h
                rw [step_atCommand hcmd] at h
                exact Sentence.cons hc hsep (ih _ hlt' .nil h rfl)

theorem accepts_iff (ts : List TokenType) : Accepts (run .q_start ts) ↔ ts = [] ∨ Sentence ts := by
  constructor
  · intro h
    cases ts with
    | nil => exact Or.inl rfl
    | cons t ts =>
        obtain rfl : t = .WORD := eq_word_of_ne_arg (q := .q_start) nofun (step_ne_error h)
        exact Or.inr (sentence_of_run .nil h)
  · rintro (rfl | h)
    · exact Or.inl rfl
    · exact accepts_sentence h

theorem parser_eq_zero_iff (toks : List Token) :
    parser toks = 0 ↔ Accepts (loop .q_start toks) := by
  refine ⟨accepts_of_parser_eq_zero, fun h => ?_⟩
  rw [parser]
  rcases h with h | h | h <;> rw [h] <;> rfl

/-! ## Segments and stages of accepted lists -/

/-- Not empty, a word in front, and a word behind each redirection. -/
def Formed (ts : List Token) : Prop :=
  (∃ t rest, ts = t :: rest ∧ t.type = .WORD) ∧
    ∀ l₁ r l₂, ts = l₁ ++ r :: l₂ → r.type.isRedirection = true →
      ∃ w rest, l₂ = w :: rest ∧ w.type = .WORD

theorem eq_word_of_loop {q : ParserState} {t : Token} {ts : List Token}
    (h : loop q (t :: ts) = .q_arg) (hq : q ≠ .q_arg) : t.type = .WORD := by
  rw [loop_eq_run, List.map_cons] at h
  have hacc : Accepts (run q (t.type :: ts.map Token.type)) := Or.inr (Or.inl h)
  exact eq_word_of_ne_arg hq (step_ne_error hacc)

theorem step_isRedirection {r : TokenType} (hr : r.isRedirection = true) (q : ParserState) :
    step q r = .q_tgt ∨ step q r = .q_error := by
  by_cases hq : q = .q_arg
  · rw [hq]
    exact Or.inl (step_redirection hr)
  · refine Or.inr (of_not_not fun hne => ?_)
    rw [eq_word_of_ne_arg hq hne] at hr
    cases hr

theorem formed_of_loop {ts : List Token} (h : loop .q_start ts = .q_arg) : Formed ts := by
  constructor
  · cases ts with
    | nil => cases h
    | cons t ts => exact ⟨t, ts, rfl, eq_word_of_loop h nofun⟩
  · rintro l₁ r l₂ rfl hr
    rw [loop_append, loop_cons] at h
    rcases step_isRedirection hr (loop .q_start l₁) with htgt | herror
    · rw [htgt] at h
      cases l₂ with
      | nil => cases h
      | cons w l₂ => exact ⟨w, l₂, rfl, eq_word_of_loop h nofun⟩
    · rw [herror, loop_error] at h
      cases h

theorem formed_of_mem_stages {seg : List Token} (h : loop .q_start seg = .q_arg) {st : List Token}
    (hst : st ∈ stages seg) : Formed st := by
  obtain ⟨first, rest, hstages, hfirst, hrest⟩ := loop_stages h
  rw [hstages] at hst
  rcases List.mem_cons.mp hst with rfl | hst
  · exact formed_of_loop hfirst
  · exact formed_of_loop (hrest st hst)

theorem separates_of_isDelim {type : TokenType} (h : type.isDelim = true) : Separates type := by
  rw [TokenType.isDelim, Bool.or_eq_true, decide_eq_true_eq, decide_eq_true_eq] at h
  exact Or.inr h

/-- An empty segment is the last one, behind a final `&`. -/
theorem segmentsFrom_nil {q : ParserState} (hq : AtCommand q) {seg toks : List Token}
    (hacc : Accepts (loop q (seg ++ toks))) {l₁ l₂ : List Segment} {s : Segment}
    (hs : segmentsFrom seg toks = l₁ ++ s :: l₂) (hnil : s.tokens = []) :
    l₂ = [] ∧ (seg ++ toks = [] ∨ ∃ ini t, toks = ini ++ [t] ∧ t.type = .OP_AMP) := by
  induction toks generalizing q seg l₁ with
  | nil =>
      cases l₁ with
      | nil =>
          obtain ⟨rfl, rfl⟩ := List.cons.inj hs
          exact ⟨rfl, Or.inl (by rw [List.append_nil]; exact hnil)⟩
      | cons x l₁ => cases l₁ <;> cases hs
  | cons t ts ih =>
      by_cases hdelim : t.type.isDelim = true
      · rw [segmentsFrom, if_pos hdelim] at hs
        rw [loop_append, loop_cons] at hacc
        obtain ⟨harg, hnext⟩ := step_delim hdelim (ne_error_of_accepts hacc)
        cases l₁ with
        | nil =>
            obtain ⟨rfl, -⟩ := List.cons.inj hs
            change seg = [] at hnil
            rw [hnil] at harg
            exact absurd harg hq.ne_arg
        | cons x l₁ =>
            obtain ⟨-, hs⟩ := List.cons.inj hs
            have hacc' : Accepts (loop (step (loop q seg) t.type) ([] ++ ts)) := hacc
            obtain ⟨hl, hlast⟩ := ih hnext hacc' hs
            refine ⟨hl, Or.inr ?_⟩
            rcases hlast with rfl | ⟨ini, u, rfl, hu⟩
            · rw [harg] at hacc
              exact ⟨[], t, rfl, eq_amp_of_accepts (separates_of_isDelim hdelim) hacc⟩
            · exact ⟨t :: ini, u, rfl, hu⟩
      · rw [segmentsFrom, if_neg hdelim] at hs
        have hassoc : seg ++ t :: ts = seg ++ [t] ++ ts := by simp
        rw [hassoc] at hacc ⊢
        obtain ⟨hl, hlast⟩ := ih hq hacc hs
        refine ⟨hl, hlast.imp_right ?_⟩
        rintro ⟨ini, u, rfl, hu⟩
        exact ⟨t :: ini, u, rfl, hu⟩

end Grammar

/-- `parser` accepts its grammar and nothing else, and the segments and the
pipeline stages of what it accepts are commands. -/
theorem parser_accepts_grammar (toks : List Token) :
    (parser toks = 0 ↔ toks = [] ∨ Grammar.Sentence (toks.map Token.type)) ∧
      (parser toks = 0 → ∀ l₁ s l₂, segments toks = l₁ ++ s :: l₂ →
        (Grammar.Formed s.tokens ∧ ∀ st ∈ stages s.tokens, Grammar.Formed st) ∨
          s.tokens = [] ∧ l₂ = [] ∧
            (toks = [] ∨ ∃ ini t, toks = ini ++ [t] ∧ t.type = .OP_AMP)) := by
  constructor
  · rw [Grammar.parser_eq_zero_iff, Grammar.loop_eq_run, Grammar.accepts_iff, List.map_eq_nil_iff]
  · intro hparse l₁ s l₂ hs
    by_cases hnil : s.tokens = []
    · have hacc : Grammar.Accepts (Grammar.loop .q_start ([] ++ toks)) :=
        Grammar.accepts_of_parser_eq_zero hparse
      obtain ⟨hl, hlast⟩ := Grammar.segmentsFrom_nil (Or.inl rfl) hacc hs hnil
      exact Or.inr ⟨hnil, hl, hlast⟩
    · have hmem : s ∈ segments toks := by
        rw [hs]
        exact List.mem_append_right _ (List.mem_cons_self ..)
      obtain ⟨hrun, -, -⟩ := Grammar.segment_command hparse hmem hnil
      exact Or.inl ⟨Grammar.formed_of_loop hrun, fun st => Grammar.formed_of_mem_stages hrun⟩

end ShellXv6.Shell
