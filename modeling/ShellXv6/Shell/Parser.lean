import ShellXv6.Shell.Words

/-!
# The grammar check and the segments of a line

`parser` is the automaton of `parser.c`.  The loop of `main` cuts an accepted
line at each `;` and `&`; what stands between is empty or a command line that
the automaton takes from its start to `q_arg`, and so is what stands between
the pipes of such a segment.
-/

namespace ShellXv6.Shell

inductive ParserState
  | q_start
  | q_arg
  | q_cmd
  | q_tgt
  | q_bg
  | q_error
  deriving DecidableEq

def TokenType.isRedirection : TokenType → Bool
  | .OP_LT | .OP_GT | .OP_GTGT | .OP_LTLT => true
  | _ => false

namespace Grammar

def step : ParserState → TokenType → ParserState
  | .q_arg, type =>
      if type = .WORD then .q_arg
      else if type.isRedirection then .q_tgt
      else if type = .OP_PIPE ∨ type = .OP_SEMI then .q_cmd
      else if type = .OP_AMP then .q_bg
      else .q_error
  | .q_error, _ => .q_error
  | .q_start, type | .q_cmd, type | .q_tgt, type | .q_bg, type =>
      if type = .WORD then .q_arg else .q_error

/-- The loop leaves at `q_error`. -/
def loop (curr_state : ParserState) : List Token → ParserState
  | [] => curr_state
  | head :: next =>
      let q := step curr_state head.type
      if q = .q_error then .q_error else loop q next

end Grammar

/-- The result 1 is a syntax error. -/
def parser (toks : List Token) : ℕ :=
  let q := Grammar.loop .q_start toks
  if q = .q_error ∨ q = .q_cmd ∨ q = .q_tgt then 1 else 0

structure Segment where
  tokens : List Token
  is_bg : Bool
  deriving DecidableEq

def TokenType.isDelim (type : TokenType) : Bool := type = .OP_SEMI || type = .OP_AMP

/-- The segments that `main` finds from `cur` on, when `seg` stands between
`seg_start` and `cur`. -/
def segmentsFrom (seg : List Token) : List Token → List Segment
  | [] => [⟨seg, false⟩]
  | cur :: next =>
      if cur.type.isDelim then ⟨seg, cur.type = .OP_AMP⟩ :: segmentsFrom [] next
      else segmentsFrom (seg ++ [cur]) next

def segments (toks : List Token) : List Segment := segmentsFrom [] toks

def segmentHasPipe (seg : List Token) : Bool := seg.any fun t => t.type = .OP_PIPE

/-- The tokens between the pipes. -/
def stages (seg : List Token) : List (List Token) := seg.splitOnP fun t => t.type = .OP_PIPE

namespace Grammar

/-! ## The automaton -/

@[simp] theorem loop_nil (q : ParserState) : loop q [] = q := rfl

theorem loop_cons (q : ParserState) (t : Token) (ts : List Token) :
    loop q (t :: ts) = loop (step q t.type) ts := by
  by_cases h : step q t.type = .q_error
  · rw [loop, if_pos h, h]
    clear h
    induction ts with
    | nil => rfl
    | cons u ts ih => simp [loop, step]
  · rw [loop, if_neg h]

@[simp] theorem loop_error (ts : List Token) : loop .q_error ts = .q_error := by
  cases ts with
  | nil => rfl
  | cons t ts => rfl

theorem loop_append (q : ParserState) (l₁ l₂ : List Token) :
    loop q (l₁ ++ l₂) = loop (loop q l₁) l₂ := by
  induction l₁ generalizing q with
  | nil => rfl
  | cons t l₁ ih => rw [List.cons_append, loop_cons, loop_cons, ih]

/-- The states in front of a command. -/
def AtCommand (q : ParserState) : Prop := q = .q_start ∨ q = .q_cmd ∨ q = .q_bg

theorem step_atCommand {q : ParserState} (hq : AtCommand q) (type : TokenType) :
    step q type = step .q_start type := by
  rcases hq with rfl | rfl | rfl <;> rfl

theorem loop_atCommand {q : ParserState} (hq : AtCommand q) {seg : List Token} (hseg : seg ≠ []) :
    loop q seg = loop .q_start seg := by
  cases seg with
  | nil => exact absurd rfl hseg
  | cons t ts => rw [loop_cons, loop_cons, step_atCommand hq]

def Accepts (q : ParserState) : Prop := q = .q_start ∨ q = .q_arg ∨ q = .q_bg

theorem accepts_of_parser_eq_zero {toks : List Token} (h : parser toks = 0) :
    Accepts (loop .q_start toks) := by
  unfold parser at h
  cases hq : loop .q_start toks <;> simp_all [Accepts]

theorem not_accepts_error : ¬Accepts .q_error := by
  rintro (h | h | h) <;> cases h

theorem ne_error_of_accepts {q : ParserState} {ts : List Token} (h : Accepts (loop q ts)) :
    q ≠ .q_error := by
  rintro rfl
  rw [loop_error] at h
  exact not_accepts_error h

/-- A token inside a segment leads to none of the states in front of a segment. -/
theorem step_inside {q : ParserState} {type : TokenType} (h : type.isDelim = false) :
    step q type ≠ .q_start ∧ step q type ≠ .q_bg := by
  cases q <;> cases type <;> simp_all [step, TokenType.isDelim, TokenType.isRedirection]

theorem loop_inside {q : ParserState} {seg : List Token} (hseg : seg ≠ [])
    (h : ∀ t ∈ seg, t.type.isDelim = false) (hacc : Accepts (loop q seg)) :
    loop q seg = .q_arg := by
  obtain ⟨l, t, rfl⟩ := (List.eq_nil_or_concat seg).resolve_left hseg
  rw [List.concat_eq_append] at h hacc ⊢
  rw [loop_append, loop_cons, loop_nil] at hacc ⊢
  obtain ⟨hstart, hbg⟩ := step_inside (q := loop q l) (h t (by simp))
  exact (hacc.resolve_left hstart).resolve_right hbg

theorem step_delim {q : ParserState} {type : TokenType} (h : type.isDelim = true)
    (hne : step q type ≠ .q_error) : q = .q_arg ∧ AtCommand (step q type) := by
  cases q <;> cases type <;> simp_all [step, TokenType.isDelim, TokenType.isRedirection, AtCommand]

/-! ## Segments and stages -/

theorem segmentsFrom_command {q : ParserState} (hq : AtCommand q) {seg toks : List Token}
    (hin : ∀ t ∈ seg, t.type.isDelim = false) (hacc : Accepts (loop q (seg ++ toks))) :
    ∀ s ∈ segmentsFrom seg toks, s.tokens ≠ [] →
      loop .q_start s.tokens = .q_arg ∧ (∀ t ∈ s.tokens, t.type.isDelim = false) ∧
        s.tokens ⊆ seg ++ toks := by
  induction toks generalizing q seg with
  | nil =>
      intro s hs hne
      obtain rfl := List.mem_singleton.mp hs
      rw [List.append_nil, loop_atCommand hq hne] at hacc
      exact ⟨loop_inside hne hin hacc, hin, by simp⟩
  | cons t ts ih =>
      intro s hs hne
      by_cases hdelim : t.type.isDelim = true
      · rw [segmentsFrom, if_pos hdelim] at hs
        rw [loop_append, loop_cons] at hacc
        obtain ⟨harg, hnext⟩ := step_delim hdelim (ne_error_of_accepts hacc)
        rcases List.mem_cons.mp hs with rfl | hs
        · rw [loop_atCommand hq hne] at harg
          exact ⟨harg, hin, List.subset_append_left ..⟩
        · obtain ⟨hrun, hs', hsub⟩ := ih hnext (List.forall_mem_nil _) hacc s hs hne
          refine ⟨hrun, hs', fun u hu => ?_⟩
          exact List.mem_append_right _ (List.mem_cons_of_mem _ (hsub hu))
      · rw [segmentsFrom, if_neg hdelim] at hs
        rw [← List.singleton_append, ← List.append_assoc] at hacc ⊢
        refine ih hq ?_ hacc s hs hne
        intro u hu
        rcases List.mem_append.mp hu with hu | hu
        · exact hin u hu
        · obtain rfl := List.mem_singleton.mp hu
          exact Bool.eq_false_iff.mpr hdelim

theorem segment_command {toks : List Token} (h : parser toks = 0) {s : Segment}
    (hs : s ∈ segments toks) (hne : s.tokens ≠ []) :
    loop .q_start s.tokens = .q_arg ∧ (∀ t ∈ s.tokens, t.type.isDelim = false) ∧
      s.tokens ⊆ toks :=
  segmentsFrom_command (Or.inl rfl) (List.forall_mem_nil _) (accepts_of_parser_eq_zero h) s hs hne

theorem segment_span {line : List Char} {toks : List Token} (hlex : lexer line = some (toks, true))
    (hparse : parser toks = 0) {s : Segment} (hs : s ∈ segments toks) (hne : s.tokens ≠ []) :
    ∀ t ∈ s.tokens, ∃ r, Span t r := by
  intro t ht
  have hmem := (segment_command hparse hs hne).2.2 ht
  obtain ⟨r, hr, -⟩ := exists_span_of_scan (scan_of_lexer hlex) t hmem
  exact ⟨r, hr⟩

theorem stages_cons (t : Token) (ts : List Token) :
    stages (t :: ts) =
      if t.type = .OP_PIPE then [] :: stages ts else (stages ts).modifyHead (t :: ·) := by
  simp [stages, List.splitOnP_cons_eq_if_modifyHead]

theorem stages_ne_nil (seg : List Token) : stages seg ≠ [] := List.splitOnP_ne_nil _ _

theorem step_pipe {q : ParserState} (h : step q .OP_PIPE ≠ .q_error) :
    q = .q_arg ∧ step q .OP_PIPE = .q_cmd := by
  cases q <;> simp_all [step, TokenType.isRedirection]

theorem AtCommand.ne_arg {q : ParserState} (hq : AtCommand q) : q ≠ .q_arg := by
  rcases hq with rfl | rfl | rfl <;> exact nofun

theorem loop_start {q : ParserState} (hq : AtCommand q) {seg : List Token}
    (h : loop q seg = .q_arg) : loop .q_start seg = .q_arg := by
  cases seg with
  | nil => exact absurd h hq.ne_arg
  | cons t ts => rw [← h, loop_atCommand hq (List.cons_ne_nil _ _)]

/-- The automaton reads the stages one by one. -/
theorem loop_stages {q : ParserState} {seg : List Token} (h : loop q seg = .q_arg) :
    ∃ first rest, stages seg = first :: rest ∧ loop q first = .q_arg ∧
      ∀ st ∈ rest, loop .q_start st = .q_arg := by
  induction seg generalizing q with
  | nil => exact ⟨[], [], rfl, h, List.forall_mem_nil _⟩
  | cons t ts ih =>
      rw [loop_cons] at h
      obtain ⟨first, rest, hstages, hfirst, hrest⟩ := ih h
      rw [stages_cons, hstages]
      by_cases hpipe : t.type = .OP_PIPE
      · rw [if_pos hpipe]
        rw [hpipe] at h hfirst
        obtain ⟨rfl, hcmd⟩ := step_pipe (ne_error_of_accepts (Or.inr (Or.inl h)))
        refine ⟨[], first :: rest, rfl, rfl, List.forall_mem_cons.mpr ⟨?_, hrest⟩⟩
        exact loop_start (Or.inr (Or.inl hcmd)) hfirst
      · rw [if_neg hpipe]
        refine ⟨t :: first, rest, rfl, ?_, hrest⟩
        rw [loop_cons]
        exact hfirst

theorem ne_nil_of_mem_stages {q : ParserState} {seg : List Token} (h : loop q seg = .q_arg)
    (hq : AtCommand q) : ∀ st ∈ stages seg, st ≠ [] := by
  obtain ⟨first, rest, hstages, hfirst, hrest⟩ := loop_stages h
  rw [hstages]
  refine List.forall_mem_cons.mpr ⟨?_, fun st hst => ?_⟩
  · rintro rfl
    exact hq.ne_arg hfirst
  · rintro rfl
    cases hrest [] hst

end Grammar

end ShellXv6.Shell
