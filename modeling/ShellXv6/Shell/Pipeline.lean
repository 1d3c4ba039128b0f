import ShellXv6.Lib.Split
import ShellXv6.Shell.Parser
import ShellXv6.Shell.Render

/-!
# The tokens of a pipeline

`main` flattens a segment with a pipe to a line, and `execute_pipeline` and
`execute_pipeline_bg` cut that line at each `|` and run the lexer on every
piece.  The stages come back as they were just when each word is plain and there
are not too many of them: quotes are gone from the line.
-/

namespace ShellXv6.Shell

open Lexer Grammar

def maxPipeCommands : ℕ := 256

/-- The size of `pipe_line` in `main`. -/
def pipeLineSize : ℕ := 8192

/-- The loop of `build_line_from_segment`; `out` is the part below `pos`. -/
def buildLine (out_size : ℕ) (out : List Char) : List Token → Option (List Char)
  | [] => some out
  | t :: next =>
      if out.length + t.content.length + 1 ≥ out_size then none
      else buildLine out_size (out ++ t.content ++ if next = [] then [] else [' ']) next

def buildLineFromSegment (seg : List Token) (out_size : ℕ) : Option (List Char) :=
  buildLine out_size [] seg

/-- The pieces that repeated calls of `strtok` with one delimiter give. -/
def strtok (delim : Char) (s : List Char) : List (List Char) :=
  (s.splitOn delim).filter fun piece => piece ≠ []

/-- The array `commands`, unless there are too many or too few. -/
def splitCommands (raw_line : List Char) : Option (List (List Char)) :=
  let commands := strtok '|' raw_line
  if commands.length ≤ maxPipeCommands ∧ 2 ≤ commands.length then some commands else none

/-- Each command is read again as the tokens of its stage. -/
def PreservesTokens (seg : List Token) (pipe_line : List Char) : Prop :=
  ∃ commands, splitCommands pipe_line = some commands ∧
    commands.map lexer = (stages seg).map fun stage => some (stage, true)

instance (seg : List Token) (pipe_line : List Char) : Decidable (PreservesTokens seg pipe_line) :=
  match h : splitCommands pipe_line with
  | none => isFalse (by rintro ⟨commands, hc, -⟩; rw [h] at hc; cases hc)
  | some commands =>
      decidable_of_iff (commands.map lexer = (stages seg).map fun stage => some (stage, true))
        ⟨fun hp => ⟨commands, h, hp⟩, fun ⟨_, hc, hp⟩ => Option.some.inj (h.symm.trans hc) ▸ hp⟩

/-! ## The flattened line -/

theorem buildLine_eq {out_size : ℕ} {out s : List Char} {seg : List Token} (hseg : seg ≠ [])
    (h : buildLine out_size out seg = some s) : out ++ (render seg []).tail = s := by
  induction seg generalizing out with
  | nil => exact absurd rfl hseg
  | cons t ts ih =>
      rw [buildLine] at h
      split_ifs at h with hfit hts
      · subst hts
        simpa [buildLine, render] using h
      · have hrest := ih hts h
        rw [← hrest, render_cons]
        obtain ⟨u, us, rfl⟩ := List.exists_cons_of_ne_nil hts
        simp [render_cons]

theorem length_lt_of_buildLine {out_size : ℕ} {out s : List Char} {seg : List Token}
    (hseg : seg ≠ []) (h : buildLine out_size out seg = some s) : s.length < out_size := by
  induction seg generalizing out with
  | nil => exact absurd rfl hseg
  | cons t ts ih =>
      rw [buildLine] at h
      split_ifs at h with hfit hts
      · subst hts
        obtain rfl := Option.some.inj h
        simp only [List.length_append, List.length_nil]
        omega
      · exact ih hts h

theorem render_of_buildLine {out_size : ℕ} {seg : List Token} {s : List Char} (hseg : seg ≠ [])
    (h : buildLineFromSegment seg out_size = some s) : render seg [] = ' ' :: s := by
  have hs := buildLine_eq hseg h
  obtain ⟨t, ts, rfl⟩ := List.exists_cons_of_ne_nil hseg
  rw [render_cons] at hs ⊢
  exact congrArg (' ' :: ·) hs

/-! ## The pieces -/

/-- The pieces of the line of a segment, with the blanks around the pipes. -/
def renderStages (trail : List Char) : List (List Token) → List (List Char)
  | [] => []
  | [st] => [render st trail]
  | st :: sts => render st [' '] :: renderStages trail sts

/-- No word hides a pipe. -/
def PipesVisible (seg : List Token) : Prop :=
  ∀ t ∈ seg, (t.type = .OP_PIPE → t.content = ['|']) ∧ (t.type ≠ .OP_PIPE → '|' ∉ t.content)

theorem splitOn_render {seg : List Token} (h : PipesVisible seg) (trail : List Char)
    (htrail : '|' ∉ trail) :
    (render seg trail).splitOn '|' = renderStages trail (stages seg) := by
  induction seg with
  | nil =>
      have hsingle : trail.splitOnP (· == '|') = [trail] :=
        List.splitOnP_eq_singleton (by simpa using fun c hc => ne_of_mem_of_not_mem hc htrail)
      simpa [stages, renderStages, render, List.splitOn] using hsingle
  | cons t ts ih =>
      obtain ⟨⟨hpipe, hother⟩, hts⟩ := List.forall_mem_cons.mp h
      have hrest := ih hts
      obtain ⟨st, sts, hst⟩ := List.exists_cons_of_ne_nil (stages_ne_nil ts)
      rw [List.splitOn] at hrest ⊢
      rw [render_cons, stages_cons]
      by_cases htype : t.type = .OP_PIPE
      · rw [hpipe htype, if_pos htype]
        rw [List.splitOnP_cons_eq_if_modifyHead, List.singleton_append,
          List.splitOnP_cons_eq_if_modifyHead, hrest, hst]
        rfl
      · have hcontent : ∀ c ∈ ' ' :: t.content, (c == '|') = false := by
          refine List.forall_mem_cons.mpr ⟨by decide, fun c hc => ?_⟩
          exact beq_eq_false_iff_ne.mpr (ne_of_mem_of_not_mem hc (hother htype))
        rw [if_neg htype, ← List.cons_append, Split.splitOnP_append_of_forall hcontent, hrest, hst]
        cases sts <;> simp [renderStages, render_cons]

theorem length_renderStages (trail : List Char) (sts : List (List Token)) :
    (renderStages trail sts).length = sts.length := by
  induction sts with
  | nil => rfl
  | cons st sts ih =>
      cases sts with
      | nil => rfl
      | cons st' sts => exact congrArg Nat.succ ih

theorem render_ne_nil {st : List Token} (h : st ≠ []) (trail : List Char) :
    render st trail ≠ [] := by
  obtain ⟨t, ts, rfl⟩ := List.exists_cons_of_ne_nil h
  rw [render_cons]
  exact List.cons_ne_nil _ _

theorem ne_nil_of_mem_renderStages {trail : List Char} {sts : List (List Token)}
    (h : ∀ st ∈ sts, st ≠ []) : ∀ piece ∈ renderStages trail sts, piece ≠ [] := by
  induction sts with
  | nil => exact List.forall_mem_nil _
  | cons st sts ih =>
      obtain ⟨hst, hsts⟩ := List.forall_mem_cons.mp h
      cases sts with
      | nil => exact List.forall_mem_cons.mpr ⟨render_ne_nil hst _, List.forall_mem_nil _⟩
      | cons st' sts => exact List.forall_mem_cons.mpr ⟨render_ne_nil hst _, ih hsts⟩

/-- The index of the lexer does not overflow in a piece of a short line. -/
theorem map_lexer_strtok {s : List Char} (hs : s.length < 2 ^ 31) :
    (strtok '|' s).map lexer = (strtok '|' s).map (scan .START []) := by
  refine List.map_congr_left fun piece hpiece => lexer_eq_scan ?_
  have hlength := (Split.sublist_of_mem_splitOnP (List.mem_filter.mp hpiece).1).length_le
  have := length_beforeNul_le piece
  omega

/-- Behind the first blank the commands are the written stages; none is lost. -/
theorem strtok_of_render {seg : List Token} (h : PipesVisible seg) {s : List Char}
    (hs : render seg [] = ' ' :: s) (hne : ∀ st ∈ stages seg, st ≠ [])
    (htwo : 2 ≤ (stages seg).length) :
    (strtok '|' s).length = (stages seg).length ∧
      (strtok '|' s).map (scan .START []) =
        (renderStages [] (stages seg)).map (scan .START []) := by
  have hsplit := splitOn_render h [] List.not_mem_nil
  obtain ⟨piece, pieces, hpieces⟩ := Split.splitOnP_eq_cons (· == '|') s
  rw [hs, List.splitOn, List.splitOnP_cons_eq_if_modifyHead, hpieces] at hsplit
  rcases hsts : stages seg with - | ⟨st, - | ⟨st', sts⟩⟩
  · exact absurd hsts (stages_ne_nil seg)
  · rw [hsts] at htwo
    simp at htwo
  · rw [hsts] at hsplit hne
    obtain ⟨hfirst, hrest⟩ := List.cons.inj hsplit
    obtain ⟨hst, hsts'⟩ := List.forall_mem_cons.mp hne
    have hpiece : piece ≠ [] := by
      rintro rfl
      obtain ⟨t, ts, rfl⟩ := List.exists_cons_of_ne_nil hst
      rw [render_cons] at hfirst
      simp [render] at hfirst
    have hkept : strtok '|' s = piece :: pieces := by
      rw [strtok, List.splitOn, hpieces, List.filter_eq_self]
      refine List.forall_mem_cons.mpr ⟨decide_eq_true hpiece, fun p hp => ?_⟩
      rw [hrest] at hp
      exact decide_eq_true (ne_nil_of_mem_renderStages hsts' p hp)
    rw [hkept, hrest]
    refine ⟨by rw [List.length_cons, length_renderStages]; rfl, ?_⟩
    rw [List.map_cons, ← scan_of_blank (c := ' ') rfl [] piece]
    exact congrArg (fun x => scan .START [] x :: _) hfirst

theorem map_scan_renderStages {trail : List Char} (ht : Trail trail) (sts : List (List Token)) :
    ((renderStages trail sts).map (scan .START []) = sts.map fun st => some (st, true)) ↔
      ∀ st ∈ sts, ∀ t ∈ st, PlainToken t := by
  induction sts with
  | nil => simp [renderStages]
  | cons st sts ih =>
      cases sts with
      | nil => simp [renderStages, scan_render_iff ht]
      | cons st' sts =>
          rw [List.forall_mem_cons, ← ih, renderStages, List.map_cons, List.map_cons,
            List.cons.injEq, scan_render_iff (Or.inr rfl)]
          simp

theorem preservesTokens_iff {seg : List Token} {s : List Char} (htwo : 2 ≤ (strtok '|' s).length) :
    PreservesTokens seg s ↔
      ((strtok '|' s).map lexer = (stages seg).map fun st => some (st, true)) ∧
        (strtok '|' s).length ≤ maxPipeCommands := by
  constructor
  · rintro ⟨commands, hcommands, hread⟩
    rw [splitCommands] at hcommands
    split_ifs at hcommands with hcount
    obtain rfl := Option.some.inj hcommands
    exact ⟨hread, hcount.1⟩
  · rintro ⟨hread, hcount⟩
    exact ⟨_, if_pos ⟨hcount, htwo⟩, hread⟩

/-! ## Tokens of the lexer -/

theorem Span.content_subset {t : Token} {r : List Char} (h : Span t r) : t.content ⊆ r := by
  cases h with
  | operator _ hr => exact hr ▸ List.Subset.refl _
  | word _ _ _ hw => exact hw.subset

theorem operator_pipe : ∀ t ∈ operators, t.type ≠ .WORD ∧
    (t.type = .OP_PIPE → t.content = ['|']) ∧ (t.type ≠ .OP_PIPE → '|' ∉ t.content) := by
  decide

theorem Span.plainToken_iff {t : Token} {r : List Char} (h : Span t r) :
    PlainToken t ↔ (t.type = .WORD → plain t.content = true) := by
  cases h with
  | operator hop _ =>
      exact ⟨fun _ hword => absurd hword (operator_pipe t hop).1, fun _ => Or.inl hop⟩
  | word htype hfit _ _ =>
      refine ⟨fun hplain _ => ?_, fun hplain => Or.inr ⟨htype, hplain htype, hfit⟩⟩
      rcases hplain with hop | ⟨-, hplain, -⟩
      · exact absurd htype (operator_pipe t hop).1
      · exact hplain

theorem not_mem_of_plain {w : List Char} (h : plain w = true) : '|' ∉ w := by
  intro hmem
  simp only [plain, Bool.and_eq_true, List.all_eq_true] at h
  cases h.1 _ hmem

theorem pipesVisible_of_words {seg : List Token} (hspan : ∀ t ∈ seg, ∃ r, Span t r)
    (hwords : ∀ t ∈ seg, t.type = .WORD → '|' ∉ t.content) : PipesVisible seg := by
  intro t ht
  obtain ⟨r, hr⟩ := hspan t ht
  cases hr with
  | operator hop _ => exact (operator_pipe t hop).2
  | word htype _ _ _ => exact ⟨fun hpipe => (by rw [htype] at hpipe; cases hpipe),
      fun _ => hwords t ht htype⟩

/-- Pieces have no pipe in them, so neither have the words that are read from them. -/
theorem not_mem_of_preserves {seg : List Token} {s : List Char} (h : PreservesTokens seg s) :
    ∀ t ∈ seg, t.type = .WORD → '|' ∉ t.content := by
  intro t ht htype hmem
  obtain ⟨commands, hsplit, hlex⟩ := h
  have hcommands : commands = strtok '|' s := by
    rw [splitCommands] at hsplit
    split_ifs at hsplit
    exact (Option.some.inj hsplit).symm
  obtain ⟨st, hst, hmemst⟩ := Split.exists_mem_splitOnP (p := fun t : Token => t.type = .OP_PIPE) ht
    (by simp [htype])
  have hread : some (st, true) ∈ commands.map lexer := by
    rw [hlex]
    exact List.mem_map_of_mem hst
  obtain ⟨command, hcommand, hscan⟩ := List.mem_map.mp hread
  obtain ⟨r, hspan, hsub⟩ := exists_span_of_scan (scan_of_lexer hscan) t hmemst
  rw [hcommands] at hcommand
  have hclean := Split.mem_of_mem_splitOnP (List.mem_filter.mp hcommand).1 '|'
    (hsub (hspan.content_subset hmem))
  cases hclean.1

theorem plainToken_stages_iff {seg : List Token} (hspan : ∀ t ∈ seg, ∃ r, Span t r) :
    (∀ st ∈ stages seg, ∀ t ∈ st, PlainToken t) ↔
      ∀ t ∈ seg, t.type = .WORD → plain t.content = true := by
  constructor
  · intro h t ht htype
    obtain ⟨r, hr⟩ := hspan t ht
    obtain ⟨st, hst, hmem⟩ := Split.exists_mem_splitOnP (p := fun t : Token => t.type = .OP_PIPE) ht
      (by simp [htype])
    exact hr.plainToken_iff.mp (h st hst t hmem) htype
  · intro h st hst t hmem
    have ht := (Split.mem_of_mem_splitOnP hst t hmem).2
    obtain ⟨r, hr⟩ := hspan t ht
    exact hr.plainToken_iff.mpr (h t ht)

/-- The stages of a pipeline arrive unchanged just when all their words are
plain and there are at most `MAX_PIPE_COMMANDS` of them. -/
theorem pipeline_preserves_tokens_iff {line : List Char} {toks : List Token}
    (hlex : lexer line = some (toks, true)) (hparse : parser toks = 0) {seg : Segment}
    (hseg : seg ∈ segments toks) (hpipe : segmentHasPipe seg.tokens = true) {pipe_line : List Char}
    (hbuild : buildLineFromSegment seg.tokens pipeLineSize = some pipe_line) :
    PreservesTokens seg.tokens pipe_line ↔
      (∀ t ∈ seg.tokens, t.type = .WORD → plain t.content = true) ∧
        (stages seg.tokens).length ≤ maxPipeCommands := by
  have hne : seg.tokens ≠ [] := by
    intro hnil
    rw [hnil] at hpipe
    cases hpipe
  obtain ⟨hrun, -, -⟩ := segment_command hparse hseg hne
  have hspan := segment_span hlex hparse hseg hne
  have hstages := ne_nil_of_mem_stages hrun (Or.inl rfl)
  have htwo : 2 ≤ (stages seg.tokens).length := by
    rw [stages, Split.length_splitOnP]
    have := List.countP_pos_iff.mpr (List.any_eq_true.mp hpipe)
    omega
  have hshort : pipe_line.length < 2 ^ 31 :=
    (length_lt_of_buildLine hne hbuild).trans (by decide)
  have hsplit : (∀ t ∈ seg.tokens, t.type = .WORD → '|' ∉ t.content) →
      (PreservesTokens seg.tokens pipe_line ↔
        (∀ t ∈ seg.tokens, t.type = .WORD → plain t.content = true) ∧
          (stages seg.tokens).length ≤ maxPipeCommands) := by
    intro hwords
    obtain ⟨hlength, hmap⟩ := strtok_of_render (pipesVisible_of_words hspan hwords)
      (render_of_buildLine hne hbuild) hstages htwo
    rw [← plainToken_stages_iff hspan, ← map_scan_renderStages (Or.inl rfl), ← hmap, ← hlength,
      ← map_lexer_strtok hshort]
    exact preservesTokens_iff (hlength ▸ htwo)
  constructor
  · intro h
    exact (hsplit (not_mem_of_preserves h)).mp h
  · intro h
    exact (hsplit fun t ht htype => not_mem_of_plain (h.1 t ht htype)).mpr h

/-- In `a | b` both commands come back. -/
theorem pipeline_preserves_tokens_plain :
    ∃ toks pipe_line, lexer "a | b".toList = some (toks, true) ∧
      buildLineFromSegment toks pipeLineSize = some pipe_line ∧ PreservesTokens toks pipe_line := by
  let toks : List Token := [⟨['a'], .WORD⟩, ⟨['|'], .OP_PIPE⟩, ⟨['b'], .WORD⟩]
  have hlex : lexer "a | b".toList = some (toks, true) := by decide
  have hbuild : buildLineFromSegment toks pipeLineSize = some "a | b".toList := by decide
  have hseg : (⟨toks, false⟩ : Segment) ∈ segments toks := by decide
  refine ⟨toks, _, hlex, hbuild, ?_⟩
  exact (pipeline_preserves_tokens_iff hlex (by decide) hseg (by decide) hbuild).mpr (by decide)

/-- In `echo "a b" | cat` the second reading sees two words for one. -/
theorem not_preservesTokens_quoted_blank :
    ∃ toks pipe_line, lexer "echo \"a b\" | cat".toList = some (toks, true) ∧ parser toks = 0 ∧
      ⟨toks, false⟩ ∈ segments toks ∧ segmentHasPipe toks = true ∧
      buildLineFromSegment toks pipeLineSize = some pipe_line ∧
      ¬PreservesTokens toks pipe_line := by
  refine ⟨[⟨"echo".toList, .WORD⟩, ⟨"a b".toList, .WORD⟩, ⟨"|".toList, .OP_PIPE⟩,
    ⟨"cat".toList, .WORD⟩], "echo a b | cat".toList, ?_⟩
  decide

end ShellXv6.Shell
