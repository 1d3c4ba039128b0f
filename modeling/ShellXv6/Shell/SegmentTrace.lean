import ShellXv6.Shell.Derivation
import ShellXv6.Shell.Pipeline
import ShellXv6.Shell.SegmentLoop

/-!
# What the segment loop dispatches

The loop of `main` is run as in `SegmentLoop`, with a record of what becomes of each
segment.  The record follows the segments of the line in their order, and breaks off
only behind a foreground command whose result is 1.  A segment with a pipe whose
text is longer than `pipe_line` is dropped without a word.
-/

namespace ShellXv6.Shell.SegmentTrace

open SegmentLoop

inductive Outcome
  /-- There is no token in the segment. -/
  | empty
  /-- `build_line_from_segment` fails. -/
  | tooLong
  /-- `execute_pipeline_bg` or `execute_pipeline` is called. -/
  | pipeline
  /-- `malloc` fails. -/
  | noMemory
  /-- `launch_background_single` or `execute_single` is called, with `st = 1` or
  with `st = 0`. -/
  | single (st : Bool)
  deriving DecidableEq

abbrev Trace := List (Segment × Outcome)

structure Traced where
  state : State
  trace : Trace

/-- The record at the end of a segment, unless a call with an array follows. -/
def ended (seg : List Token) (is_bg memory : Bool) : Trace :=
  if seg = [] then [(⟨seg, is_bg⟩, .empty)]
  else if segmentHasPipe seg = true then
    match buildLineFromSegment seg pipeLineSize with
    | none => [(⟨seg, is_bg⟩, .tooLong)]
    | some _ => [(⟨seg, is_bg⟩, .pipeline)]
  else if memory = false then [(⟨seg, is_bg⟩, .noMemory)]
  else []

/-- What a step of the loop adds to the record. -/
def recorded (s : State) : Event → Trace
  | .advance memory =>
      match s.cur with
      | [] => ended s.seg false memory
      | cur :: _ => if cur.type.isDelim then ended s.seg (cur.type = .OP_AMP) memory else []
  | .result st =>
      match s.pc with
      | .call _ is_bg => [(⟨s.seg, is_bg⟩, .single st)]
      | _ => []
  | .release => []
  | .close => []

def step (t : Traced) (e : Event) : Option Traced :=
  (SegmentLoop.step t.state e).map fun s => ⟨s, t.trace ++ recorded t.state e⟩

def start (toks : List Token) : Traced := ⟨SegmentLoop.start toks, []⟩

/-- What becomes of a segment depends on its tokens as it should. -/
def Fits : Segment × Outcome → Prop
  | (seg, .empty) => seg.tokens = []
  | (seg, .tooLong) =>
      segmentHasPipe seg.tokens = true ∧ buildLineFromSegment seg.tokens pipeLineSize = none
  | (seg, .pipeline) =>
      segmentHasPipe seg.tokens = true ∧ buildLineFromSegment seg.tokens pipeLineSize ≠ none
  | (seg, .noMemory) => seg.tokens ≠ [] ∧ segmentHasPipe seg.tokens = false
  | (seg, .single _) => seg.tokens ≠ [] ∧ segmentHasPipe seg.tokens = false

/-- A foreground command whose result is 1. -/
def Stops (x : Segment × Outcome) : Prop := x.1.is_bg = false ∧ x.2 = .single true

def Going (trace : Trace) : Prop := ∀ x ∈ trace, ¬Stops x

/-- Only the last entry stops the loop. -/
def Broken (trace : Trace) : Prop := ∃ ini x, trace = ini ++ [x] ∧ Going ini ∧ Stops x

/-- The record of a loop that has been left. -/
structure Dispatched (toks : List Token) (trace : Trace) : Prop where
  fits : ∀ x ∈ trace, Fits x
  order : Going trace ∧ segments toks = trace.map Prod.fst ∨
    Broken trace ∧ ∃ rest, segments toks = trace.map Prod.fst ++ rest

/-- The runs of tokens between the delimiters, in the background if `&` ends them. -/
inductive MaximalRuns : List Token → List Segment → Prop
  | last {seg : List Token} (hseg : ∀ t ∈ seg, t.type.isDelim = false) :
      MaximalRuns seg [⟨seg, false⟩]
  | cons {seg rest : List Token} {delim : Token} {segs : List Segment}
      (hseg : ∀ t ∈ seg, t.type.isDelim = false) (hdelim : delim.type.isDelim = true)
      (hrest : MaximalRuns rest segs) :
      MaximalRuns (seg ++ delim :: rest) (⟨seg, delim.type = .OP_AMP⟩ :: segs)

theorem maximalRuns_segmentsFrom {seg : List Token} (hseg : ∀ t ∈ seg, t.type.isDelim = false)
    (toks : List Token) : MaximalRuns (seg ++ toks) (segmentsFrom seg toks) := by
  induction toks generalizing seg with
  | nil =>
      rw [List.append_nil]
      exact .last hseg
  | cons t toks ih =>
      rw [segmentsFrom]
      by_cases hdelim : t.type.isDelim = true
      · rw [if_pos hdelim]
        exact .cons hseg hdelim (ih (List.forall_mem_nil _))
      · have hassoc : seg ++ t :: toks = seg ++ [t] ++ toks := by simp
        rw [if_neg hdelim, hassoc]
        apply ih
        refine List.forall_mem_append.mpr ⟨hseg, List.forall_mem_singleton.mpr ?_⟩
        exact Bool.eq_false_iff.mpr hdelim

/-! ## The record at each point of the loop -/

/-- The segments behind the one that `cur` ends. -/
def behind : List Token → List Segment
  | [] => []
  | _ :: next => segmentsFrom [] next

/-- The record and what is still to come, at each point of the loop. -/
def Order (toks : List Token) (t : Traced) : Prop :=
  match t.state.pc with
  | .loop => t.state.should_break_outer = false ∧ Going t.trace ∧
      segments toks = t.trace.map Prod.fst ++ segmentsFrom t.state.seg t.state.cur
  | .call _ is_bg => t.state.should_break_outer = false ∧ Going t.trace ∧
      t.state.seg ≠ [] ∧ segmentHasPipe t.state.seg = false ∧
      segments toks = t.trace.map Prod.fst ++ ⟨t.state.seg, is_bg⟩ :: behind t.state.cur
  | .freeFailed _ => Broken t.trace ∧ segments toks = t.trace.map Prod.fst ++ behind t.state.cur
  | .free _ =>
      (if t.state.should_break_outer then Broken t.trace else Going t.trace) ∧
        segments toks = t.trace.map Prod.fst ++ behind t.state.cur
  | .next => t.state.should_break_outer = false ∧ Going t.trace ∧
      segments toks = t.trace.map Prod.fst ++ behind t.state.cur
  | .left => Going t.trace ∧ segments toks = t.trace.map Prod.fst ∨
      Broken t.trace ∧ ∃ rest, segments toks = t.trace.map Prod.fst ++ rest

structure Inv (toks : List Token) (t : Traced) : Prop where
  fits : ∀ x ∈ t.trace, Fits x
  order : Order toks t

theorem Going.append {l₁ l₂ : Trace} (h₁ : Going l₁) (h₂ : Going l₂) : Going (l₁ ++ l₂) :=
  fun x hx => (List.mem_append.mp hx).elim (h₁ x) (h₂ x)

/-- The end of a segment: it is recorded, or its array is ready for the call. -/
theorem ended_cases (seg : List Token) (is_bg memory : Bool) :
    (∃ o, ended seg is_bg memory = [(⟨seg, is_bg⟩, o)] ∧ Fits (⟨seg, is_bg⟩, o) ∧
        ¬Stops (⟨seg, is_bg⟩, o) ∧
        (seg = [] ∨ segmentHasPipe seg = true ∨ memory = false)) ∨
      ended seg is_bg memory = [] ∧ seg ≠ [] ∧ segmentHasPipe seg = false ∧ memory = true := by
  rw [ended]
  by_cases hseg : seg = []
  · rw [if_pos hseg]
    exact Or.inl ⟨.empty, rfl, hseg, nofun, Or.inl hseg⟩
  rw [if_neg hseg]
  cases hpipe : segmentHasPipe seg with
  | true =>
      rw [if_pos rfl]
      cases hline : buildLineFromSegment seg pipeLineSize with
      | none => exact Or.inl ⟨.tooLong, rfl, ⟨hpipe, hline⟩, nofun, Or.inr (Or.inl rfl)⟩
      | some line =>
          have hfits : buildLineFromSegment seg pipeLineSize ≠ none := by
            rw [hline]
            exact nofun
          exact Or.inl ⟨.pipeline, rfl, ⟨hpipe, hfits⟩, nofun, Or.inr (Or.inl rfl)⟩
  | false =>
      rw [if_neg Bool.false_ne_true]
      cases memory with
      | false => exact Or.inl ⟨.noMemory, rfl, ⟨hseg, hpipe⟩, nofun, Or.inr (Or.inr rfl)⟩
      | true => exact Or.inr ⟨rfl, hseg, rfl, rfl⟩

theorem inv_endSegment {toks : List Token} {s : State} {trace : Trace} (h : Inv toks ⟨s, trace⟩)
    (hpc : s.pc = .loop) {is_bg : Bool}
    (hseg : segmentsFrom s.seg s.cur = ⟨s.seg, is_bg⟩ :: behind s.cur) (memory : Bool) :
    Inv toks ⟨endSegment s is_bg memory, trace ++ ended s.seg is_bg memory⟩ := by
  obtain ⟨hfits, horder⟩ := h
  simp only [Order, hpc] at horder
  obtain ⟨hbreak, hgoing, hsegs⟩ := horder
  rw [hseg] at hsegs
  rcases ended_cases s.seg is_bg memory with ⟨o, hended, hfit, hstop, hskip⟩ |
    ⟨hended, hne, hpipe, hmem⟩
  · rw [hended, endSegment, if_pos hskip]
    refine ⟨List.forall_mem_append.mpr ⟨hfits, List.forall_mem_singleton.mpr hfit⟩, ?_⟩
    refine ⟨hbreak, hgoing.append (List.forall_mem_singleton.mpr hstop), ?_⟩
    simpa using hsegs
  · have hcall : ¬(s.seg = [] ∨ segmentHasPipe s.seg = true ∨ memory = false) := by
      simp [hne, hpipe, hmem]
    rw [hended, endSegment, if_neg hcall, List.append_nil]
    exact ⟨hfits, hbreak, hgoing, hne, hpipe, hsegs⟩

theorem inv_call {toks : List Token} {s : State} {trace : Trace} (h : Inv toks ⟨s, trace⟩)
    {args : ℕ} {is_bg : Bool} (hpc : s.pc = .call args is_bg) (st : Bool) :
    let x : Segment × Outcome := (⟨s.seg, is_bg⟩, .single st)
    s.should_break_outer = false ∧ Going trace ∧ (∀ y ∈ trace ++ [x], Fits y) ∧
      segments toks = (trace ++ [x]).map Prod.fst ++ behind s.cur := by
  obtain ⟨hfits, horder⟩ := h
  simp only [Order, hpc] at horder
  obtain ⟨hbreak, hgoing, hne, hpipe, hsegs⟩ := horder
  refine ⟨hbreak, hgoing, ?_, by simpa using hsegs⟩
  exact List.forall_mem_append.mpr ⟨hfits, List.forall_mem_singleton.mpr ⟨hne, hpipe⟩⟩

theorem inv_steps {toks : List Token} {s s' : State} {trace : Trace} {e : Event}
    (h : Inv toks ⟨s, trace⟩) (hs : Steps s e s') :
    Inv toks ⟨s', trace ++ recorded s e⟩ := by
  cases hs with
  | ended hpc hcur =>
      simp only [recorded, hcur]
      apply inv_endSegment h hpc
      rw [hcur]
      rfl
  | delim hpc hcur hdelim =>
      simp only [recorded, hcur, hdelim, if_true]
      apply inv_endSegment h hpc
      rw [hcur, segmentsFrom, if_pos hdelim]
      rfl
  | token hpc hcur hdelim =>
      obtain ⟨hfits, horder⟩ := h
      simp only [recorded, hcur, hdelim, Bool.false_eq_true, if_false, List.append_nil]
      simp only [Order, hpc, hcur, segmentsFrom, hdelim, Bool.false_eq_true, if_false] at horder
      refine ⟨hfits, ?_⟩
      simpa only [Order, hpc] using horder
  | failed hpc =>
      obtain ⟨-, hgoing, hfits, hsegs⟩ := inv_call h hpc true
      simp only [recorded, hpc]
      exact ⟨hfits, ⟨trace, _, rfl, hgoing, rfl, rfl⟩, hsegs⟩
  | @returned args is_bg st hpc hst =>
      obtain ⟨hbreak, hgoing, hfits, hsegs⟩ := inv_call h hpc st
      have hlast : ¬Stops (⟨s.seg, is_bg⟩, .single st) := by
        rintro ⟨rfl, hsingle⟩
        exact hst ⟨rfl, Outcome.single.inj hsingle⟩
      simp only [recorded, hpc]
      refine ⟨hfits, ?_, hsegs⟩
      simp only [hbreak, Bool.false_eq_true, if_false]
      exact hgoing.append (List.forall_mem_singleton.mpr hlast)
  | freeFailed hpc =>
      obtain ⟨hfits, horder⟩ := h
      simp only [Order, hpc] at horder
      simp only [recorded, List.append_nil]
      exact ⟨hfits, horder⟩
  | freeBreak hpc hbreak =>
      obtain ⟨hfits, horder⟩ := h
      simp only [Order, hpc, hbreak, if_true] at horder
      simp only [recorded, List.append_nil]
      exact ⟨hfits, Or.inr ⟨horder.1, _, horder.2⟩⟩
  | free hpc hbreak =>
      obtain ⟨hfits, horder⟩ := h
      simp only [Order, hpc, hbreak, Bool.false_eq_true, if_false] at horder
      simp only [recorded, List.append_nil]
      exact ⟨hfits, hbreak, horder⟩
  | last hpc hcur =>
      obtain ⟨hfits, horder⟩ := h
      simp only [Order, hpc, hcur, behind, List.append_nil] at horder
      simp only [recorded, List.append_nil]
      exact ⟨hfits, Or.inl horder.2⟩
  | leave hpc htrue =>
      obtain ⟨hfits, horder⟩ := h
      simp only [Order, hpc, htrue] at horder
      cases horder.1
  | again hpc hcur hbreak =>
      obtain ⟨hfits, horder⟩ := h
      simp only [Order, hpc, hcur] at horder
      simp only [recorded, List.append_nil]
      exact ⟨hfits, horder⟩

theorem inv_step {toks : List Token} {t u : Traced} {e : Event} (h : Inv toks t)
    (hu : step t e = some u) : Inv toks u := by
  obtain ⟨s, hs, rfl⟩ := Option.map_eq_some_iff.mp hu
  exact inv_steps h (steps_of_step hs)

theorem inv_of_reach {toks : List Token} {t : Traced}
    (ht : Run.Reach (· = start toks) step Run.Any t) : Inv toks t := by
  apply ht.invariant ?_ fun _ _ _ _ h _ hu => inv_step h hu
  rintro t rfl
  exact ⟨List.forall_mem_nil _, rfl, List.forall_mem_nil _, rfl⟩

theorem dispatched_of_left {toks : List Token} {t : Traced}
    (ht : Run.Reach (· = start toks) step Run.Any t) (hleft : t.state.pc = .left) :
    Dispatched toks t.trace := by
  obtain ⟨hfits, horder⟩ := inv_of_reach ht
  rw [Order, hleft] at horder
  exact ⟨hfits, horder⟩

/-! ## The loop is left -/

def Pc.rank : Pc → ℕ
  | .left => 0
  | .next => 1
  | .free _ => 2
  | .freeFailed _ => 3
  | .call _ _ => 4
  | .loop => 5

def rank (s : State) : ℕ := 6 * s.cur.length + Pc.rank s.pc

theorem rank_endSegment {s : State} (hpc : s.pc = .loop) (is_bg memory : Bool) :
    rank (endSegment s is_bg memory) < rank s := by
  rw [endSegment]
  split_ifs <;> simp [rank, Pc.rank, hpc]

theorem rank_step {s s' : State} {e : Event} (h : SegmentLoop.step s e = some s') :
    rank s' < rank s := by
  cases steps_of_step h with
  | ended hpc | delim hpc =>
      exact rank_endSegment hpc _ _
  | token hpc hcur =>
      simp [rank, hcur]
  | failed hpc | returned hpc | freeFailed hpc | freeBreak hpc | free hpc | last hpc | leave hpc =>
      simp [rank, hpc, Pc.rank]
  | again hpc hcur =>
      simp only [rank, hpc, hcur, Pc.rank, List.length_cons]
      omega

theorem wellFounded_step : WellFounded fun u t : Traced => ∃ e, step t e = some u := by
  apply Subrelation.wf (r := InvImage (· < ·) fun t : Traced => rank t.state)
  · rintro u t ⟨e, hu⟩
    obtain ⟨s, hs, rfl⟩ := Option.map_eq_some_iff.mp hu
    exact rank_step hs
  · exact InvImage.wf _ Nat.lt_wfRel.wf

theorem exists_step {t : Traced} (h : t.state.pc ≠ .left) : ∃ e u, step t e = some u := by
  obtain ⟨⟨seg, cur, should_break_outer, obtained, released, pc⟩, trace⟩ := t
  cases pc with
  | loop =>
      cases cur with
      | nil => exact ⟨.advance true, _, rfl⟩
      | cons cur next =>
          by_cases hdelim : cur.type.isDelim = true
          · exact ⟨.advance true, _, by simp only [step, SegmentLoop.step, hdelim]; rfl⟩
          · exact ⟨.advance true, _, by simp only [step, SegmentLoop.step, hdelim]; rfl⟩
  | call args is_bg => exact ⟨.result true, _, rfl⟩
  | freeFailed args => exact ⟨.release, _, rfl⟩
  | free args => exact ⟨.release, _, rfl⟩
  | next =>
      cases cur with
      | nil => exact ⟨.close, _, rfl⟩
      | cons cur next => cases should_break_outer <;> exact ⟨.close, _, rfl⟩
  | left => exact absurd rfl h

/-- The empty run in a record is the one behind a final `&`. -/
theorem empty_of_dispatched {toks : List Token} (hparse : parser toks = 0) {trace : Trace}
    (h : Dispatched toks trace) {l₁ l₂ : Trace} {x : Segment × Outcome}
    (htrace : trace = l₁ ++ x :: l₂) (hx : x.2 = .empty) :
    l₂ = [] ∧ (toks = [] ∨ ∃ ini t, toks = ini ++ [t] ∧ t.type = .OP_AMP) := by
  obtain ⟨hfits, horder⟩ := h
  have hnil : x.1.tokens = [] := by
    have hfit := hfits x (htrace ▸ List.mem_append_right _ (List.mem_cons_self ..))
    obtain ⟨seg, o⟩ := x
    obtain rfl : o = .empty := hx
    exact hfit
  obtain ⟨rest, hsegs⟩ : ∃ rest, segments toks = trace.map Prod.fst ++ rest := by
    rcases horder with ⟨-, hsegs⟩ | ⟨-, rest, hsegs⟩
    · exact ⟨[], hsegs.trans (List.append_nil _).symm⟩
    · exact ⟨rest, hsegs⟩
  have hsplit : segmentsFrom [] toks = l₁.map Prod.fst ++ x.1 :: (l₂.map Prod.fst ++ rest) := by
    rw [← segments, hsegs, htrace]
    simp
  have hacc : Grammar.Accepts (Grammar.loop .q_start ([] ++ toks)) :=
    Grammar.accepts_of_parser_eq_zero hparse
  obtain ⟨hl, hlast⟩ := Grammar.segmentsFrom_nil (Or.inl rfl) hacc hsplit hnil
  exact ⟨List.map_eq_nil_iff.mp (List.append_eq_nil_iff.mp hl).1, hlast⟩

/-- The loop comes to its end.  Until then it has taken the runs of tokens between
the delimiters one by one, as far as the first foreground command with the result 1. -/
theorem segments_dispatched {toks : List Token} (hparse : parser toks = 0) :
    MaximalRuns toks (segments toks) ∧
    (WellFounded fun u t : Traced => ∃ e, step t e = some u) ∧
    ∀ t, Run.Reach (· = start toks) step Run.Any t →
      (t.state.pc ≠ .left → ∃ e u, step t e = some u) ∧
      (t.state.pc = .left → Dispatched toks t.trace ∧
        ∀ l₁ x l₂, t.trace = l₁ ++ x :: l₂ → x.2 = .empty →
          l₂ = [] ∧ (toks = [] ∨ ∃ ini t, toks = ini ++ [t] ∧ t.type = .OP_AMP)) := by
  refine ⟨maximalRuns_segmentsFrom (List.forall_mem_nil _) toks, wellFounded_step, ?_⟩
  intro t ht
  refine ⟨exists_step, fun hleft => ?_⟩
  have hdispatched := dispatched_of_left ht hleft
  exact ⟨hdispatched, fun _ _ _ => empty_of_dispatched hparse hdispatched⟩

/-- The line `ls ; nosuch ; ls`, in which the second command is not found. -/
theorem segments_dispatched_not_found :
    let ls : Token := ⟨['l', 's'], .WORD⟩
    let nosuch : Token := ⟨['n', 'o'], .WORD⟩
    Dispatched [ls, ⟨[';'], .OP_SEMI⟩, nosuch, ⟨[';'], .OP_SEMI⟩, ls]
      [(⟨[ls], false⟩, .single false), (⟨[nosuch], false⟩, .single true)] := by
  intro ls nosuch
  have hstart : Run.Reach (· = start [ls, ⟨[';'], .OP_SEMI⟩, nosuch, ⟨[';'], .OP_SEMI⟩, ls]) step
      Run.Any (start [ls, ⟨[';'], .OP_SEMI⟩, nosuch, ⟨[';'], .OP_SEMI⟩, ls]) := .start rfl
  have hreach := hstart.exec [.advance true, .advance true, .result false, .release, .close,
    .advance true, .advance true, .result true, .release, .release] rfl
  exact (((segments_dispatched (by decide)).2.2 _ hreach).2 rfl).1

/-- The line `w w | b`. -/
def longLine (w : List Char) : List Token :=
  [⟨w, .WORD⟩, ⟨w, .WORD⟩, ⟨['|'], .OP_PIPE⟩, ⟨['b'], .WORD⟩]

theorem buildLine_longLine {w : List Char} (hw : w.length = 4095) :
    buildLineFromSegment (longLine w) pipeLineSize = none := by
  simp [buildLineFromSegment, longLine, buildLine, pipeLineSize, hw]

theorem reach_tooLong {w : List Char} (hw : w.length = 4095) :
    ∃ t, Run.Reach (· = start (longLine w)) step Run.Any t ∧ t.state.pc = .left ∧
      t.trace = [(⟨longLine w, false⟩, .tooLong)] := by
  have hended : ended (longLine w) false true = [(⟨longLine w, false⟩, .tooLong)] := by
    rw [ended, buildLine_longLine hw]
    rfl
  have hstart : Run.Reach (· = start (longLine w)) step Run.Any (start (longLine w)) := .start rfl
  have hread : Run.Reach (· = start (longLine w)) step Run.Any
      ⟨⟨longLine w, [], false, 0, [], .loop⟩, []⟩ :=
    hstart.exec [.advance true, .advance true, .advance true, .advance true] rfl
  have hleft : Run.Reach (· = start (longLine w)) step Run.Any
      ⟨⟨longLine w, [], false, 0, [], .left⟩, ended (longLine w) false true ++ []⟩ :=
    hread.exec [.advance true, .close] rfl
  exact ⟨_, hleft, rfl, (List.append_nil _).trans hended⟩

/-- A pipeline with two words of 4095 bytes each is accepted and not run. -/
theorem pipeline_dropped :
    parser (longLine (List.replicate 4095 'a')) = 0 ∧
      ∃ t, Run.Reach (· = start (longLine (List.replicate 4095 'a'))) step Run.Any t ∧
        t.state.pc = .left ∧
        t.trace = [(⟨longLine (List.replicate 4095 'a'), false⟩, .tooLong)] :=
  ⟨rfl, reach_tooLong List.length_replicate⟩

end ShellXv6.Shell.SegmentTrace
