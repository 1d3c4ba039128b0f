import ShellXv6.Lib.Run
import ShellXv6.Shell.Parser
import Mathlib.Data.List.Range

/-!
# The argument arrays of the segment loop

For each segment without a pipe `main` obtains an array `args`, calls
`launch_background_single` or `execute_single` and releases the array.  The
release stands in two places: after the call, and before that in the branch for
a foreground command whose result is 1.  The model runs the loop statement by
statement and keeps a record of the arrays; their numbers count the calls of
`malloc` that gave one.
-/

namespace ShellXv6.Shell.SegmentLoop

inductive Pc
  /-- The head of the loop. -/
  | loop
  /-- In front of the call with the array `args`. -/
  | call (args : ℕ) (is_bg : Bool)
  /-- In front of `free(args)` in the branch `st == 1`. -/
  | freeFailed (args : ℕ)
  /-- In front of `free(args)` after the call. -/
  | free (args : ℕ)
  /-- The segment is done. -/
  | next
  /-- The loop has been left. -/
  | left
  deriving DecidableEq

structure State where
  /-- The tokens between `seg_start` and `cur`. -/
  seg : List Token
  /-- The tokens from `cur` on. -/
  cur : List Token
  should_break_outer : Bool
  obtained : ℕ
  /-- The arrays in the order of their releases. -/
  released : List ℕ
  pc : Pc

inductive Event
  /-- From the head of the loop; `malloc` gives memory or not. -/
  | advance (memory : Bool)
  /-- The call returns, with `st = 1` or with `st = 0`. -/
  | result (st : Bool)
  | release
  | close

/-- The end of a segment; an empty one, one with a pipe and one for which there is
no memory need no array. -/
def endSegment (s : State) (is_bg memory : Bool) : State :=
  if s.seg = [] ∨ segmentHasPipe s.seg = true ∨ memory = false then { s with pc := .next }
  else { s with obtained := s.obtained + 1, pc := .call s.obtained is_bg }

def step (s : State) : Event → Option State
  | .advance memory =>
      match s.pc, s.cur with
      | .loop, [] => some (endSegment s false memory)
      | .loop, cur :: next =>
          if cur.type.isDelim then some (endSegment s (cur.type = .OP_AMP) memory)
          else some { s with seg := s.seg ++ [cur], cur := next }
      | _, _ => none
  | .result st =>
      match s.pc with
      | .call args is_bg =>
          some { s with pc := if is_bg = false ∧ st = true then .freeFailed args else .free args }
      | _ => none
  | .release =>
      match s.pc with
      | .freeFailed args =>
          some { s with
            released := s.released ++ [args], should_break_outer := true, pc := .free args }
      | .free args =>
          some { s with
            released := s.released ++ [args]
            pc := if s.should_break_outer then .left else .next }
      | _ => none
  | .close =>
      match s.pc, s.cur with
      | .next, [] => some { s with pc := .left }
      | .next, _ :: next =>
          if s.should_break_outer then some { s with pc := .left }
          else some { s with seg := [], cur := next, pc := .loop }
      | _, _ => none

/-- What a step needs and what it makes of the state. -/
inductive Steps (s : State) : Event → State → Prop
  | ended {memory : Bool} (hpc : s.pc = .loop) (hcur : s.cur = []) :
      Steps s (.advance memory) (endSegment s false memory)
  | delim {memory : Bool} {cur : Token} {next : List Token} (hpc : s.pc = .loop)
      (hcur : s.cur = cur :: next) (hdelim : cur.type.isDelim = true) :
      Steps s (.advance memory) (endSegment s (cur.type = .OP_AMP) memory)
  | token {memory : Bool} {cur : Token} {next : List Token} (hpc : s.pc = .loop)
      (hcur : s.cur = cur :: next) (hdelim : cur.type.isDelim = false) :
      Steps s (.advance memory) { s with seg := s.seg ++ [cur], cur := next }
  | failed {args : ℕ} (hpc : s.pc = .call args false) :
      Steps s (.result true) { s with pc := .freeFailed args }
  | returned {args : ℕ} {is_bg st : Bool} (hpc : s.pc = .call args is_bg)
      (hst : ¬(is_bg = false ∧ st = true)) : Steps s (.result st) { s with pc := .free args }
  | freeFailed {args : ℕ} (hpc : s.pc = .freeFailed args) :
      Steps s .release { s with
        released := s.released ++ [args], should_break_outer := true, pc := .free args }
  | freeBreak {args : ℕ} (hpc : s.pc = .free args) (hbreak : s.should_break_outer = true) :
      Steps s .release { s with released := s.released ++ [args], pc := .left }
  | free {args : ℕ} (hpc : s.pc = .free args) (hbreak : s.should_break_outer = false) :
      Steps s .release { s with released := s.released ++ [args], pc := .next }
  | last (hpc : s.pc = .next) (hcur : s.cur = []) : Steps s .close { s with pc := .left }
  | leave (hpc : s.pc = .next) (hbreak : s.should_break_outer = true) :
      Steps s .close { s with pc := .left }
  | again {cur : Token} {next : List Token} (hpc : s.pc = .next) (hcur : s.cur = cur :: next)
      (hbreak : s.should_break_outer = false) :
      Steps s .close { s with seg := [], cur := next, pc := .loop }

theorem steps_of_step {s t : State} {e : Event} (ht : step s e = some t) : Steps s e t := by
  obtain ⟨seg, cur, should_break_outer, obtained, released, pc⟩ := s
  cases e with
  | advance memory =>
      cases pc with
      | loop =>
          cases cur with
          | nil =>
              cases ht
              exact .ended rfl rfl
          | cons cur next =>
              cases hdelim : cur.type.isDelim with
              | true =>
                  simp only [step, hdelim, if_true, Option.some.injEq] at ht
                  subst ht
                  exact .delim rfl rfl hdelim
              | false =>
                  simp only [step, hdelim, Bool.false_eq_true, if_false, Option.some.injEq] at ht
                  subst ht
                  exact .token rfl rfl hdelim
      | call | freeFailed | free | next | left =>
          cases ht
  | result st =>
      cases pc with
      | call args is_bg =>
          cases ht
          by_cases hst : is_bg = false ∧ st = true
          · obtain ⟨rfl, rfl⟩ := hst
            exact .failed rfl
          · simp only [hst, if_false]
            exact .returned rfl hst
      | loop | freeFailed | free | next | left =>
          cases ht
  | release =>
      cases pc with
      | freeFailed args =>
          cases ht
          exact .freeFailed rfl
      | free args =>
          cases should_break_outer with
          | true =>
              cases ht
              exact .freeBreak rfl rfl
          | false =>
              cases ht
              exact .free rfl rfl
      | loop | call | next | left =>
          cases ht
  | close =>
      cases pc with
      | next =>
          cases cur with
          | nil =>
              cases ht
              exact .last rfl rfl
          | cons cur next =>
              cases should_break_outer with
              | true =>
                  cases ht
                  exact .leave rfl rfl
              | false =>
                  cases ht
                  exact .again rfl rfl rfl
      | loop | call | freeFailed | free | left =>
          cases ht

def start (toks : List Token) : State := ⟨[], toks, false, 0, [], .loop⟩

/-- No array is released twice, and each one has been released when the loop is
left. -/
def ReleasedOnce (s : State) : Prop :=
  s.released.Nodup ∧ (s.pc = .left → ∀ args < s.obtained, args ∈ s.released)

/-- The call of `execute_single` returns 0. -/
def Succeeds (s : State) (e : Event) : Prop :=
  ∀ args, s.pc = .call args false → e ≠ .result true

/-- The arrays are released in the order in which they are obtained. -/
def Inv (s : State) : Prop :=
  s.should_break_outer = false ∧
    match s.pc with
    | .call args _ => s.obtained = args + 1 ∧ s.released = List.range args
    | .freeFailed _ => False
    | .free args => s.obtained = args + 1 ∧ s.released = List.range args
    | _ => s.released = List.range s.obtained

theorem Inv.endSegment {s : State} (h : Inv s) (hpc : s.pc = .loop) (is_bg memory : Bool) :
    Inv (endSegment s is_bg memory) := by
  obtain ⟨hbreak, hreleased⟩ := h
  rw [hpc] at hreleased
  rw [SegmentLoop.endSegment]
  by_cases hseg : s.seg = [] ∨ segmentHasPipe s.seg = true ∨ memory = false
  · rw [if_pos hseg]
    exact ⟨hbreak, hreleased⟩
  · rw [if_neg hseg]
    exact ⟨hbreak, rfl, hreleased⟩

theorem inv_step {s t : State} {e : Event} (h : Inv s) (hok : Succeeds s e)
    (ht : step s e = some t) : Inv t := by
  obtain ⟨hbreak, hreleased⟩ := h
  cases steps_of_step ht with
  | ended hpc | delim hpc =>
      exact Inv.endSegment ⟨hbreak, hreleased⟩ hpc _ _
  | token hpc =>
      rw [hpc] at hreleased
      exact ⟨hbreak, by simpa only [hpc] using hreleased⟩
  | failed hpc =>
      exact absurd rfl (hok _ hpc)
  | returned hpc =>
      rw [hpc] at hreleased
      exact ⟨hbreak, hreleased⟩
  | freeFailed hpc =>
      rw [hpc] at hreleased
      exact hreleased.elim
  | freeBreak hpc htrue | leave hpc htrue =>
      rw [hbreak] at htrue
      cases htrue
  | free hpc =>
      rw [hpc] at hreleased
      obtain ⟨hobtained, hreleased⟩ := hreleased
      refine ⟨hbreak, ?_⟩
      simp only
      rw [hobtained, hreleased, List.range_succ]
  | last hpc | again hpc =>
      rw [hpc] at hreleased
      exact ⟨hbreak, hreleased⟩

theorem Inv.releasedOnce {s : State} (h : Inv s) : ReleasedOnce s := by
  obtain ⟨seg, cur, should_break_outer, obtained, released, pc⟩ := s
  obtain ⟨-, h⟩ := h
  cases pc with
  | loop | next | left =>
      obtain rfl : released = List.range obtained := h
      exact ⟨List.nodup_range, fun _ args hargs => List.mem_range.mpr hargs⟩
  | call args | free args =>
      obtain rfl : released = List.range args := h.2
      exact ⟨List.nodup_range, nofun⟩
  | freeFailed args =>
      exact h.elim

/-- A foreground command with the result 1. -/
theorem exec_failed {s : State} {args : ℕ} (hpc : s.pc = .call args false) :
    ∃ t, Run.exec step [.result true, .release, .release] s = some t ∧
      t.released = s.released ++ [args, args] := by
  obtain ⟨seg, cur, should_break_outer, obtained, released, pc⟩ := s
  obtain rfl : pc = .call args false := hpc
  exact ⟨_, rfl, List.append_assoc _ _ _⟩

/-- The arrays are released once if every foreground command returns 0, and one
that returns 1 has its array released twice. -/
theorem args_released_once (toks : List Token) :
    (∀ s, Run.Reach (· = start toks) step Succeeds s → ReleasedOnce s) ∧
      ∀ s args, Run.Reach (· = start toks) step Run.Any s → s.pc = .call args false →
        ∃ t, Run.exec step [.result true, .release, .release] s = some t ∧ ¬ReleasedOnce t := by
  constructor
  · intro s hs
    refine Inv.releasedOnce (hs.invariant ?_ fun s e t _ h hok ht => inv_step h hok ht)
    rintro s rfl
    exact ⟨rfl, rfl⟩
  · intro s args _ hpc
    obtain ⟨t, ht, hreleased⟩ := exec_failed hpc
    refine ⟨t, ht, fun honce => ?_⟩
    have hnodup := honce.1
    rw [hreleased] at hnodup
    simpa using (List.nodup_append.mp hnodup).2.1

/-- The line `ls ; ls &`. -/
theorem args_released_once_ls :
    ReleasedOnce ⟨[], [], false, 2, [0, 1], .left⟩ := by
  let toks : List Token :=
    [⟨['l', 's'], .WORD⟩, ⟨[';'], .OP_SEMI⟩, ⟨['l', 's'], .WORD⟩, ⟨['&'], .OP_AMP⟩]
  let es : List Event :=
    [.advance true, .advance true, .result false, .release, .close, .advance true, .advance true,
      .result false, .release, .close, .advance true, .close]
  have hreach : Run.Reach (· = start toks) step Succeeds ⟨[], [], false, 2, [0, 1], .left⟩ := by
    have hstart : Run.Reach (· = start toks) step Succeeds (start toks) := .start rfl
    refine hstart.script es ?_ rfl
    intro e he s args _ hst
    subst hst
    simp [es] at he
  exact (args_released_once toks).1 _ hreach

/-- The line `nosuch`, for which `execute_external` finds no command. -/
theorem not_releasedOnce_command_not_found :
    let toks : List Token := [⟨['n', 'o', 's', 'u', 'c', 'h'], .WORD⟩]
    parser toks = 0 ∧ ∃ s, Run.Reach (· = start toks) step Run.Any s ∧
      s.pc = .left ∧ s.released = [0, 0] ∧ ¬ReleasedOnce s := by
  intro toks
  have hstart : Run.Reach (· = start toks) step Run.Any (start toks) := .start rfl
  have hreach := hstart.exec [.advance true, .advance true, .result true, .release, .release] rfl
  refine ⟨rfl, _, hreach, rfl, rfl, fun honce => ?_⟩
  exact absurd honce.1 (by decide)

end ShellXv6.Shell.SegmentLoop
