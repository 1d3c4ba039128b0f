import ShellXv6.Lib.SignalMask

/-!
# The signal masks of the launches

`SIGCHLD` is blocked around every launch, and each function saves the mask it
finds.  The shell gets its own mask back on every path.  A single command is
executed with that mask as well; but when `main` starts a pipeline it has already
blocked the signal, so what the stages of the pipeline restore is the blocked
mask, and they execute their programs with it.
-/

namespace ShellXv6.Shell.LaunchMasks

open SignalMask

abbrev Signal := ℕ

def sigchld : Signal := 17

abbrev Mask := Finset Signal

/-- What the dispatch of `execute_single` and `execute_command` calls, with the
answers of the system to it. -/
inductive Command
  /-- A builtin that executes no program. -/
  | builtin
  /-- `execute_snoop`: whether it gets to its `fork`, and what that and `execvp` do. -/
  | snoop (traces forked execOk : Bool)
  | external (found forked execOk : Bool)

/-- `execute_external`; a `fork` that fails restores the mask as well. -/
def executeExternal (found forked execOk : Bool) : Prog Signal Unit := do
  if found then
    let prev ← block sigchld
    if forked then
      fork do
        setmask prev
        if execOk then execv
    setmask prev

def executeSnoop (traces forked execOk : Bool) : Prog Signal Unit := do
  if traces then
    if forked then
      fork do
        if execOk then execv

def Command.run : Command → Prog Signal Unit
  | .builtin => return
  | .snoop traces forked execOk => executeSnoop traces forked execOk
  | .external found forked execOk => executeExternal found forked execOk

/-- `setup` is false if a descriptor, memory or a redirection is refused. -/
def executeSingle (setup : Bool) (command : Command) : Prog Signal Unit := do
  if setup then command.run

/-- `ready` is false for a builtin, a command that is not found and an empty one. -/
def launchBackgroundSingle (ready forked setup execOk : Bool) : Prog Signal Unit := do
  if ready then
    let prev ← block sigchld
    if forked then
      fork do
        setmask prev
        if setup then
          if execOk then execv
    setmask prev

/-- A stage of a pipeline; `setup` covers what its child does in front of the
dispatch of `execute_command`. -/
structure Stage where
  forked : Bool
  setup : Bool
  command : Command

/-- The loop over the stages, which a `fork` that fails leaves. -/
def forkStages (enter : Prog Signal Unit) : List Stage → Prog Signal Unit
  | [] => return
  | stage :: rest => do
      if stage.forked then
        fork do
          enter
          if stage.setup then stage.command.run
        forkStages enter rest

/-- `ready` is false if the line cannot be cut into commands or a pipe is refused. -/
def executePipeline (ready : Bool) (stages : List Stage) : Prog Signal Unit := do
  if ready then
    let prev ← block sigchld
    forkStages (setmask prev) stages
    setmask prev

def executePipelineBg (ready : Bool) (stages : List Stage) : Prog Signal Unit := do
  if ready then forkStages (pure ()) stages

inductive Segment
  | single (setup : Bool) (command : Command)
  | backgroundSingle (ready forked setup execOk : Bool)
  | pipeline (ready : Bool) (stages : List Stage)
  | backgroundPipeline (ready : Bool) (stages : List Stage)

/-- The dispatch of a segment in `main`. -/
def Segment.run : Segment → Prog Signal Unit
  | .single setup command => executeSingle setup command
  | .backgroundSingle ready forked setup execOk => launchBackgroundSingle ready forked setup execOk
  | .pipeline ready stages => do
      let prev ← block sigchld
      executePipeline ready stages
      setmask prev
  | .backgroundPipeline ready stages => do
      let prev ← block sigchld
      executePipelineBg ready stages
      setmask prev

def runAll : List Segment → Prog Signal Unit
  | [] => return
  | seg :: rest => do
      seg.run
      runAll rest

/-- The shell after some segments, if it was started with the mask `start`. -/
def after (start : Mask) (segs : List Segment) : Process Signal := ((runAll segs).run ⟨start, []⟩).2

/-- After each segment the shell has its first mask, and so had every program. -/
def MasksKept (start : Mask) (segs : List Segment) : Prop :=
  ∀ done rest, segs = done ++ rest →
    (after start done).mask = start ∧ ∀ mask ∈ (after start done).execs, mask = start

/-! ## The programs of a segment -/

def Command.programs : Command → ℕ
  | .builtin => 0
  | .snoop traces forked execOk => if traces && forked && execOk then 1 else 0
  | .external found forked execOk => if found && forked && execOk then 1 else 0

/-- The programs of the stages in front of the first `fork` that fails. -/
def stagePrograms : List Stage → ℕ
  | [] => 0
  | stage :: rest =>
      if stage.forked then
        (if stage.setup then stage.command.programs else 0) + stagePrograms rest
      else 0

def Segment.programs : Segment → ℕ
  | .single setup command => if setup then command.programs else 0
  | .backgroundSingle ready forked setup execOk =>
      if ready && forked && setup && execOk then 1 else 0
  | .pipeline ready stages => if ready then stagePrograms stages else 0
  | .backgroundPipeline ready stages => if ready then stagePrograms stages else 0

def Segment.isPipeline : Segment → Bool
  | .single _ _ => false
  | .backgroundSingle _ _ _ _ => false
  | .pipeline _ _ => true
  | .backgroundPipeline _ _ => true

/-- The mask with which the programs of a segment are executed. -/
def Segment.execMask (mask : Mask) (seg : Segment) : Mask :=
  if seg.isPipeline then insert sigchld mask else mask

theorem neutral_executeExternal (found forked execOk : Bool) :
    Neutral (executeExternal found forked execOk) fun m =>
      List.replicate (Command.external found forked execOk).programs m := by
  have hchild (prev : Mask) :
      Execs (do setmask prev; if execOk then execv) fun _ => if execOk then [prev] else [] :=
    execs_setmask (neutral_execv.when _).execs prev
  have hbody (prev : Mask) := ((neutral_fork (hchild prev)).when (forked = true)).execs
  have h := (neutral_restored (s := sigchld) hbody).when (found = true)
  cases found <;> cases forked <;> cases execOk <;> exact h

theorem neutral_executeSnoop (traces forked execOk : Bool) :
    Neutral (executeSnoop traces forked execOk) fun m =>
      List.replicate (Command.snoop traces forked execOk).programs m := by
  have hchild := (neutral_execv (σ := Signal)).when (execOk = true)
  have h := ((neutral_fork hchild.execs).when (forked = true)).when (traces = true)
  cases traces <;> cases forked <;> cases execOk <;> exact h

theorem neutral_command (command : Command) :
    Neutral command.run fun m => List.replicate command.programs m := by
  cases command with
  | builtin => exact neutral_skip
  | snoop traces forked execOk => exact neutral_executeSnoop traces forked execOk
  | external found forked execOk => exact neutral_executeExternal found forked execOk

theorem neutral_launchBackgroundSingle (ready forked setup execOk : Bool) :
    Neutral (launchBackgroundSingle ready forked setup execOk) fun m =>
      List.replicate (Segment.backgroundSingle ready forked setup execOk).programs m := by
  have hexec := (((neutral_execv (σ := Signal)).when (execOk = true)).when (setup = true)).execs
  have hbody (prev : Mask) :=
    ((neutral_fork (execs_setmask hexec prev)).when (forked = true)).execs
  have h := (neutral_restored (s := sigchld) hbody).when (ready = true)
  cases ready <;> cases forked <;> cases setup <;> cases execOk <;> exact h

/-- `g` is what `enter` makes of the mask of a stage. -/
theorem neutral_forkStages (enter : Prog Signal Unit) (g : Mask → Mask)
    (henter : ∀ p f, Execs p f → Execs (do enter; p) fun m => f (g m)) (stages : List Stage) :
    Neutral (forkStages enter stages) fun m => List.replicate (stagePrograms stages) (g m) := by
  induction stages with
  | nil => exact neutral_skip
  | cons stage rest ih =>
      have hcommand := ((neutral_command stage.command).when (stage.setup = true)).execs
      have h := ((neutral_fork (henter _ _ hcommand)).seq ih).when (stage.forked = true)
      refine Neutral.congr h fun m => ?_
      rw [stagePrograms]
      cases stage.forked with
      | false => rfl
      | true => cases stage.setup <;> simp

theorem neutral_executePipeline (ready : Bool) (stages : List Stage) :
    Neutral (executePipeline ready stages) fun m =>
      List.replicate (if ready then stagePrograms stages else 0) m := by
  have hbody (prev : Mask) := (neutral_forkStages (setmask prev) (fun _ => prev)
    (fun _ _ hp => execs_setmask hp prev) stages).execs
  have h := (neutral_restored (s := sigchld) hbody).when (ready = true)
  cases ready <;> exact h

theorem neutral_executePipelineBg (ready : Bool) (stages : List Stage) :
    Neutral (executePipelineBg ready stages) fun m =>
      List.replicate (if ready then stagePrograms stages else 0) m := by
  have h := (neutral_forkStages (pure ()) id (fun _ _ hp => hp) stages).when (ready = true)
  cases ready <;> exact h

/-- What `main` has blocked is still blocked in the programs of a pipeline. -/
theorem neutral_segment (seg : Segment) :
    Neutral seg.run fun m => List.replicate seg.programs (seg.execMask m) := by
  cases seg with
  | single setup command =>
      have h := (neutral_command command).when (setup = true)
      cases setup <;> exact h
  | backgroundSingle ready forked setup execOk =>
      exact neutral_launchBackgroundSingle ready forked setup execOk
  | pipeline ready stages =>
      exact neutral_restored fun _ => (neutral_executePipeline ready stages).execs
  | backgroundPipeline ready stages =>
      exact neutral_restored fun _ => (neutral_executePipelineBg ready stages).execs

theorem neutral_runAll (segs : List Segment) :
    Neutral (runAll segs) fun m =>
      segs.flatMap fun seg => List.replicate seg.programs (seg.execMask m) := by
  induction segs with
  | nil => exact neutral_skip
  | cons seg rest ih =>
      apply ((neutral_segment seg).seq ih).congr
      intro m
      rw [List.flatMap_cons]

theorem after_eq (start : Mask) (segs : List Segment) :
    after start segs =
      ⟨start, segs.flatMap fun seg => List.replicate seg.programs (seg.execMask start)⟩ :=
  neutral_runAll segs ⟨start, []⟩

theorem execMask_eq_iff (start : Mask) (seg : Segment) :
    seg.execMask start = start ↔ (seg.isPipeline = true → sigchld ∈ start) := by
  rw [Segment.execMask]
  cases seg.isPipeline with
  | false => simp
  | true => simp

/-- The shell's own mask is always restored; the programs have it just when none of
them is executed by a pipeline, or the shell was started with `SIGCHLD` blocked. -/
theorem masks_kept_iff (start : Mask) (segs : List Segment) :
    MasksKept start segs ↔
      sigchld ∈ start ∨ ∀ seg ∈ segs, seg.isPipeline = true → seg.programs = 0 := by
  constructor
  · intro h
    obtain ⟨-, hexecs⟩ := h segs [] (List.append_nil segs).symm
    refine or_iff_not_imp_left.mpr fun hchld seg hseg hpipe => ?_
    by_contra hprog
    have hmem : seg.execMask start ∈ (after start segs).execs := by
      rw [after_eq]
      exact List.mem_flatMap.mpr ⟨seg, hseg, List.mem_replicate.mpr ⟨hprog, rfl⟩⟩
    exact hchld ((execMask_eq_iff start seg).mp (hexecs _ hmem) hpipe)
  · rintro h done rest rfl
    rw [after_eq]
    refine ⟨rfl, fun mask hmask => ?_⟩
    obtain ⟨seg, hseg, hmem⟩ := List.mem_flatMap.mp hmask
    obtain ⟨hprog, rfl⟩ := List.mem_replicate.mp hmem
    refine (execMask_eq_iff start seg).mpr fun hpipe => ?_
    exact h.resolve_right fun hnone => hprog (hnone seg (List.mem_append_left _ hseg) hpipe)

/-- `ls | wc`: both programs are executed with `SIGCHLD` blocked. -/
theorem pipeline_executes_blocked :
    after ∅ [.pipeline true [⟨true, true, .external true true true⟩,
      ⟨true, true, .external true true true⟩]] = ⟨∅, [{sigchld}, {sigchld}]⟩ := by
  decide

end ShellXv6.Shell.LaunchMasks
