import ShellXv6.Shell.Jobs
import ShellXv6.Shell.Pipeline

/-!
# A foreground pipeline that stops

`execute_pipeline` forks a child for each command and then waits for one after the
other, until it exits or stops.  Of the statuses only a flag is left for `main`,
and `add_stopped_job` enters every process of the pipeline as stopped.  That is
what happened just when no stage had come to its end.
-/

namespace ShellXv6.Shell.StoppedPipeline

open Jobs

/-- What `waitpid` reports with `WUNTRACED` alone. -/
abbrev Untraced := { status : WaitStatus // status ≠ .continued }

/-- The answers of the system to the calls of `execute_pipeline`; the last three are
indexed by the variable of the loop that makes the call. -/
structure Calls where
  strdup : Bool
  pipe : ℕ → Bool
  fork : ℕ → Option Pid
  waitpid : ℕ → Untraced

def isBlank (c : Char) : Bool := c = ' ' || c = '\t'

/-- The first word of a command, as far as `cmd_name` holds it. -/
def cmdName (command : List Char) : List Char :=
  ((command.dropWhile isBlank).takeWhile fun c => !isBlank c).take 255

/-- The pids of the first stages, unless a `fork` fails. -/
def forkStages (fork : ℕ → Option Pid) : ℕ → Option (List Pid)
  | 0 => some []
  | i + 1 => do
      let pids ← forkStages fork i
      let pid ← fork i
      return pids ++ [pid]

/-- The flag `is_stopped` behind the waits for the first stages. -/
def waitStages (waitpid : ℕ → Untraced) : ℕ → Bool
  | 0 => false
  | i + 1 => if (waitpid i).val = .stopped then true else waitStages waitpid i

structure Result where
  num_cmds : ℕ
  out_pids : List Pid
  out_cmds : List (List Char)
  stopped : Bool

/-- The result is `none` where the function returns 0. -/
def executePipeline (calls : Calls) (raw_line : List Char) : Option Result := do
  guard (calls.strdup = true)
  let commands ← splitCommands raw_line
  guard (∀ i < commands.length - 1, calls.pipe i = true)
  let pids ← forkStages calls.fork commands.length
  return {
    num_cmds := commands.length
    out_pids := pids
    out_cmds := commands.map cmdName
    stopped := waitStages calls.waitpid commands.length }

def addStoppedJob (jobs : List Job) (next_job_id : ℕ) (pgid : Pid) (pids : List Pid)
    (cmds : List (List Char)) : List Job × ℕ :=
  register jobs next_job_id pgid (pids.zip (cmds.map fun cmd => String.ofList (cmd.take 255)))
    .stopped

/-- What `main` does with a pipeline in the foreground. -/
def foregroundPipeline (calls : Calls) (jobs : List Job) (next_job_id : ℕ)
    (pipe_line : List Char) : List Job × ℕ :=
  match executePipeline calls pipe_line with
  | none => (jobs, next_job_id)
  | some r =>
      if r.stopped = true ∧ 0 < r.num_cmds then
        addStoppedJob jobs next_job_id (r.out_pids.headD 0) r.out_pids r.out_cmds
      else (jobs, next_job_id)

/-- Every stage of the line is forked. -/
structure Started (calls : Calls) (pipe_line : List Char) (commands : List (List Char)) :
    Prop where
  strdup : calls.strdup = true
  split : splitCommands pipe_line = some commands
  pipe : ∀ i < commands.length - 1, calls.pipe i = true
  fork : ∀ i < commands.length, calls.fork i ≠ none

/-- The table has got a job with an entry for each of `n` stages, which tells what
was reported about the stage. -/
def RecordedAsIs (calls : Calls) (n : ℕ) (before after : List Job) : Prop :=
  ∃ job, after = before ++ [job] ∧ job.procs.length = n ∧
    ∀ i < n, ∃ proc, job.procs[i]? = some proc ∧ calls.fork i = some proc.pid ∧
      proc.alive = (calls.waitpid i).val.alive

/-! ## The loops -/

theorem forkStages_spec {fork : ℕ → Option Pid} {n : ℕ} (h : ∀ i < n, fork i ≠ none) :
    ∃ pids, forkStages fork n = some pids ∧ pids.length = n ∧ ∀ i < n, fork i = pids[i]? := by
  induction n with
  | zero => exact ⟨[], rfl, rfl, nofun⟩
  | succ n ih =>
      obtain ⟨pids, hpids, hlen, hget⟩ := ih fun i hi => h i (Nat.lt_succ_of_lt hi)
      obtain ⟨pid, hpid⟩ := Option.ne_none_iff_exists'.mp (h n (Nat.lt_succ_self n))
      refine ⟨pids ++ [pid], ?_, ?_, ?_⟩
      · rw [forkStages, hpids, hpid]
        rfl
      · rw [List.length_append, hlen, List.length_singleton]
      · intro i hi
        rcases Nat.lt_succ_iff_lt_or_eq.mp hi with hi | rfl
        · rw [List.getElem?_append_left (hlen ▸ hi)]
          exact hget i hi
        · rw [← hlen, List.getElem?_concat_length, hlen]
          exact hpid

theorem waitStages_eq_true {waitpid : ℕ → Untraced} {n : ℕ} :
    waitStages waitpid n = true ↔ ∃ i < n, (waitpid i).val = .stopped := by
  induction n with
  | zero => simp [waitStages]
  | succ n ih =>
      rw [waitStages]
      by_cases hn : (waitpid n).val = .stopped
      · rw [if_pos hn]
        exact iff_of_true rfl ⟨n, Nat.lt_succ_self n, hn⟩
      · rw [if_neg hn, ih]
        constructor
        · rintro ⟨i, hi, hstop⟩
          exact ⟨i, Nat.lt_succ_of_lt hi, hstop⟩
        · rintro ⟨i, hi, hstop⟩
          refine ⟨i, ?_, hstop⟩
          apply Nat.lt_of_le_of_ne (Nat.le_of_lt_succ hi)
          rintro rfl
          exact hn hstop

theorem Started.executePipeline {calls : Calls} {pipe_line : List Char}
    {commands : List (List Char)} (h : Started calls pipe_line commands) :
    ∃ pids, pids.length = commands.length ∧ (∀ i < commands.length, calls.fork i = pids[i]?) ∧
      executePipeline calls pipe_line = some ⟨commands.length, pids, commands.map cmdName,
        waitStages calls.waitpid commands.length⟩ := by
  obtain ⟨pids, hpids, hlen, hget⟩ := forkStages_spec h.fork
  refine ⟨pids, hlen, hget, ?_⟩
  simp only [StoppedPipeline.executePipeline, h.strdup, h.split, guard, if_pos,
    Option.bind_eq_bind, Option.bind_some, Option.pure_def]
  rw [if_pos h.pipe, hpids]
  rfl

theorem alive_eq_stopped {status : WaitStatus} : status.alive = .stopped ↔ status = .stopped := by
  cases status <;> simp [WaitStatus.alive]

/-- The new job says that every stage is stopped. -/
theorem foregroundPipeline_eq {calls : Calls} {pipe_line : List Char}
    {commands : List (List Char)} (h : Started calls pipe_line commands)
    (hstop : ∃ i < commands.length, (calls.waitpid i).val = .stopped) (jobs : List Job)
    (next_job_id : ℕ) :
    ∃ job, job.procs.length = commands.length ∧
      (∀ i < commands.length, ∃ proc, job.procs[i]? = some proc ∧
        calls.fork i = some proc.pid ∧ proc.alive = .stopped) ∧
      (foregroundPipeline calls jobs next_job_id pipe_line).1 =
        if jobs.length < maxJobs then jobs ++ [job] else jobs := by
  obtain ⟨pids, hlen, hget, hrun⟩ := h.executePipeline
  obtain ⟨i, hi, hstopped⟩ := hstop
  have hflag : waitStages calls.waitpid commands.length = true :=
    waitStages_eq_true.mpr ⟨i, hi, hstopped⟩
  have hpos : 0 < commands.length := Nat.lt_of_le_of_lt (Nat.zero_le i) hi
  refine ⟨⟨next_job_id, pids.headD 0, (pids.zip ((commands.map cmdName).map fun cmd =>
    String.ofList (cmd.take 255))).map fun x => ⟨x.1, x.2, .stopped⟩⟩, ?_, ?_, ?_⟩
  · simp [hlen]
  · intro j hj
    have hjp : j < pids.length := hlen ▸ hj
    have hpid : calls.fork j = some pids[j] := by
      rw [hget j hj, List.getElem?_eq_getElem hjp]
    refine ⟨⟨pids[j], String.ofList ((cmdName commands[j]).take 255), .stopped⟩, ?_, hpid, rfl⟩
    rw [List.getElem?_eq_getElem (by simpa using Nat.lt_min.mpr ⟨hjp, hj⟩)]
    simp
  · rw [foregroundPipeline, hrun]
    simp only [hflag, hpos, and_self, if_true, addStoppedJob, register]
    split_ifs <;> rfl

/-- The record of a stopped pipeline is right just when every stage has stopped and
there is room for the job. -/
theorem stopped_pipeline_recorded_iff {calls : Calls} {pipe_line : List Char}
    {commands : List (List Char)} (h : Started calls pipe_line commands)
    (hstop : ∃ i < commands.length, (calls.waitpid i).val = .stopped) (jobs : List Job)
    (next_job_id : ℕ) :
    RecordedAsIs calls commands.length jobs
        (foregroundPipeline calls jobs next_job_id pipe_line).1 ↔
      jobs.length < maxJobs ∧ ∀ i < commands.length, (calls.waitpid i).val = .stopped := by
  obtain ⟨job, hprocs, hentry, hafter⟩ := foregroundPipeline_eq h hstop jobs next_job_id
  rw [hafter]
  constructor
  · rintro ⟨job', hjobs, -, hentry'⟩
    have hroom : jobs.length < maxJobs := by
      by_contra hfull
      rw [if_neg hfull] at hjobs
      exact List.cons_ne_nil _ _ (List.self_eq_append_right.mp hjobs)
    rw [if_pos hroom] at hjobs
    obtain rfl : job = job' := List.singleton_inj.mp (List.append_cancel_left hjobs)
    refine ⟨hroom, fun i hi => ?_⟩
    obtain ⟨proc, hproc, -, halive⟩ := hentry i hi
    obtain ⟨proc', hproc', -, halive'⟩ := hentry' i hi
    obtain rfl := Option.some.inj (hproc.symm.trans hproc')
    exact alive_eq_stopped.mp (halive'.symm.trans halive)
  · rintro ⟨hroom, hall⟩
    rw [if_pos hroom]
    refine ⟨job, rfl, hprocs, fun i hi => ?_⟩
    obtain ⟨proc, hproc, hpid, halive⟩ := hentry i hi
    exact ⟨proc, hproc, hpid, halive.trans (alive_eq_stopped.mpr (hall i hi)).symm⟩

/-- `sleep 9 | true`: the second stage exits, then the first one is stopped. -/
def sleepTrue (second : Untraced) : Calls where
  strdup := true
  pipe _ := true
  fork i := some (100 + i)
  waitpid i := if i = 0 then ⟨.stopped, nofun⟩ else second

theorem started_sleepTrue (second : Untraced) : Started (sleepTrue second) "sleep 9 | true".toList
    ["sleep 9 ".toList, " true".toList] where
  strdup := rfl
  split := by decide
  pipe _ _ := rfl
  fork _ _ := nofun

theorem stopped_pipeline_recorded_sleep :
    RecordedAsIs (sleepTrue ⟨.stopped, nofun⟩) 2 []
      (foregroundPipeline (sleepTrue ⟨.stopped, nofun⟩) [] 1 "sleep 9 | true".toList).1 :=
  (stopped_pipeline_recorded_iff (started_sleepTrue _) ⟨0, by decide, rfl⟩ [] 1).mpr
    ⟨by decide, fun i _ => by cases i <;> rfl⟩

/-- The stage that has exited is recorded as stopped. -/
theorem exited_stage_recorded_stopped :
    ((sleepTrue ⟨.exited, nofun⟩).waitpid 0).val = .stopped ∧
      ((sleepTrue ⟨.exited, nofun⟩).waitpid 1).val = .exited ∧
      (foregroundPipeline (sleepTrue ⟨.exited, nofun⟩) [] 1 "sleep 9 | true".toList).1 =
        [⟨1, 100, [⟨100, "sleep", .stopped⟩, ⟨101, "true", .stopped⟩]⟩] := by
  refine ⟨rfl, rfl, ?_⟩
  decide

end ShellXv6.Shell.StoppedPipeline
