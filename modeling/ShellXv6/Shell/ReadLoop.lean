import ShellXv6.Lib.Run
import ShellXv6.Shell.Jobs

/-!
# The read loop of the shell

`main` shows the prompt, reads a line and runs it.  When `getline` gives no line,
`errno` decides: `EINTR` means that a signal interrupted the read, anything else
is taken for the end of the input.  `getline` does not change `errno` at the end
of the file and no call that succeeds does, so the test may see a value that was
left behind by an earlier iteration.
-/

namespace ShellXv6.Shell.ReadLoop

abbrev Errno := ℕ

def eintr : Errno := 4

/-- The errors of a call that no signal interrupts. -/
abbrev CallError := { e : Errno // e ≠ eintr }

/-- What the head of the loop depends on. -/
structure State where
  errno : Errno
  ctrl_d_count : ℕ
  jobs : List Job
  /-- The error with which `getcwd` fails, if it does. -/
  getcwd : Option CallError
  /-- The error with which a write to standard output fails, if it does. -/
  stdout : Option CallError

/-- The call that fails in `display_prompt`. -/
def promptError (s : State) : Option CallError :=
  match s.getcwd with
  | some e => some e
  | none => s.stdout

/-- What the prompt does to `errno`; its text is left out. -/
def displayPrompt (s : State) : State :=
  match promptError s with
  | some e => { s with errno := e }
  | none => s

/-- What `getline` gives: a line with its newline if it has one, an error or the
end of the file. -/
inductive Read
  | line (c : Char) (rest : List Char)
  | failed (e : Errno)
  | eof

def hasStopped (jobs : List Job) : Bool :=
  jobs.any fun job => job.procs.any fun proc => proc.alive = .stopped

inductive Signal
  | sighup
  | sigcont
  deriving DecidableEq

/-- The signals to the groups of the jobs before the loop is left. -/
def hangUp (jobs : List Job) : List (Pid × Signal) :=
  jobs.flatMap fun job =>
    if job.procs.any fun proc => proc.alive ≠ .exited then
      [(job.pgid, .sighup), (job.pgid, .sigcont)]
    else []

inductive Outcome
  | again (s : State)
  /-- The message `cshell: there are stopped jobs`. -/
  | warned (s : State)
  | command (line : List Char) (s : State)
  | exit (signals : List (Pid × Signal))

/-- The branch `nread == -1`. -/
def noLine (s : State) : Outcome :=
  if s.errno = eintr then .again s
  else if hasStopped s.jobs = true ∧ s.ctrl_d_count = 0 then
    .warned { s with ctrl_d_count := s.ctrl_d_count + 1 }
  else .exit (hangUp s.jobs)

def resetCtrlD (c : Char) (nread ctrl_d_count : ℕ) : ℕ :=
  if nread > 1 then 0 else if nread = 1 ∧ c = '\n' then 0 else ctrl_d_count

/-- One iteration up to the lexer. -/
def iteration (s : State) (r : Read) : Outcome :=
  let s := displayPrompt s
  match r with
  | .line c rest =>
      .command (c :: rest) { s with ctrl_d_count := resetCtrlD c (rest.length + 1) s.ctrl_d_count }
  | .failed e => noLine { s with errno := e }
  | .eof => noLine s

/-! ## Runs of the loop -/

/-- What a command line leaves behind. -/
structure Effect where
  errno : Errno
  jobs : List Job
  getcwd : Option CallError
  stdout : Option CallError

inductive Event
  /-- An iteration; a line that is read may have any effect. -/
  | iterate (r : Read) (effect : Effect)
  /-- A round of `sigchld_handler`, which restores `errno`. -/
  | sigchld (p : Pid) (status : WaitStatus)
  /-- Another process removes the working directory or closes the other end of
  standard output. -/
  | environment (getcwd stdout : Option CallError)

/-- The loop from head to head. -/
def step (s : State) : Event → Option State
  | .iterate r effect =>
      match iteration s r with
      | .again t => some t
      | .warned t => some t
      | .command _ t =>
          some ⟨effect.errno, t.ctrl_d_count, effect.jobs, effect.getcwd, effect.stdout⟩
      | .exit _ => none
  | .sigchld p status => some { s with jobs := (Jobs.sigchldHandler s.jobs p status).1 }
  | .environment getcwd stdout => some { s with getcwd := getcwd, stdout := stdout }

def init (s : State) : Prop := s.ctrl_d_count = 0 ∧ s.jobs = []

/-- With the input at its end and no more signals, the loop is left within `k`
iterations. -/
def exitsWithin : ℕ → State → Bool
  | 0, _ => false
  | k + 1, s =>
      match iteration s .eof with
      | .again t => exitsWithin k t
      | .warned t => exitsWithin k t
      | .command _ _ => false
      | .exit _ => true

theorem promptError_isSome_iff (s : State) :
    (promptError s).isSome = true ↔ s.getcwd.isSome = true ∨ s.stdout.isSome = true := by
  rw [promptError]
  cases s.getcwd with
  | some e => simp
  | none => simp

/-- The prompt clears an old `EINTR` only if a call of it fails. -/
theorem displayPrompt_errno_ne_iff (s : State) :
    (displayPrompt s).errno ≠ eintr ↔ s.errno ≠ eintr ∨ (promptError s).isSome = true := by
  rw [displayPrompt]
  cases promptError s with
  | some e => simpa using e.2
  | none => simp

theorem displayPrompt_of_eintr {s : State} (h : (displayPrompt s).errno = eintr) :
    displayPrompt s = s := by
  cases herror : promptError s with
  | some e =>
      rw [displayPrompt, herror] at h
      exact absurd h e.2
  | none => rw [displayPrompt, herror]

/-- A state in which the loop has once found `EINTR` at the end of the input. -/
theorem exitsWithin_of_eintr (k : ℕ) {s : State} (h : (displayPrompt s).errno = eintr) :
    exitsWithin k s = false := by
  induction k generalizing s with
  | zero => rfl
  | succ k ih =>
      have hiter : iteration s .eof = .again s := by
        rw [iteration, noLine, if_pos h, displayPrompt_of_eintr h]
      rw [exitsWithin, hiter]
      exact ih h

theorem displayPrompt_ctrl_d_count (s : State) :
    (displayPrompt s).ctrl_d_count = s.ctrl_d_count := by
  rw [displayPrompt]
  cases promptError s with
  | some e => rfl
  | none => rfl

theorem iteration_eof_of_count {s : State} (h : (displayPrompt s).errno ≠ eintr)
    (hcount : s.ctrl_d_count ≠ 0) : iteration s .eof = .exit (hangUp (displayPrompt s).jobs) := by
  have hnot : ¬(hasStopped (displayPrompt s).jobs = true ∧ (displayPrompt s).ctrl_d_count = 0) := by
    rw [displayPrompt_ctrl_d_count]
    exact fun hwarn => hcount hwarn.2
  rw [iteration, noLine, if_neg h, if_neg hnot]

theorem exitsWithin_two_of_ne {s : State} (h : (displayPrompt s).errno ≠ eintr) :
    exitsWithin 2 s = true := by
  by_cases hwarn : hasStopped (displayPrompt s).jobs = true ∧ (displayPrompt s).ctrl_d_count = 0
  · have hfirst : iteration s .eof = .warned
        { displayPrompt s with ctrl_d_count := (displayPrompt s).ctrl_d_count + 1 } := by
      rw [iteration, noLine, if_neg h, if_pos hwarn]
    rw [exitsWithin, hfirst]
    generalize ht : { displayPrompt s with ctrl_d_count := (displayPrompt s).ctrl_d_count + 1 } = t
    have hsecond := iteration_eof_of_count (s := t)
      ((displayPrompt_errno_ne_iff t).mpr (Or.inl (by rw [← ht]; exact h)))
      (by rw [← ht]; exact Nat.succ_ne_zero _)
    simp only [exitsWithin, hsecond]
  · have hexit : iteration s .eof = .exit (hangUp (displayPrompt s).jobs) := by
      rw [iteration, noLine, if_neg h, if_neg hwarn]
    rw [exitsWithin, hexit]

/-- At the end of the input the loop is left within two iterations or never. -/
theorem exits_at_eof_iff (s : State) :
    (exitsWithin 2 s = true ↔
        s.errno ≠ eintr ∨ s.getcwd.isSome = true ∨ s.stdout.isSome = true) ∧
      ((∃ k, exitsWithin k s = true) ↔
        s.errno ≠ eintr ∨ s.getcwd.isSome = true ∨ s.stdout.isSome = true) := by
  rw [← promptError_isSome_iff, ← displayPrompt_errno_ne_iff]
  have hnever : ∀ k, exitsWithin k s = true → (displayPrompt s).errno ≠ eintr := by
    intro k hk herrno
    rw [exitsWithin_of_eintr k herrno] at hk
    cases hk
  refine ⟨⟨hnever 2, exitsWithin_two_of_ne⟩, ?_, fun h => ⟨2, exitsWithin_two_of_ne h⟩⟩
  rintro ⟨k, hk⟩
  exact hnever k hk

/-- A signal interrupts the first read and the input ends. -/
theorem not_exits_after_interrupted_read :
    ∃ s, Run.Reach init step Run.Any s ∧ ∀ k, exitsWithin k s = false := by
  have hstart : Run.Reach init step Run.Any ⟨0, 0, [], none, none⟩ := .start ⟨rfl, rfl⟩
  exact ⟨⟨eintr, 0, [], none, none⟩,
    hstart.exec [.iterate (.failed eintr) ⟨0, [], none, none⟩] rfl,
    fun k => exitsWithin_of_eintr k rfl⟩

end ShellXv6.Shell.ReadLoop
