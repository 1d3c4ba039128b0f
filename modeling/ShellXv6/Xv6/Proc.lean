import Mathlib.Data.Fintype.Basic
import Mathlib.Data.Int.Order.Basic

/-!
# The process table

`struct proc` as far as the scheduler, the clock and process creation and exit
use it, and what each kernel function does to one entry between `acquire` and
`release` of its lock.  Memory, files, names and saved user registers are left
out; `context` only remembers where the suspended kernel thread goes on.
-/

namespace ShellXv6.Xv6

/-- `NPROC` of `param.h`. -/
abbrev NPROC : ℕ := 64

/-- A pointer into `proc[NPROC]`. -/
abbrev Slot := Fin NPROC

inductive ProcState
  | UNUSED
  | USED
  | SLEEPING
  | RUNNABLE
  | RUNNING
  | ZOMBIE
  deriving DecidableEq

/-- Where `swtch` resumes a kernel thread: in `forkret`, or after the `sched()`
of `yield` or of `sleep`. -/
inductive Context
  | forkret
  | yield
  | sleep
  deriving DecidableEq

structure Proc where
  state : ProcState
  chan : ℕ
  killed : Bool
  xstate : ℤ
  pid : ℤ
  creation_time : ℕ
  rtime : ℕ
  etime : ℕ
  iotime : ℕ
  first_run_time : ℕ
  parent : Option Slot
  context : Context
  queue : ℤ
  ticks : ℤ
  deriving DecidableEq

namespace Proc

/-- A slot of the zero-initialised table after `procinit`. -/
def zero : Proc where
  state := .UNUSED
  chan := 0
  killed := false
  xstate := 0
  pid := 0
  creation_time := 0
  rtime := 0
  etime := 0
  iotime := 0
  first_run_time := 0
  parent := none
  context := .forkret
  queue := 0
  ticks := 0

/-- `allocproc` after `found:`, up to the allocations that can fail. -/
def allocproc (now : ℕ) (pid : ℤ) (p : Proc) : Proc :=
  { p with
    pid := pid
    state := .USED
    creation_time := now
    rtime := 0
    etime := 0
    iotime := 0
    first_run_time := 0
    queue := 0
    ticks := 0 }

/-- `freeproc`; `parent`, `queue`, `ticks` and the times keep their values. -/
def freeproc (p : Proc) : Proc :=
  { p with pid := 0, chan := 0, killed := false, xstate := 0, state := .UNUSED }

def setParent (parent : Option Slot) (p : Proc) : Proc := { p with parent := parent }

def makeRunnable (p : Proc) : Proc := { p with state := .RUNNABLE }

/-- The time slice of a level, as `yield` computes it. -/
def slice (queue : ℤ) : ℤ :=
  if queue = 1 then 4 else if queue = 2 then 8 else if queue = 3 then 16 else 1

/-- `p->ticks++` at the start of `yield`. -/
def yieldTick (p : Proc) : Proc := { p with ticks := p.ticks + 1 }

/-- `yield` gives up the CPU when the slice is used up or a higher level waits. -/
def givesUp (preempt : Bool) (p : Proc) : Bool :=
  decide (slice p.queue ≤ p.ticks) || preempt

/-- The demotion of `yield`: only an expired slice moves the process down. -/
def demote (p : Proc) : Proc :=
  if slice p.queue ≤ p.ticks then
    { p with queue := if p.queue < 3 then p.queue + 1 else p.queue, ticks := 0 }
  else p

def sleep (chan : ℕ) (p : Proc) : Proc :=
  { p with chan := chan, state := .SLEEPING, ticks := 0, context := .sleep }

/-- The test of `wakeup`. -/
def sleepsOn (chan : ℕ) (p : Proc) : Bool :=
  decide (p.state = .SLEEPING) && decide (p.chan = chan)

def setContext (context : Context) (p : Proc) : Proc := { p with context := context }

def setkilled (p : Proc) : Proc := { p with killed := true }

def kexit (now : ℕ) (status : ℤ) (p : Proc) : Proc :=
  { p with xstate := status, state := .ZOMBIE, etime := now }

/-- One entry of the reset loop of `boost_priority`. -/
def boost (p : Proc) : Proc := { p with queue := 0, ticks := 0 }

/-- One entry of the loop of `update_time`. -/
def updateTime (p : Proc) : Proc :=
  if p.state = .RUNNING then { p with rtime := p.rtime + 1 }
  else if p.state = .SLEEPING then { p with iotime := p.iotime + 1 }
  else p

theorem updateTime_state (p : Proc) : p.updateTime.state = p.state := by
  unfold updateTime
  split_ifs <;> rfl

theorem updateTime_queue (p : Proc) : p.updateTime.queue = p.queue := by
  unfold updateTime
  split_ifs <;> rfl

theorem updateTime_ticks (p : Proc) : p.updateTime.ticks = p.ticks := by
  unfold updateTime
  split_ifs <;> rfl

/-- The dispatch of `scheduler`, up to `swtch`. -/
def dispatch (now : ℕ) (p : Proc) : Proc :=
  { p with
    state := .RUNNING
    first_run_time := if p.first_run_time = 0 then now else p.first_run_time }

/-- What the resumed thread does before it releases its lock: `sleep` clears
its channel, `yield` and `forkret` change nothing. -/
def resume (p : Proc) : Proc :=
  if p.context = .sleep then { p with chan := 0 } else p

theorem resume_state (p : Proc) : p.resume.state = p.state := by
  unfold resume
  split_ifs <;> rfl

theorem resume_queue (p : Proc) : p.resume.queue = p.queue := by
  unfold resume
  split_ifs <;> rfl

theorem resume_ticks (p : Proc) : p.resume.ticks = p.ticks := by
  unfold resume
  split_ifs <;> rfl

end Proc

end ShellXv6.Xv6
