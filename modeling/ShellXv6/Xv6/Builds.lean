import ShellXv6.Xv6.Smp

/-!
# The three builds of the kernel

`SCHEDULER` selects the scheduler at compile time.  The FIFO and round-robin
builds differ from the MLFQ build in the loop of `scheduler`, which scans the
process table instead of the four queues, and at the `#ifdef MLFQ` lines: they
never call `enqueue` or `boost_priority`, and `yield` only makes the process
runnable.  The fields `queue` and `ticks` of a process, the four queues and
`mlfq_lock` do not exist there, and nothing below reads them in these builds.
-/

namespace ShellXv6.Xv6.Kernel

open Smp (Choice Action Ctl Cont)

variable {n : ℕ}

inductive Build
  | MLFQ
  | FIFO
  | RR
  deriving DecidableEq

/-- The position of a scheduler in its loop over `proc[NPROC]`. -/
inductive Scan
  /-- About to acquire the lock of `proc[k]`; the lock of `min_p` is held. -/
  | next (k : ℕ) (min_p : Option Slot)
  /-- Holds the lock of `p` as well. -/
  | look (p : Slot) (min_p : Option Slot)
  deriving DecidableEq

/-- A CPU with a `scan` is in the loop of its scheduler; `core` then shows it at
the loop head, or in an interrupt that the loop has taken. -/
structure State (n : ℕ) where
  core : Smp.State n
  scan : Fin n → Option Scan

def State.boot (n : ℕ) : State n := ⟨Smp.State.boot n, fun _ => none⟩

/-- The steps outside the scheduler loop. -/
def coreStep (b : Build) (s : Smp.State n) (c : Fin n) (ch : Choice) : Option (Smp.State n) :=
  if b = .MLFQ then Smp.step s ⟨c, ch⟩
  else if s.panicked ≠ none then none
  else
    match (s.cpu c).ctl, ch with
    | .run (.wakeupTicks k ft), .go =>
        if k < NPROC then Smp.step s ⟨c, .go⟩ else some (s.setCtl c (.run (Smp.back ft)))
    -- the timer interrupt of the FIFO build does not yield
    | .run .thread, .yield => if b = .FIFO then none else Smp.step s ⟨c, .yield⟩
    | .crit p .yield _, .go =>
        some (s.body c p ((s.proc p).makeRunnable.setContext .yield) (.swtch p))
    | .enqueue p k, .go => some (s.setCtl c (.release p k))
    | _, _ => Smp.step s ⟨c, ch⟩

namespace State

def setScan (s : State n) (c : Fin n) (x : Option Scan) : State n :=
  { s with scan := Function.update s.scan c x }

/-- The scheduler has the lock of `p` and switches to it. -/
def dispatch (s : State n) (c : Fin n) (p : Slot) : State n :=
  { s with
    core := (s.core.setProc p ((s.core.proc p).dispatch s.core.ticks)).setCpu c
      ⟨some p, .resume p⟩ }.setScan c none

end State

/-- `acquire(&p->lock)` of the scan, or its end: the FIFO build dispatches the
process it has found, and with none the scheduler waits for an interrupt. -/
def scanNext (s : State n) (c : Fin n) (k : ℕ) (min_p : Option Slot) : Option (State n) :=
  if h : k < NPROC then
    if s.core.lock ⟨k, h⟩ = none then
      some ({ s with core := s.core.setLock ⟨k, h⟩ (some c) }.setScan c
        (some (.look ⟨k, h⟩ min_p)))
    else none
  else
    match min_p with
    | some p => some (s.dispatch c p)
    | none => some (s.setScan c none)

/-- `!min_p || p->creation_time < min_p->creation_time`. -/
def earlier (proc : Slot → Proc) (p : Slot) : Option Slot → Bool
  | none => true
  | some q => decide ((proc p).creation_time < (proc q).creation_time)

/-- `if (min_p) release(&min_p->lock)`. -/
def releaseMin (s : Smp.State n) : Option Slot → Smp.State n
  | none => s
  | some q => s.setLock q none

/-- The body of the loop with the lock of `p` held. -/
def scanLook (b : Build) (s : State n) (c : Fin n) (p : Slot) (min_p : Option Slot) : State n :=
  if b = .FIFO then
    if (s.core.proc p).state = .RUNNABLE ∧ earlier s.core.proc p min_p then
      { s with core := releaseMin s.core min_p }.setScan c (some (.next (p.val + 1) (some p)))
    else { s with core := s.core.setLock p none }.setScan c (some (.next (p.val + 1) min_p))
  else if (s.core.proc p).state = .RUNNABLE then s.dispatch c p
  else { s with core := s.core.setLock p none }.setScan c (some (.next (p.val + 1) none))

def restStep (b : Build) (s : State n) (c : Fin n) (ch : Choice) : Option (State n) :=
  (coreStep b s.core c ch).map fun t => { s with core := t }

/-- The steps of a CPU that is not in the loop of its scheduler: the loop head
enters it, and the round-robin loop goes on behind the process that has come
back from `swtch`. -/
def outerStep (b : Build) (s : State n) (c : Fin n) (ch : Choice) : Option (State n) :=
  match (s.core.cpu c).ctl, ch with
  | .run .window, .go => some (s.setScan c (some (.next 0 none)))
  | .swtch p, .go =>
      if b = .RR then
        (restStep b s c .go).map fun t => t.setScan c (some (.next (p.val + 1) none))
      else restStep b s c .go
  | _, _ => restStep b s c ch

/-- One step of one CPU.  The FIFO build scans with interrupts off.  In the
round-robin loop they are on again once a process has slept or exited, so the
loop may be interrupted wherever it holds no lock. -/
def step (b : Build) (s : State n) (a : Action n) : Option (State n) :=
  if b = .MLFQ then restStep b s a.cpu a.choice
  else if s.core.panicked ≠ none then none
  else
    match s.scan a.cpu with
    | none => outerStep b s a.cpu a.choice
    | some (.look p min_p) =>
        if a.choice = .go then some (scanLook b s a.cpu p min_p) else none
    | some (.next k min_p) =>
        if (s.core.cpu a.cpu).ctl = .run .window then
          if a.choice = .go then scanNext s a.cpu k min_p
          else if b = .RR then restStep b s a.cpu a.choice
          else none
        else restStep b s a.cpu a.choice

/-- The runs of a build from power-on. -/
def Reachable (b : Build) (s : State n) : Prop :=
  Run.Reach (· = State.boot n) (step b) Run.Any s

end ShellXv6.Xv6.Kernel
