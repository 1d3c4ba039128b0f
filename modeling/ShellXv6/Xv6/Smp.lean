import ShellXv6.Lib.Run
import ShellXv6.Xv6.Mlfq

/-!
# The multiprocessor kernel of the MLFQ build

Any number of CPUs interleave at every `acquire` and `release` of a process
lock and at every critical section of `mlfq_lock`; `mlfq_lock` itself is taken
and released within one step.  The loops over the process table contribute one
critical section per slot, and a CPU may enter such a section at any point at
which the kernel can: its running process makes a system call or is
interrupted, or the scheduler takes an interrupt at the head of its loop.
`clockintr` keeps its exact order: `update_time` over the table, `wakeup(&ticks)`
over the table, and on every 48th tick the 64 resets of `boost_priority` and
its rebuild.
-/

namespace ShellXv6.Xv6.Smp

/-- The critical sections of one process lock. -/
inductive Section
  /-- `allocproc` called by `userinit` or by `kfork`, just after `acquire`. -/
  | userinit
  | allocproc
  /-- `kfork` with the new slot still locked by `allocproc`. -/
  | kfork
  /-- The second section of `kfork`, which makes the child runnable. -/
  | kforkWake
  | yield
  | yieldScan
  | yieldDecide (preempt : Bool)
  | sleep (chan : ℕ)
  | kexit (status : ℤ)
  | wakeup (chan : ℕ)
  | kkill (pid : ℤ)
  | setkilled
  | killed
  | kwait
  | updateTime
  | boost
  /-- The scheduler with the process it took from level `i`. -/
  | schedule (i : Level)
  deriving DecidableEq

/-- Kernel code that holds no process lock. -/
inductive Cont
  /-- `main` before it calls `scheduler`. -/
  | boot
  /-- Code of the current process `c->proc`. -/
  | thread
  /-- The head of the scheduler loop, where interrupts are on. -/
  | window
  /-- The scheduler is about to call `dequeue(i)`. -/
  | scan (i : ℕ)
  /-- `update_time` is about to acquire the lock of `proc[k]`.  `clockintr` is
  entered from `thread` or from `window`. -/
  | updateTime (k : ℕ) (fromThread : Bool)
  /-- `wakeup(&ticks)` is about to look at `proc[k]`. -/
  | wakeupTicks (k : ℕ) (fromThread : Bool)
  /-- `boost_priority` is about to acquire the lock of `proc[k]`. -/
  | boost (k : ℕ) (fromThread : Bool)
  deriving DecidableEq

/-- The control point of a CPU between two steps. -/
inductive Ctl
  | run (k : Cont)
  /-- The scheduler has dequeued `p` and has not locked it yet. -/
  | found (i : Level) (p : Slot)
  /-- Holds the lock of `p`, before the body of the section. -/
  | crit (p : Slot) (sec : Section) (k : Cont)
  /-- Has set `p->state = RUNNABLE` and is about to call `enqueue`. -/
  | enqueue (p : Slot) (k : Cont)
  /-- The same in `yield`, which calls `sched` afterwards. -/
  | enqueueYield (p : Slot)
  | release (p : Slot) (k : Cont)
  /-- `sched` has switched to the scheduler, which still holds the lock of `p`. -/
  | swtch (p : Slot)
  /-- The scheduler has switched to the thread of `p`, lock still held. -/
  | resume (p : Slot)
  deriving DecidableEq

structure Cpu where
  proc : Option Slot
  ctl : Ctl
  deriving DecidableEq

structure State (n : ℕ) where
  proc : Slot → Proc
  /-- The CPU that holds `p->lock`. -/
  lock : Slot → Option (Fin n)
  mlfq : Queues
  cpu : Fin n → Cpu
  /-- The child of a `kfork` between its two sections, and whether its parent
  pointer has been set. -/
  forking : Slot → Option (Slot × Bool)
  ticks : ℕ
  nextpid : ℤ
  initproc : Option Slot
  started : Bool
  panicked : Option Panic

/-- The state in which `main` starts on every CPU, after `procinit`. -/
def State.boot (n : ℕ) : State n where
  proc := fun _ => Proc.zero
  lock := fun _ => none
  mlfq := Queues.empty
  cpu := fun _ => ⟨none, .run .boot⟩
  forking := fun _ => none
  ticks := 0
  nextpid := 1
  initproc := none
  started := false
  panicked := none

/-- What a CPU does next, where the code or its environment has a choice. -/
inductive Choice
  /-- The only next step of the control point. -/
  | go
  /-- An allocation or a copy to user memory fails. -/
  | fail
  | allocproc (p : Slot)
  | kforkParent
  | kforkWake
  | yield
  | sleep (chan : ℕ)
  | kexit (status : ℤ)
  | wakeup (p : Slot) (chan : ℕ)
  | kkill (p : Slot) (pid : ℤ)
  | setkilled
  | killed
  | kwait (p : Slot)
  | tick
  deriving DecidableEq

structure Action (n : ℕ) where
  cpu : Fin n
  choice : Choice
  deriving DecidableEq

variable {n : ℕ}

namespace State

def setCpu (s : State n) (c : Fin n) (x : Cpu) : State n :=
  { s with cpu := Function.update s.cpu c x }

def setCtl (s : State n) (c : Fin n) (ctl : Ctl) : State n :=
  s.setCpu c { s.cpu c with ctl := ctl }

def setProc (s : State n) (p : Slot) (x : Proc) : State n :=
  { s with proc := Function.update s.proc p x }

def setLock (s : State n) (p : Slot) (h : Option (Fin n)) : State n :=
  { s with lock := Function.update s.lock p h }

def setForking (s : State n) (p : Slot) (f : Option (Slot × Bool)) : State n :=
  { s with forking := Function.update s.forking p f }

/-- `reparent(me)`: `wait_lock` is held from here to the end of `kexit`. -/
def reparent (s : State n) (me : Slot) : State n :=
  { s with
    proc := fun p =>
      if (s.proc p).parent = some me then (s.proc p).setParent s.initproc else s.proc p }

/-- `acquire(&p->lock)` succeeds once the lock is free. -/
def acquire (s : State n) (c : Fin n) (p : Slot) (sec : Section) (k : Cont) : Option (State n) :=
  if s.lock p = none then some ((s.setLock p (some c)).setCtl c (.crit p sec k)) else none

/-- Write the locked slot and go on at `ctl`. -/
def body (s : State n) (c : Fin n) (p : Slot) (x : Proc) (ctl : Ctl) : State n :=
  (s.setProc p x).setCtl c ctl

end State

/-- The channel `&ticks`, on which `sys_pause` sleeps. -/
def ticksChan : ℕ := 1

/-- Where `clockintr` returns to. -/
def back (fromThread : Bool) : Cont := if fromThread then .thread else .window

/-- The steps of kernel code that holds no process lock. -/
def runStep (s : State n) (c : Fin n) : Cont → Choice → Option (State n)
  | .boot, .allocproc p =>
      if c.val = 0 ∧ s.initproc = none then s.acquire c p .userinit .boot else none
  | .boot, .go =>
      if c.val = 0 then
        if s.initproc = none then none
        else some ({ s with started := true }.setCtl c (.run .window))
      else if s.started then some (s.setCtl c (.run .window)) else none
  | .thread, ch =>
      match (s.cpu c).proc, ch with
      | none, _ => none
      | some me, .allocproc p =>
          if s.forking me = none then s.acquire c p .allocproc .thread else none
      | some me, .kforkParent =>
          match s.forking me with
          | some (np, false) =>
              some ((s.setProc np ((s.proc np).setParent (some me))).setForking me
                (some (np, true)))
          | _ => none
      | some me, .kforkWake =>
          match s.forking me with
          | some (np, true) => (s.setForking me none).acquire c np .kforkWake .thread
          | _ => none
      | some me, .yield => s.acquire c me .yield .thread
      | some me, .sleep chan =>
          if s.forking me = none then s.acquire c me (.sleep chan) .thread else none
      | some me, .kexit status =>
          if s.forking me = none ∧ s.initproc ≠ some me then
            (s.reparent me).acquire c me (.kexit status) .thread
          else none
      | some me, .wakeup p chan =>
          if p = me then none else s.acquire c p (.wakeup chan) .thread
      | some me, .kkill p pid =>
          if s.forking me = none then s.acquire c p (.kkill pid) .thread else none
      | some me, .setkilled => s.acquire c me .setkilled .thread
      | some me, .killed => s.acquire c me .killed .thread
      | some me, .kwait p =>
          if s.forking me = none ∧ (s.proc p).parent = some me then
            s.acquire c p .kwait .thread
          else none
      | some _, .tick =>
          if c.val = 0 then
            some ({ s with ticks := (s.ticks + 1) % 2 ^ 32 }.setCtl c (.run (.updateTime 0 true)))
          else none
      | some _, _ => none
  | .window, .wakeup p chan => s.acquire c p (.wakeup chan) .window
  | .window, .tick =>
      if c.val = 0 then
        some ({ s with ticks := (s.ticks + 1) % 2 ^ 32 }.setCtl c (.run (.updateTime 0 false)))
      else none
  | .window, .go => some (s.setCtl c (.run (.scan 0)))
  | .scan i, .go =>
      if h : i < 4 then
        match s.mlfq.dequeue ⟨i, h⟩ with
        | (none, m) => some ({ s with mlfq := m }.setCtl c (.run (.scan (i + 1))))
        | (some p, m) => some ({ s with mlfq := m }.setCtl c (.found ⟨i, h⟩ p))
      else some (s.setCtl c (.run .window))
  | .updateTime k ft, .go =>
      if h : k < NPROC then s.acquire c ⟨k, h⟩ .updateTime (.updateTime (k + 1) ft)
      else some (s.setCtl c (.run (.wakeupTicks 0 ft)))
  | .wakeupTicks k ft, .go =>
      if h : k < NPROC then
        if (s.cpu c).proc = some ⟨k, h⟩ then some (s.setCtl c (.run (.wakeupTicks (k + 1) ft)))
        else s.acquire c ⟨k, h⟩ (.wakeup ticksChan) (.wakeupTicks (k + 1) ft)
      else if s.ticks % 48 = 0 then some (s.setCtl c (.run (.boost 0 ft)))
      else some (s.setCtl c (.run (back ft)))
  | .boost k ft, .go =>
      if h : k < NPROC then s.acquire c ⟨k, h⟩ .boost (.boost (k + 1) ft)
      else
        match s.mlfq.rebuild with
        | .ok m => some ({ s with mlfq := m }.setCtl c (.run (back ft)))
        | .error e => some { s with panicked := some e }
  | _, _ => none

/-- The body of a critical section on `p`, up to `enqueue`, `sched` or `release`. -/
def critStep (s : State n) (c : Fin n) (p : Slot) (k : Cont) : Section → Choice → Option (State n)
  | .userinit, .go =>
      if (s.proc p).state = .UNUSED then
        let x := ((s.proc p).allocproc s.ticks s.nextpid).setContext .forkret
        some ({ s with nextpid := s.nextpid + 1, initproc := some p }.body c p x.makeRunnable
          (.enqueue p k))
      else some (s.setCtl c (.release p k))
  | .userinit, .fail =>
      if (s.proc p).state = .UNUSED then some { s with panicked := some .kerneltrap } else none
  | .allocproc, .go =>
      if (s.proc p).state = .UNUSED then
        let x := ((s.proc p).allocproc s.ticks s.nextpid).setContext .forkret
        some ({ s with nextpid := s.nextpid + 1 }.body c p x (.crit p .kfork k))
      else some (s.setCtl c (.release p k))
  | .allocproc, .fail =>
      if (s.proc p).state = .UNUSED then
        let x := (s.proc p).allocproc s.ticks s.nextpid
        some ({ s with nextpid := s.nextpid + 1 }.body c p x.freeproc (.release p k))
      else none
  | .kfork, .go =>
      match (s.cpu c).proc with
      | some me => some ((s.setForking me (some (p, false))).setCtl c (.release p k))
      | none => none
  | .kfork, .fail => some (s.body c p (s.proc p).freeproc (.release p k))
  | .kforkWake, .go => some (s.body c p (s.proc p).makeRunnable (.enqueue p k))
  | .yield, .go => some (s.body c p (s.proc p).yieldTick (.crit p .yieldScan k))
  | .yieldScan, .go =>
      some (s.setCtl c (.crit p (.yieldDecide (s.mlfq.preempt (s.proc p).queue)) k))
  | .yieldDecide preempt, .go =>
      if (s.proc p).givesUp preempt then
        some (s.body c p (s.proc p).demote.makeRunnable (.enqueueYield p))
      else some (s.setCtl c (.release p k))
  | .sleep chan, .go => some (s.body c p ((s.proc p).sleep chan) (.swtch p))
  | .kexit status, .go => some (s.body c p ((s.proc p).kexit s.ticks status) (.swtch p))
  | .wakeup chan, .go =>
      if (s.proc p).sleepsOn chan then
        some (s.body c p (s.proc p).makeRunnable (.enqueue p k))
      else some (s.setCtl c (.release p k))
  | .kkill pid, .go =>
      if (s.proc p).pid = pid then
        if (s.proc p).state = .SLEEPING then
          some (s.body c p (s.proc p).setkilled.makeRunnable (.enqueue p k))
        else some (s.body c p (s.proc p).setkilled (.release p k))
      else some (s.setCtl c (.release p k))
  | .setkilled, .go => some (s.body c p (s.proc p).setkilled (.release p k))
  | .killed, .go => some (s.setCtl c (.release p k))
  | .kwait, .go =>
      if (s.proc p).state = .ZOMBIE then
        some (s.body c p ((s.proc p).freeproc.setParent none) (.release p k))
      else some (s.setCtl c (.release p k))
  | .kwait, .fail => some (s.setCtl c (.release p k))
  | .updateTime, .go => some (s.body c p (s.proc p).updateTime (.release p k))
  | .boost, .go => some (s.body c p (s.proc p).boost (.release p k))
  | .schedule _, .go =>
      if (s.proc p).state = .RUNNABLE then
        some ((s.setProc p ((s.proc p).dispatch s.ticks)).setCpu c ⟨some p, .resume p⟩)
      -- not runnable: dropped from the queue
      else some (s.setCtl c (.release p k))
  | _, _ => none

/-- One step of one CPU. -/
def step (s : State n) (a : Action n) : Option (State n) :=
  let c := a.cpu
  if s.panicked ≠ none then none
  else
    match (s.cpu c).ctl, a.choice with
    | .run k, ch => runStep s c k ch
    | .crit p sec k, ch => critStep s c p k sec ch
    | .found i p, .go => s.acquire c p (.schedule i) (.scan i)
    | .enqueue p k, .go =>
        match s.mlfq.enqueue (s.proc p).queue p with
        | .ok m => some ({ s with mlfq := m }.setCtl c (.release p k))
        | .error e => some { s with panicked := some e }
    | .enqueueYield p, .go =>
        match s.mlfq.enqueue (s.proc p).queue p with
        | .ok m => some ({ s with mlfq := m }.body c p ((s.proc p).setContext .yield) (.swtch p))
        | .error e => some { s with panicked := some e }
    | .release p k, .go => some ((s.setLock p none).setCtl c (.run k))
    | .swtch p, .go => some ((s.setLock p none).setCpu c ⟨none, .run .window⟩)
    | .resume p, .go =>
        some (((s.setProc p (s.proc p).resume).setLock p none).setCtl c (.run .thread))
    | _, _ => none

/-- What a step of CPU `c` needs and what it makes of the state. -/
inductive Steps (s : State n) (c : Fin n) (ch : Choice) : State n → Prop
  | run {t : State n} {k : Cont} (hctl : (s.cpu c).ctl = .run k)
      (ht : runStep s c k ch = some t) : Steps s c ch t
  | crit {t : State n} {p : Slot} {sec : Section} {k : Cont} (hctl : (s.cpu c).ctl = .crit p sec k)
      (ht : critStep s c p k sec ch = some t) : Steps s c ch t
  | found {i : Level} {p : Slot} (hctl : (s.cpu c).ctl = .found i p) (hlock : s.lock p = none) :
      Steps s c ch ((s.setLock p (some c)).setCtl c (.crit p (.schedule i) (.scan i)))
  | enqueue {p : Slot} {k : Cont} {m : Queues} (hctl : (s.cpu c).ctl = .enqueue p k)
      (hm : s.mlfq.enqueue (s.proc p).queue p = .ok m) :
      Steps s c ch ({ s with mlfq := m }.setCtl c (.release p k))
  | enqueueYield {p : Slot} {m : Queues} (hctl : (s.cpu c).ctl = .enqueueYield p)
      (hm : s.mlfq.enqueue (s.proc p).queue p = .ok m) :
      Steps s c ch ({ s with mlfq := m }.body c p ((s.proc p).setContext .yield) (.swtch p))
  | enqueueFails {p : Slot} {e : Panic}
      (hctl : (∃ k, (s.cpu c).ctl = .enqueue p k) ∨ (s.cpu c).ctl = .enqueueYield p)
      (hm : s.mlfq.enqueue (s.proc p).queue p = .error e) :
      Steps s c ch { s with panicked := some e }
  | release {p : Slot} {k : Cont} (hctl : (s.cpu c).ctl = .release p k) :
      Steps s c ch ((s.setLock p none).setCtl c (.run k))
  | swtch {p : Slot} (hctl : (s.cpu c).ctl = .swtch p) :
      Steps s c ch ((s.setLock p none).setCpu c ⟨none, .run .window⟩)
  | resume {p : Slot} (hctl : (s.cpu c).ctl = .resume p) :
      Steps s c ch (((s.setProc p (s.proc p).resume).setLock p none).setCtl c (.run .thread))

theorem acquire_eq_some_iff {s t : State n} {c : Fin n} {p : Slot} {sec : Section} {k : Cont} :
    s.acquire c p sec k = some t ↔
      s.lock p = none ∧ t = (s.setLock p (some c)).setCtl c (.crit p sec k) := by
  by_cases h : s.lock p = none <;> simp [State.acquire, h, eq_comm]

theorem steps_of_step {s t : State n} {a : Action n} (ht : step s a = some t) :
    s.panicked = none ∧ Steps s a.cpu a.choice t := by
  obtain ⟨c, ch⟩ := a
  by_cases hpanic : s.panicked = none
  · refine ⟨hpanic, ?_⟩
    simp only [step, if_neg (not_not_intro hpanic)] at ht
    cases hctl : (s.cpu c).ctl with
    | run k =>
        simp only [hctl] at ht
        exact .run hctl ht
    | crit p sec k =>
        simp only [hctl] at ht
        exact .crit hctl ht
    | found i p =>
        cases ch <;> simp only [hctl, reduceCtorEq] at ht
        obtain ⟨hlock, rfl⟩ := acquire_eq_some_iff.mp ht
        exact .found hctl hlock
    | enqueue p k =>
        cases hm : s.mlfq.enqueue (s.proc p).queue p <;> cases ch <;>
          simp only [hctl, hm, reduceCtorEq, Option.some.injEq] at ht
        · subst ht
          exact .enqueueFails (.inl ⟨k, hctl⟩) hm
        · subst ht
          exact .enqueue hctl hm
    | enqueueYield p =>
        cases hm : s.mlfq.enqueue (s.proc p).queue p <;> cases ch <;>
          simp only [hctl, hm, reduceCtorEq, Option.some.injEq] at ht
        · subst ht
          exact .enqueueFails (.inr hctl) hm
        · subst ht
          exact .enqueueYield hctl hm
    | release p k =>
        cases ch <;> simp only [hctl, reduceCtorEq, Option.some.injEq] at ht
        subst ht
        exact .release hctl
    | swtch p =>
        cases ch <;> simp only [hctl, reduceCtorEq, Option.some.injEq] at ht
        subst ht
        exact .swtch hctl
    | resume p =>
        cases ch <;> simp only [hctl, reduceCtorEq, Option.some.injEq] at ht
        subst ht
        exact .resume hctl
  · simp [step, hpanic] at ht

theorem runStep_of_step {s t : State n} {c : Fin n} {ch : Choice} {k : Cont}
    (hctl : (s.cpu c).ctl = .run k) (ht : step s ⟨c, ch⟩ = some t) :
    runStep s c k ch = some t := by
  rw [step, if_neg (not_not_intro (steps_of_step ht).1)] at ht
  simpa only [hctl] using ht

theorem critStep_of_step {s t : State n} {c : Fin n} {ch : Choice} {p : Slot} {sec : Section}
    {k : Cont} (hctl : (s.cpu c).ctl = .crit p sec k) (ht : step s ⟨c, ch⟩ = some t) :
    critStep s c p k sec ch = some t := by
  rw [step, if_neg (not_not_intro (steps_of_step ht).1)] at ht
  simpa only [hctl] using ht

/-- The runs of the kernel from power-on. -/
def Reachable (s : State n) : Prop := Run.Reach (· = State.boot n) step Run.Any s

/-! ## Actions of one CPU -/

def goes (c : Fin n) (k : ℕ) : List (Action n) := List.replicate k ⟨c, .go⟩

/-- `userinit` in slot `p` and its first dispatch. -/
def firstDispatch (c : Fin n) (p : Slot) : List (Action n) := ⟨c, .allocproc p⟩ :: goes c 9

/-- The current process forks into slot `p`. -/
def forks (c : Fin n) (p : Slot) : List (Action n) :=
  ⟨c, .allocproc p⟩ :: goes c 3 ++ [⟨c, .kforkParent⟩, ⟨c, .kforkWake⟩] ++ goes c 3

end ShellXv6.Xv6.Smp
