import ShellXv6.Lib.RunningBest
import ShellXv6.Xv6.Builds
import Mathlib.Order.OrderDual

/-!
# The locks of the FIFO scan

The scan acquires the lock of every process in turn and keeps the lock of the best
candidate so far when it goes on.  The locks are those of `spinlock.c`: each one held
counts in `noff` of the CPU, and interrupts stay off until the last is released.
-/

namespace ShellXv6.Xv6.FifoLocks

open Kernel (earlier)

/-! ## Spinlocks -/

inductive LockPanic
  | acquire
  | release
  | popOff
  | popOffInterruptible
  deriving DecidableEq

structure Cpu where
  noff : ℕ
  intena : Bool
  /-- Interrupts are enabled. -/
  intr : Bool
  /-- The processes whose locks the CPU holds, in the order of their acquisition. -/
  held : List Slot
  deriving DecidableEq

def pushOff (c : Cpu) : Cpu :=
  { c with
    noff := c.noff + 1
    intena := if c.noff = 0 then c.intr else c.intena
    intr := false }

def popOff (c : Cpu) : Except LockPanic Cpu :=
  if c.intr then .error .popOffInterruptible
  else if c.noff < 1 then .error .popOff
  else .ok { c with noff := c.noff - 1, intr := decide (c.noff - 1 = 0) && c.intena }

/-- The lock is got in the end: its holders release it. -/
def acquire (c : Cpu) (p : Slot) : Except LockPanic Cpu :=
  if p ∈ c.held then .error .acquire
  else .ok { pushOff c with held := c.held ++ [p] }

def release (c : Cpu) (p : Slot) : Except LockPanic Cpu :=
  if p ∈ c.held then popOff { c with held := c.held.erase p } else .error .release

inductive LockOp
  | acquire (p : Slot)
  | release (p : Slot)
  deriving DecidableEq

def LockOp.exec (c : Cpu) : LockOp → Except LockPanic Cpu
  | .acquire p => FifoLocks.acquire c p
  | .release p => FifoLocks.release c p

def LockOp.acquired : LockOp → Option Slot
  | .acquire p => some p
  | .release _ => none

def execAll : List LockOp → Cpu → Except LockPanic Cpu
  | [], c => .ok c
  | op :: ops, c =>
      match op.exec c with
      | .error e => .error e
      | .ok c' => execAll ops c'

inductive SchedPanic
  | lock
  | locks
  | running
  | interruptible
  deriving DecidableEq

/-- The checks at the start of `sched` for the current process. -/
def schedCheck (c : Cpu) (p : Slot) (state : ProcState) : Option SchedPanic :=
  if p ∉ c.held then some .lock
  else if c.noff ≠ 1 then some .locks
  else if state = .RUNNING then some .running
  else if c.intr then some .interruptible
  else none

/-! ## The scan -/

/-- `if (min_p) release(&min_p->lock)` -/
def releaseMin : Option Slot → List LockOp
  | none => []
  | some q => [.release q]

/-- One iteration: what it does to the locks, and `min_p` after it. -/
def scanSlot (proc : Slot → Proc) (min_p : Option Slot) (p : Slot) :
    List LockOp × Option Slot :=
  if (proc p).state = .RUNNABLE ∧ earlier proc p min_p then
    (.acquire p :: releaseMin min_p, some p)
  else ([.acquire p, .release p], min_p)

def scan (proc : Slot → Proc) : List Slot → Option Slot → List LockOp × Option Slot
  | [], min_p => ([], min_p)
  | p :: ps, min_p =>
      ((scanSlot proc min_p p).1 ++ (scan proc ps (scanSlot proc min_p p).2).1,
        (scan proc ps (scanSlot proc min_p p).2).2)

/-- The loop over the process table. -/
def fifoScan (proc : Slot → Proc) : List LockOp × Option Slot :=
  scan proc (List.finRange NPROC) none

/-- The CPU behind `intr_off()` at the head of the scheduler. -/
def idle (intena : Bool) : Cpu := ⟨0, intena, false, []⟩

/-- With the lock of `p` held the kernel goes on as the iteration does. -/
theorem scanLook_eq {n : ℕ} (s : Kernel.State n) (c : Fin n) (p : Slot) (min_p : Option Slot) :
    (Kernel.scanLook .FIFO s c p min_p).scan c =
      some (.next (p.val + 1) (scanSlot s.core.proc min_p p).2) := by
  unfold Kernel.scanLook scanSlot
  rw [if_pos rfl]
  split_ifs <;> simp [Kernel.State.setScan]

/-! ## The process that is found -/

/-- A later creation is worse. -/
abbrev age (proc : Slot → Proc) (p : Slot) : ℕᵒᵈ := OrderDual.toDual (proc p).creation_time

/-- The runnable process that was created first; of several the one with the lowest slot. -/
def IsFirst (proc : Slot → Proc) (m : Slot) : Prop :=
  (proc m).state = .RUNNABLE ∧ ∀ q, (proc q).state = .RUNNABLE →
    (proc m).creation_time ≤ (proc q).creation_time ∧
      ((proc q).creation_time = (proc m).creation_time → m ≤ q)

theorem scanSlot_snd (proc : Slot → Proc) (min_p : Option Slot) (p : Slot) :
    (scanSlot proc min_p p).2 =
      if (proc p).state = .RUNNABLE then RunningBest.keep (age proc) min_p p else min_p := by
  unfold scanSlot
  by_cases hready : (proc p).state = .RUNNABLE
  · cases min_p with
    | none => simp [hready, earlier, RunningBest.keep]
    | some q =>
        by_cases hlt : (proc p).creation_time < (proc q).creation_time
        · simp [hready, earlier, RunningBest.keep, hlt]
        · simp [hready, earlier, RunningBest.keep, hlt]
  · simp [hready]

theorem scan_snd (proc : Slot → Proc) (ps : List Slot) (min_p : Option Slot) :
    (scan proc ps min_p).2 =
      (ps.filter fun p => (proc p).state = .RUNNABLE).foldl (RunningBest.keep (age proc))
        min_p := by
  induction ps generalizing min_p with
  | nil => rfl
  | cons p ps ih =>
      rw [scan, ih, scanSlot_snd, List.filter_cons]
      by_cases hready : (proc p).state = .RUNNABLE
      · simp [hready]
      · simp [hready]

theorem isFirst_of_firstMax {proc : Slot → Proc} {m : Slot}
    (h : RunningBest.FirstMax (age proc)
      ((List.finRange NPROC).filter fun p => (proc p).state = .RUNNABLE) m) :
    IsFirst proc m := by
  have hmem : ∀ {q}, (proc q).state = .RUNNABLE →
      q ∈ (List.finRange NPROC).filter fun p => (proc p).state = .RUNNABLE := by
    intro q hq
    exact List.mem_filter.mpr ⟨List.mem_finRange q, decide_eq_true hq⟩
  refine ⟨of_decide_eq_true (List.mem_filter.mp h.mem).2, ?_⟩
  intro q hq
  refine ⟨OrderDual.toDual_le_toDual.mp (h.le (hmem hq)), ?_⟩
  intro heq
  have hsorted := (List.pairwise_lt_finRange NPROC).filter fun p =>
    decide ((proc p).state = .RUNNABLE)
  rcases h.first hsorted (hmem hq) (congrArg OrderDual.toDual heq) with rfl | hlt
  · exact le_rfl
  · exact hlt.le

theorem fifoScan_snd (proc : Slot → Proc) :
    ((∀ p, (proc p).state ≠ .RUNNABLE) ∧ (fifoScan proc).2 = none) ∨
      ∃ m, (fifoScan proc).2 = some m ∧ IsFirst proc m := by
  rw [fifoScan, scan_snd]
  by_cases hnil : ((List.finRange NPROC).filter fun p => (proc p).state = .RUNNABLE) = []
  · left
    refine ⟨?_, by rw [hnil]; rfl⟩
    intro p hp
    have hnot := List.filter_eq_nil_iff.mp hnil p (List.mem_finRange p)
    exact hnot (decide_eq_true hp)
  · right
    obtain ⟨m, hm, hmax⟩ := RunningBest.foldl_keep (age proc) _ hnil
    exact ⟨m, hm, isFirst_of_firstMax hmax⟩

/-! ## The locks that are held -/

/-- Interrupts have been off since before the first lock was acquired. -/
structure Quiet (c : Cpu) : Prop where
  count : c.noff = c.held.length
  off : c.intr = false
  intena : 0 < c.noff → c.intena = false

theorem acquire_ok {c : Cpu} {p : Slot} (hc : Quiet c) (hp : p ∉ c.held) :
    ∃ c', (LockOp.acquire p).exec c = .ok c' ∧ Quiet c' ∧ c'.held = c.held ++ [p] := by
  refine ⟨{ pushOff c with held := c.held ++ [p] }, if_neg hp, ⟨?_, rfl, ?_⟩, rfl⟩
  · simp [pushOff, hc.count]
  · intro _
    change (if c.noff = 0 then c.intr else c.intena) = false
    split_ifs with hzero
    · exact hc.off
    · exact hc.intena (Nat.pos_of_ne_zero hzero)

theorem release_ok {c : Cpu} {p : Slot} (hc : Quiet c) (hp : p ∈ c.held) :
    ∃ c', (LockOp.release p).exec c = .ok c' ∧ Quiet c' ∧ c'.held = c.held.erase p := by
  have hpos : 0 < c.noff := by
    rw [hc.count]
    exact List.length_pos_of_mem hp
  refine ⟨⟨c.noff - 1, c.intena, false, c.held.erase p⟩, ?_, ⟨?_, rfl, ?_⟩, rfl⟩
  · have hnot : ¬c.noff < 1 := Nat.not_lt.mpr hpos
    simp [LockOp.exec, release, popOff, hp, hc.off, hnot, hc.intena hpos]
  · rw [hc.count, List.length_erase_of_mem hp]
  · intro _
    exact hc.intena hpos

theorem execAll_append {ops ops' : List LockOp} {c c' : Cpu} (h : execAll ops c = .ok c') :
    execAll (ops ++ ops') c = execAll ops' c' := by
  induction ops generalizing c with
  | nil =>
      cases h
      rfl
  | cons op ops ih =>
      rw [execAll] at h
      rw [List.cons_append, execAll]
      cases hop : op.exec c with
      | error e =>
          rw [hop] at h
          cases h
      | ok d =>
          rw [hop] at h
          exact ih h

/-- In every state on the way at most two locks are held, and no lock is acquired while
that of the same or of a later slot is held. -/
def Disciplined : List LockOp → Cpu → Prop
  | [], c => c.held.length ≤ 2
  | op :: ops, c =>
      c.held.length ≤ 2 ∧ (∀ p, op.acquired = some p → ∀ q ∈ c.held, q < p) ∧
        ∃ c', op.exec c = .ok c' ∧ Disciplined ops c'

theorem Disciplined.append {ops ops' : List LockOp} {c c' : Cpu} (h : Disciplined ops c)
    (hexec : execAll ops c = .ok c') (h' : Disciplined ops' c') : Disciplined (ops ++ ops') c := by
  induction ops generalizing c with
  | nil =>
      cases hexec
      exact h'
  | cons op ops ih =>
      obtain ⟨hlen, horder, d, hd, hrest⟩ := h
      rw [execAll, hd] at hexec
      exact ⟨hlen, horder, d, hd, ih hrest hexec⟩

/-- One iteration of the scan keeps the lock of `min_p` and no other. -/
theorem scanSlot_locks (proc : Slot → Proc) {min_p : Option Slot} {p : Slot} {c : Cpu}
    (hc : Quiet c) (hheld : c.held = min_p.toList) (hlt : ∀ q ∈ c.held, q < p) :
    ∃ c', execAll (scanSlot proc min_p p).1 c = .ok c' ∧ Quiet c' ∧
      c'.held = (scanSlot proc min_p p).2.toList ∧ Disciplined (scanSlot proc min_p p).1 c := by
  have hnot : p ∉ c.held := fun hp => (hlt p hp).false
  have hone : c.held.length ≤ 1 := by
    rw [hheld]
    cases min_p <;> simp
  obtain ⟨d, hd, hquiet, hdheld⟩ := acquire_ok hc hnot
  have horder : ∀ q, (LockOp.acquire p).acquired = some q → ∀ r ∈ c.held, r < q := by
    intro q hq
    obtain rfl := Option.some.inj hq
    exact hlt
  have htwo : d.held.length ≤ 2 := by
    rw [hdheld, List.length_append, List.length_singleton]
    omega
  -- both branches release one lock behind the acquisition, if there are two
  have hrelease : ∀ q ∈ d.held, ∃ c', execAll [.acquire p, .release q] c = .ok c' ∧ Quiet c' ∧
      c'.held = d.held.erase q ∧ Disciplined [.acquire p, .release q] c := by
    intro q hq
    obtain ⟨e, he, hequiet, heheld⟩ := release_ok hquiet hq
    refine ⟨e, by simp only [execAll, hd, he], hequiet, heheld, ?_⟩
    refine ⟨by omega, horder, d, hd, htwo, fun r hr => ?_, e, he, ?_⟩
    · cases hr
    · rw [Disciplined, heheld]
      exact (List.length_erase_le).trans htwo
  unfold scanSlot
  split_ifs with htake
  · cases min_p with
    | none =>
        refine ⟨d, by simp only [releaseMin, execAll, hd], hquiet, ?_, by omega, horder, d, hd,
          htwo⟩
        rw [hdheld, hheld]
        rfl
    | some q =>
        have hq : q ∈ d.held := by simp [hdheld, hheld]
        obtain ⟨e, he, hequiet, heheld, hdisc⟩ := hrelease q hq
        refine ⟨e, he, hequiet, ?_, hdisc⟩
        rw [heheld, hdheld, hheld]
        simp
  · obtain ⟨e, he, hequiet, heheld, hdisc⟩ := hrelease p (by simp [hdheld])
    refine ⟨e, he, hequiet, ?_, hdisc⟩
    rw [heheld, hdheld, List.erase_append_right _ hnot, hheld]
    simp

theorem mem_scanSlot_snd {proc : Slot → Proc} {min_p : Option Slot} {p q : Slot}
    (h : q ∈ (scanSlot proc min_p p).2) : q = p ∨ q ∈ min_p := by
  unfold scanSlot at h
  split_ifs at h
  · exact .inl (Option.some.inj h).symm
  · exact .inr h

theorem scan_locks (proc : Slot → Proc) {ps : List Slot} (hps : ps.Pairwise (· < ·))
    (min_p : Option Slot) {c : Cpu} (hc : Quiet c) (hheld : c.held = min_p.toList)
    (hlt : ∀ q ∈ c.held, ∀ p ∈ ps, q < p) :
    ∃ c', execAll (scan proc ps min_p).1 c = .ok c' ∧ Quiet c' ∧
      c'.held = (scan proc ps min_p).2.toList ∧ Disciplined (scan proc ps min_p).1 c := by
  induction ps generalizing min_p c with
  | nil =>
      refine ⟨c, rfl, hc, hheld, ?_⟩
      change c.held.length ≤ 2
      rw [hheld]
      cases min_p <;> simp
  | cons p ps ih =>
      obtain ⟨hp, hps⟩ := List.pairwise_cons.mp hps
      obtain ⟨d, hd, hquiet, hdheld, hdisc⟩ :=
        scanSlot_locks proc hc hheld fun q hq => hlt q hq p List.mem_cons_self
      have hlt' : ∀ q ∈ d.held, ∀ r ∈ ps, q < r := by
        intro q hq r hr
        rw [hdheld] at hq
        rcases mem_scanSlot_snd (Option.mem_toList.mp hq) with rfl | hold
        · exact hp r hr
        · have hmem : q ∈ c.held := by
            rw [hheld]
            exact Option.mem_toList.mpr hold
          exact hlt q hmem r (List.mem_cons_of_mem p hr)
      obtain ⟨e, he, hequiet, heheld, hrest⟩ := ih hps _ hquiet hdheld hlt'
      exact ⟨e, (execAll_append hd).trans he, hequiet, heheld, hdisc.append hd hrest⟩

theorem acquired_releaseMin (min_p : Option Slot) :
    (releaseMin min_p).filterMap LockOp.acquired = [] := by
  cases min_p <;> rfl

theorem acquired_scan (proc : Slot → Proc) (ps : List Slot) (min_p : Option Slot) :
    (scan proc ps min_p).1.filterMap LockOp.acquired = ps := by
  induction ps generalizing min_p with
  | nil => rfl
  | cons p ps ih =>
      have hslot : (scanSlot proc min_p p).1.filterMap LockOp.acquired = [p] := by
        unfold scanSlot
        split_ifs
        · rw [List.filterMap_cons, acquired_releaseMin]
          rfl
        · rfl
      rw [scan, List.filterMap_append, hslot, ih, List.singleton_append]

/-- `noff` counts the locks, whatever happens to them. -/
theorem noff_execAll {ops : List LockOp} {c c' : Cpu} (h : execAll ops c = .ok c')
    (hc : c.noff = c.held.length) : c'.noff = c'.held.length := by
  induction ops generalizing c with
  | nil =>
      cases h
      exact hc
  | cons op ops ih =>
      rw [execAll] at h
      cases hop : op.exec c with
      | error e =>
          rw [hop] at h
          cases h
      | ok d =>
          rw [hop] at h
          refine ih h ?_
          cases op with
          | acquire p =>
              simp only [LockOp.exec, acquire] at hop
              split_ifs at hop
              cases hop
              simp [pushOff, hc]
          | release p =>
              simp only [LockOp.exec, release, popOff] at hop
              split_ifs at hop with hp
              cases hop
              rw [hc, List.length_erase_of_mem hp]

/-- The scan ends with the first runnable process and its lock, or with neither.  It
holds at most two locks, acquired in the order of the slots, and `sched` finds `noff`
as it must be when the process gives the CPU back. -/
theorem fifo_scan_locks (proc : Slot → Proc) (intena : Bool) :
    Disciplined (fifoScan proc).1 (idle intena) ∧
    (fifoScan proc).1.filterMap LockOp.acquired = List.finRange NPROC ∧
    ∃ c, execAll (fifoScan proc).1 (idle intena) = .ok c ∧
      (((∀ p, (proc p).state ≠ .RUNNABLE) ∧ (fifoScan proc).2 = none ∧ c.held = []) ∨
        ∃ m, (fifoScan proc).2 = some m ∧ IsFirst proc m ∧ c.held = [m] ∧ c.noff = 1 ∧
          ∀ ops c', execAll ops c = .ok c' → c'.held = [m] →
            ∀ state, schedCheck c' m state ≠ some .locks) := by
  have hidle : Quiet (idle intena) := ⟨rfl, rfl, fun h => absurd h (Nat.lt_irrefl 0)⟩
  obtain ⟨c, hc, hquiet, hheld, hdisc⟩ := scan_locks proc (List.pairwise_lt_finRange NPROC) none
    hidle rfl fun q hq => absurd hq List.not_mem_nil
  refine ⟨hdisc, acquired_scan proc _ none, c, hc, ?_⟩
  rcases fifoScan_snd proc with ⟨hnone, hmin⟩ | ⟨m, hmin, hfirst⟩
  · exact .inl ⟨hnone, hmin, by rw [hheld, ← fifoScan, hmin]; rfl⟩
  · have hm : c.held = [m] := by
      rw [hheld, ← fifoScan, hmin]
      rfl
    refine .inr ⟨m, hmin, hfirst, hm, by rw [hquiet.count, hm]; rfl, ?_⟩
    intro ops c' hops hm' state
    have hnoff : c'.noff = 1 := by
      rw [noff_execAll hops hquiet.count, hm']
      rfl
    simp only [schedCheck, hm', hnoff]
    split_ifs <;> simp_all

end ShellXv6.Xv6.FifoLocks
