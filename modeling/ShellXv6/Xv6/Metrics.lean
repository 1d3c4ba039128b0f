import ShellXv6.Lib.IntConversion
import ShellXv6.Xv6.BuildSteps

/-!
# The metrics of an exiting process

On one CPU no process changes its state between `ticks++` and the end of
`update_time`, so every clock tick of a life is counted once: as run time, as
sleep time, or as a tick at which `update_time` found the process `USED` or
`RUNNABLE`.  `kexit` prints the balance of this account.
-/

namespace ShellXv6.Xv6

/-! ## The account of a run -/

namespace Lifecycle

variable {n : ℕ}

/-- What an observer writes down about the process in a slot: the clock tick of
its allocation, the ticks at which `update_time` has found it waiting since then,
the tick of its first dispatch, and whether it has been dispatched while the tick
counter was not 0. -/
structure Entry where
  born : ℕ
  waited : ℕ
  firstRun : Option ℕ
  ticked : Bool

namespace Entry

def new (elapsed : ℕ) : Entry := ⟨elapsed, 0, none, false⟩

def sample (life : Life) (x : Entry) : Entry :=
  if life.state = .USED ∨ life.state = .RUNNABLE then { x with waited := x.waited + 1 } else x

def dispatch (elapsed ticks : ℕ) (x : Entry) : Entry :=
  { x with
    firstRun := some (x.firstRun.getD elapsed)
    ticked := x.ticked || decide (ticks ≠ 0) }

end Entry

/-- The clock ticks since power-on, and an entry for every slot. -/
structure Account where
  elapsed : ℕ
  entry : Slot → Entry

namespace Account

def start : Account := ⟨0, fun _ => .new 0⟩

def setEntry (p : Slot) (x : Entry) (r : Account) : Account :=
  { r with entry := Function.update r.entry p x }

def note (v : Table n) (e : Mark) (r : Account) : Account :=
  match e with
  | .tick => { r with elapsed := r.elapsed + 1 }
  | .sample p => r.setEntry p ((r.entry p).sample (v.life p))
  | .alloc p => r.setEntry p (.new r.elapsed)
  | .dispatch p => r.setEntry p ((r.entry p).dispatch r.elapsed v.ticks)
  | .silent => r
  | .kill _ _ => r

end Account

/-- The tick that a slot still has to be charged for while `update_time` has
not reached it. -/
def pending (clock : Option ℕ) (p : Slot) : ℕ :=
  match clock with
  | some k => if k ≤ p.val then 1 else 0
  | none => 0

/-- A process lives on with its times, and does not run or sleep for the first
time. -/
def LivesOn (x y : Life) : Prop :=
  y.Live → x.Live ∧ y.creation_time = x.creation_time ∧ y.rtime = x.rtime ∧
    y.iotime = x.iotime ∧ y.first_run_time = x.first_run_time ∧
    (x.state = .USED ∨ x.state = .RUNNABLE → y.state = .USED ∨ y.state = .RUNNABLE)

theorem LivesOn.refl (x : Life) : LivesOn x x := fun h => ⟨h, rfl, rfl, rfl, rfl, id⟩

theorem livesOn_setLife {v : Table n} {p : Slot} {x : Life} (hx : LivesOn (v.life p) x)
    (q : Slot) : LivesOn (v.life q) ((v.setLife p x).life q) := by
  rw [Table.setLife_life]
  by_cases hq : q = p
  · rw [if_pos hq, hq]
    exact hx
  · rw [if_neg hq]
    exact .refl _

theorem livesOn_enter {x : Life} {state : ProcState} (hlive : x.Live)
    (hstate : x.state = .USED ∨ x.state = .RUNNABLE → state = .USED ∨ state = .RUNNABLE) :
    LivesOn x (x.enter state) := fun _ => ⟨hlive, rfl, rfl, rfl, rfl, hstate⟩

theorem livesOn_kill (x : Life) : LivesOn x x.kill := fun h => ⟨h, rfl, rfl, rfl, rfl, id⟩

/-- Marks that the account does not read. -/
def Mark.quiet : Mark → Bool
  | .silent => true
  | .kill _ _ => true
  | _ => false

theorem Step.livesOn {v w : Table n} {c : Fin n} {e : Mark} (hv : v.Inv) (hstep : Step v c e w)
    (he : e.quiet = true) (q : Slot) : LivesOn (v.life q) (w.life q) := by
  cases hstep with
  | silent | sampled | fork | adopt => exact .refl _
  | forkFails hchild =>
      exact livesOn_setLife (v := v.setCpu c _) (fun h => absurd rfl h.1) q
  | @wakeChild p hchild =>
      have hused := hv.child c p hchild
      refine livesOn_setLife (v := v.setCpu c _) (livesOn_enter ?_ fun _ => .inr rfl) q
      exact ⟨by simp [Table.setCpu, hused], by simp [Table.setCpu, hused]⟩
  | @leave p state hcur _ =>
      have hrun := hv.cur c p hcur
      refine livesOn_setLife (v := v.setCpu c _) (livesOn_enter ?_ ?_) q
      · exact ⟨by simp [Table.setCpu, hrun], by simp [Table.setCpu, hrun]⟩
      · simp [Table.setCpu, hrun]
  | @wake p hsleeps =>
      exact livesOn_setLife (livesOn_enter ⟨by simp [hsleeps], by simp [hsleeps]⟩
        fun _ => .inr rfl) q
  | kill => exact livesOn_setLife (livesOn_kill _) q
  | @killWake p pid _ hsleeps =>
      have hlive : (v.life p).kill.Live := by
        simp [Life.Live, Life.kill, hsleeps]
      exact livesOn_setLife (x := (v.life p).kill.enter .RUNNABLE)
        (livesOn_enter hlive fun _ => .inr rfl) q
  | setkilled => exact livesOn_setLife (livesOn_kill _) q
  | free => exact livesOn_setLife (fun h => absurd rfl h.1) q
  | tick | sample | alloc | userinit | allocFails | dispatch => cases he

theorem setCpu_clock {v : Table n} (c c' : Fin n) (x : Core) :
    ((v.setCpu c x).cpu c').clock = if c' = c then x.clock else (v.cpu c').clock := by
  by_cases hc : c' = c <;> simp [Table.setCpu, hc]

theorem Step.pending {v w : Table n} {c : Fin n} {e : Mark} (hstep : Step v c e w)
    (he : e.quiet = true) (c' : Fin n) (p : Slot) :
    pending (w.cpu c').clock p = Lifecycle.pending (v.cpu c').clock p := by
  have hset {x : Core} (hx : x.clock = (v.cpu c).clock) :
      ((v.setCpu c x).cpu c').clock = (v.cpu c').clock := by
    rw [setCpu_clock]
    by_cases hc : c' = c
    · rw [if_pos hc, hx, hc]
    · rw [if_neg hc]
  cases hstep with
  | silent | wake | kill | killWake | setkilled | free => rfl
  | fork | forkFails | adopt | wakeChild | leave =>
      exact congrArg (Lifecycle.pending · p) (hset rfl)
  | @sampled k hclock hk =>
      rw [setCpu_clock]
      by_cases hc : c' = c
      · have hlt : ¬k ≤ p.val := by
          have := p.isLt
          omega
        rw [if_pos hc, hc, hclock]
        simp [Lifecycle.pending, hlt]
      · rw [if_neg hc]
  | tick | sample | alloc | userinit | allocFails | dispatch => cases he

theorem Step.ticks {v w : Table n} {c : Fin n} {e : Mark} (hstep : Step v c e w)
    (he : e ≠ .tick) : w.ticks = v.ticks := by
  cases hstep with
  | tick => exact absurd rfl he
  | _ => rfl

/-! ## The entry of a process -/

/-- The entry of a living process, which still has to be charged for `due` ticks.
`first_run_time` is the tick of the first dispatch; if that was 0, which also
stands for "not yet run", a later dispatch may have replaced it. -/
structure Entry.Matches (x : Entry) (life : Life) (elapsed due : ℕ) : Prop where
  created : life.creation_time = x.born % 2 ^ 32
  balance : elapsed = x.born + x.waited + life.rtime + life.iotime + due
  fresh : x.firstRun = none → life.rtime = 0 ∧ life.iotime = 0 ∧ life.first_run_time = 0 ∧
    (life.state = .USED ∨ life.state = .RUNNABLE)
  ran : ∀ f, x.firstRun = some f → x.born ≤ f ∧ f ≤ x.born + x.waited
  unticked : x.firstRun = none → x.ticked = false
  bound : life.first_run_time < 2 ^ 32
  date : ∀ f, x.firstRun = some f → f % 2 ^ 32 ≠ 0 → life.first_run_time = f % 2 ^ 32
  undated : ∀ f, x.firstRun = some f → f % 2 ^ 32 = 0 →
    (life.first_run_time ≠ 0 ↔ x.ticked = true)

namespace Entry.Matches

variable {x : Entry} {life : Life} {elapsed due : ℕ}

theorem livesOn (h : x.Matches life elapsed due) {y : Life} (hy : LivesOn life y)
    (hlive : y.Live) : x.Matches y elapsed due := by
  obtain ⟨-, hcreated, hrtime, hiotime, hfirst, hstate⟩ := hy hlive
  refine ⟨?_, ?_, ?_, h.ran, h.unticked, ?_, ?_, ?_⟩
  · rw [hcreated]
    exact h.created
  · rw [hrtime, hiotime]
    exact h.balance
  · intro hnone
    rw [hrtime, hiotime, hfirst]
    obtain ⟨hr, hi, hf, hs⟩ := h.fresh hnone
    exact ⟨hr, hi, hf, hstate hs⟩
  · rw [hfirst]
    exact h.bound
  · rw [hfirst]
    exact h.date
  · rw [hfirst]
    exact h.undated

theorem tick (h : x.Matches life elapsed 0) : x.Matches life (elapsed + 1) 1 :=
  { h with
    balance := by
      have hold := h.balance
      omega }

theorem sample (h : x.Matches life elapsed 1) (hlive : life.Live) :
    (x.sample life).Matches life.sample elapsed 0 := by
  have hbalance := h.balance
  by_cases hwaits : life.state = .USED ∨ life.state = .RUNNABLE
  · have hlife : life.sample = life := by
      unfold Life.sample
      rcases hwaits with hstate | hstate <;> simp [hstate]
    rw [hlife, Entry.sample, if_pos hwaits]
    refine { h with balance := ?_, ran := ?_ }
    · change elapsed = x.born + (x.waited + 1) + life.rtime + life.iotime + 0
      omega
    · intro f hf
      have hran := h.ran f hf
      change x.born ≤ f ∧ f ≤ x.born + (x.waited + 1)
      omega
  · rw [Entry.sample, if_neg hwaits]
    have hsum : life.sample.rtime + life.sample.iotime = life.rtime + life.iotime + 1 := by
      obtain ⟨hfree, hexit⟩ := hlive
      unfold Life.sample
      cases hstate : life.state <;> simp_all <;> omega
    refine ⟨?_, ?_, fun hnone => absurd (h.fresh hnone).2.2.2 hwaits, h.ran, h.unticked,
      ?_, ?_, ?_⟩
    · rw [Life.sample_creation_time]
      exact h.created
    · omega
    · rw [Life.sample_first_run_time]
      exact h.bound
    · rw [Life.sample_first_run_time]
      exact h.date
    · rw [Life.sample_first_run_time]
      exact h.undated

theorem new (hcreated : life.creation_time = elapsed % 2 ^ 32) (hrtime : life.rtime = 0)
    (hiotime : life.iotime = 0) (hfirst : life.first_run_time = 0)
    (hstate : life.state = .USED ∨ life.state = .RUNNABLE) :
    (Entry.new elapsed).Matches life elapsed 0 := by
  refine ⟨hcreated, ?_, fun _ => ⟨hrtime, hiotime, hfirst, hstate⟩, ?_, fun _ => rfl, ?_, ?_, ?_⟩
  · rw [hrtime, hiotime]
    rfl
  · intro f hf
    cases hf
  · rw [hfirst]
    exact Nat.two_pow_pos 32
  · intro f hf
    cases hf
  · intro f hf
    cases hf

theorem dispatch_first (h : x.Matches life elapsed 0) {ticks : ℕ}
    (hticks : ticks = elapsed % 2 ^ 32) (hfirst : x.firstRun = none) :
    (x.dispatch elapsed ticks).Matches (life.dispatch ticks) elapsed 0 := by
  obtain ⟨hrtime, hiotime, hzero, -⟩ := h.fresh hfirst
  have hbalance := h.balance
  have hrun : (life.dispatch ticks).first_run_time = ticks := if_pos hzero
  have hnow {f : ℕ} (hf : (x.dispatch elapsed ticks).firstRun = some f) : elapsed = f := by
    simpa [Entry.dispatch, hfirst] using hf
  refine ⟨h.created, hbalance, nofun, ?_, nofun, ?_, ?_, ?_⟩
  · intro f hf
    rw [← hnow hf]
    change x.born ≤ elapsed ∧ elapsed ≤ x.born + x.waited
    omega
  · rw [hrun, hticks]
    exact Nat.mod_lt _ (Nat.two_pow_pos 32)
  · intro f hf _
    rw [hrun, hticks, hnow hf]
  · intro f hf hmod
    rw [← hnow hf, ← hticks] at hmod
    rw [hrun]
    simp [Entry.dispatch, hmod, h.unticked hfirst]

theorem dispatch_again (h : x.Matches life elapsed 0) {ticks g : ℕ} (hticks : ticks < 2 ^ 32)
    (hfirst : x.firstRun = some g) :
    (x.dispatch elapsed ticks).Matches (life.dispatch ticks) elapsed 0 := by
  have hrun : (life.dispatch ticks).first_run_time =
      if life.first_run_time = 0 then ticks else life.first_run_time := rfl
  have hsame : (x.dispatch elapsed ticks).firstRun = x.firstRun := by
    simp [Entry.dispatch, hfirst]
  refine ⟨h.created, h.balance, nofun, ?_, nofun, ?_, ?_, ?_⟩
  · rw [hsame]
    exact h.ran
  · rw [hrun]
    split_ifs
    · exact hticks
    · exact h.bound
  · intro f hf hmod
    rw [hsame] at hf
    have hdate := h.date f hf hmod
    rw [hrun, if_neg (by omega), hdate]
  · intro f hf hmod
    rw [hsame] at hf
    have hundated := h.undated f hf hmod
    rw [hrun]
    by_cases hzero : life.first_run_time = 0
    · have hnot : x.ticked = false := by simpa [hzero] using hundated
      simp [Entry.dispatch, hzero, hnot]
    · simp [Entry.dispatch, hzero, hundated.mp hzero]

theorem dispatch (h : x.Matches life elapsed 0) {ticks : ℕ} (hticks : ticks = elapsed % 2 ^ 32) :
    (x.dispatch elapsed ticks).Matches (life.dispatch ticks) elapsed 0 := by
  cases hfirst : x.firstRun with
  | none => exact h.dispatch_first hticks hfirst
  | some g =>
      refine h.dispatch_again ?_ hfirst
      rw [hticks]
      exact Nat.mod_lt _ (Nat.two_pow_pos 32)

end Entry.Matches

/-! ## The account balances -/

structure Balanced (v : Table 1) (r : Account) : Prop where
  ticks : v.ticks = r.elapsed % 2 ^ 32
  entry : ∀ c p, (v.life p).Live →
    (r.entry p).Matches (v.life p) r.elapsed (pending (v.cpu c).clock p)

/-- A step that concerns one slot and its entry. -/
theorem Balanced.setEntry {v w : Table 1} {r : Account} {p : Slot} {x : Entry} {y : Life}
    (h : Balanced v r) (hticks : w.ticks = v.ticks) (hlife : w.life = Function.update v.life p y)
    (hpending : ∀ c q, q ≠ p → pending (w.cpu c).clock q = pending (v.cpu c).clock q)
    (hself : ∀ c, y.Live → x.Matches y r.elapsed (pending (w.cpu c).clock p)) :
    Balanced w (r.setEntry p x) := by
  refine ⟨hticks.trans h.ticks, ?_⟩
  intro c q hq
  rw [hlife] at hq ⊢
  by_cases hqp : q = p
  · subst hqp
    simp only [Account.setEntry, Function.update_self] at hq ⊢
    exact hself c hq
  · simp only [Account.setEntry, Function.update_of_ne hqp] at hq ⊢
    rw [hpending c q hqp]
    exact h.entry c q hq

theorem Balanced.quiet {v w : Table 1} {r : Account} {c : Fin 1} {e : Mark} (h : Balanced v r)
    (hv : v.Inv) (hstep : Step v c e w) (he : e.quiet = true) : Balanced w r := by
  refine ⟨?_, ?_⟩
  · rw [hstep.ticks (by rintro rfl; cases he), h.ticks]
  · intro c' p hp
    have hlives := hstep.livesOn hv he p
    rw [hstep.pending he]
    exact (h.entry c' p (hlives hp).1).livesOn hlives hp

theorem Balanced.tick {v : Table 1} {r : Account} {c : Fin 1} (h : Balanced v r)
    (hclock : (v.cpu c).clock = none) :
    Balanced ({ v with ticks := (v.ticks + 1) % 2 ^ 32 }.setCpu c { v.cpu c with clock := some 0 })
      { r with elapsed := r.elapsed + 1 } := by
  refine ⟨?_, ?_⟩
  · change (v.ticks + 1) % 2 ^ 32 = (r.elapsed + 1) % 2 ^ 32
    rw [h.ticks, Nat.mod_add_mod]
  · intro c' p hp
    have hold := h.entry c p hp
    rw [hclock] at hold
    rw [setCpu_clock, if_pos (Subsingleton.elim c' c)]
    exact hold.tick

theorem Balanced.sample {v : Table 1} {r : Account} {c : Fin 1} {p : Slot} (h : Balanced v r)
    (hclock : (v.cpu c).clock = some p.val) :
    Balanced ((v.setCpu c { v.cpu c with clock := some (p.val + 1) }).setLife p (v.life p).sample)
      (r.note v (.sample p)) := by
  have hnew (c' : Fin 1) : (((v.setCpu c { v.cpu c with clock := some (p.val + 1) }).setLife p
      (v.life p).sample).cpu c').clock = some (p.val + 1) := by
    rw [Subsingleton.elim c' c]
    simp [Table.setLife, Table.setCpu]
  refine h.setEntry rfl rfl ?_ ?_
  · intro c' q hq
    have hval : q.val ≠ p.val := fun heq => hq (Fin.ext heq)
    rw [hnew, Subsingleton.elim c' c, hclock]
    simp only [Lifecycle.pending]
    split_ifs <;> omega
  · intro c' hlive
    have hold : (v.life p).Live := by simpa only [Life.Live, Life.sample_state] using hlive
    have hentry := h.entry c p hold
    rw [hclock, Lifecycle.pending, if_pos le_rfl] at hentry
    rw [hnew, Lifecycle.pending, if_neg (by omega)]
    exact hentry.sample hold

/-- A new life, or none, in slot `p`. -/
theorem Balanced.alloc {v w : Table 1} {r : Account} {p : Slot} {y : Life} (h : Balanced v r)
    (hticks : w.ticks = v.ticks) (hlife : w.life = Function.update v.life p y)
    (hclock : ∀ c, (w.cpu c).clock = (v.cpu c).clock)
    (hy : y.Live → y.creation_time = v.ticks ∧ y.rtime = 0 ∧ y.iotime = 0 ∧
      y.first_run_time = 0 ∧ (y.state = .USED ∨ y.state = .RUNNABLE) ∧
      ∀ c, (v.cpu c).clock = none) : Balanced w (r.note v (.alloc p)) := by
  refine h.setEntry hticks hlife ?_ ?_
  · intro c q _
    rw [hclock]
  · intro c hlive
    obtain ⟨hcreated, hrtime, hiotime, hfirst, hstate, hnone⟩ := hy hlive
    rw [hclock, hnone]
    exact .new (hcreated.trans h.ticks) hrtime hiotime hfirst hstate

theorem Balanced.dispatch {v : Table 1} {r : Account} {c : Fin 1} {p : Slot} (h : Balanced v r)
    (hclock : (v.cpu c).clock = none) (hready : (v.life p).state = .RUNNABLE) :
    Balanced ((v.setLife p ((v.life p).dispatch v.ticks)).setCpu c { v.cpu c with cur := some p })
      (r.note v (.dispatch p)) := by
  have hnew (c' : Fin 1) : (((v.setLife p ((v.life p).dispatch v.ticks)).setCpu c
      { v.cpu c with cur := some p }).cpu c').clock = (v.cpu c).clock := by
    rw [Subsingleton.elim c' c]
    simp [Table.setCpu]
  refine h.setEntry rfl rfl ?_ ?_
  · intro c' q _
    rw [hnew, Subsingleton.elim c' c]
  · intro c' _
    have hentry := h.entry c p ⟨by simp [hready], by simp [hready]⟩
    rw [hnew]
    rw [hclock] at hentry ⊢
    exact hentry.dispatch h.ticks

theorem note_quiet (v : Table n) (r : Account) {e : Mark} (he : e.quiet = true) :
    r.note v e = r := by
  cases e <;> first
    | rfl
    | cases he

theorem Balanced.step {v w : Table 1} {r : Account} {c : Fin 1} {e : Mark} (h : Balanced v r)
    (hv : v.Inv) (hstep : Step v c e w) : Balanced w (r.note v e) := by
  by_cases he : e.quiet = true
  · rw [note_quiet v r he]
    exact h.quiet hv hstep he
  have hnone (hclock : (v.cpu c).clock = none) (c' : Fin 1) : (v.cpu c').clock = none := by
    rw [Subsingleton.elim c' c]
    exact hclock
  cases hstep with
  | tick hclock => exact h.tick hclock
  | sample hclock => exact h.sample hclock
  | @alloc p hclock hfree =>
      refine h.alloc rfl rfl ?_ fun _ => ⟨rfl, rfl, rfl, rfl, .inl rfl, hnone hclock⟩
      intro c'
      change (Function.update v.cpu c { v.cpu c with child := some p } c').clock = _
      rw [Subsingleton.elim c' c, Function.update_self]
  | userinit hclock hfree =>
      exact h.alloc rfl rfl (fun _ => rfl) fun _ => ⟨rfl, rfl, rfl, rfl, .inr rfl, hnone hclock⟩
  | allocFails hfree => exact h.alloc rfl rfl (fun _ => rfl) fun hlive => absurd rfl hlive.1
  | dispatch hclock hready => exact h.dispatch hclock hready
  | silent | sampled | fork | forkFails | adopt | wakeChild | leave | wake | setkilled | free =>
      exact absurd rfl he
  | kill | killWake => exact absurd rfl he

end Lifecycle

/-! ## What `kexit` prints -/

namespace Kernel

open Lifecycle (Account Balanced Mark Step Table)
open Smp (Action Choice Cont Ctl goes firstDispatch forks)

variable {n : ℕ} {b : Build}

/-- The line `Metrics [PID %d]: Turnaround=%d, Waiting=%d, Response=%d`. -/
structure Metrics where
  pid : ℤ
  turnaround : ℤ
  waiting : ℤ
  response : ℤ
  deriving DecidableEq

/-- The `uint64` fields are subtracted modulo `2 ^ 64` and the differences are
stored in `int` variables; only processes after `init` and `sh` are printed. -/
def metrics (p : Proc) : Option Metrics :=
  if 2 < p.pid then
    let turnaround : BitVec 32 :=
      (BitVec.ofNat 64 p.etime - BitVec.ofNat 64 p.creation_time).setWidth 32
    let waiting : BitVec 32 :=
      (turnaround.signExtend 64 - BitVec.ofNat 64 p.rtime - BitVec.ofNat 64 p.iotime).setWidth 32
    let response : BitVec 32 :=
      (BitVec.ofNat 64 p.first_run_time - BitVec.ofNat 64 p.creation_time).setWidth 32
    some ⟨p.pid, turnaround.toInt, waiting.toInt, response.toInt⟩
  else none

theorem metrics_eq {x : Proc} (hpid : 2 < x.pid) :
    metrics x = some ⟨x.pid, Int.bmod ((x.etime : ℤ) - x.creation_time) (2 ^ 32),
      Int.bmod (Int.bmod ((x.etime : ℤ) - x.creation_time) (2 ^ 32) - x.rtime - x.iotime) (2 ^ 32),
      Int.bmod ((x.first_run_time : ℤ) - x.creation_time) (2 ^ 32)⟩ := by
  simp only [metrics, if_pos hpid, IntConversion.toInt_sub_ofNat,
    IntConversion.toInt_signExtend_sub_ofNat]

/-- The kernel with the account of its run. -/
def accountedStep (b : Build) : State 1 × Account → Action 1 → Option (State 1 × Account) :=
  Run.recorded (step b) fun s a r => r.note s.view (mark b s a)

def Accounted (b : Build) (x : State 1 × Account) : Prop :=
  Run.Reach (fun y => y.1 = State.boot 1 ∧ y.2 = Account.start) (accountedStep b) Run.Any x

variable {x : State 1 × Account}

theorem Accounted.reachable (hx : Accounted b x) : Reachable b x.1 :=
  Run.Reach.of_recorded hx

/-- Every run has an account. -/
theorem Reachable.exists_account {s : State 1} (hs : Reachable b s) :
    ∃ r, Accounted b (s, r) := by
  obtain ⟨r, hr⟩ := Run.Reach.exists_recorded
    (fun s a (r : Account) => r.note s.view (mark b s a)) Account.start hs
  exact ⟨r, hr⟩

theorem Accounted.balanced (hx : Accounted b x) : Balanced x.1.view x.2 := by
  apply hx.invariant
  · rintro ⟨s, r⟩ ⟨rfl, rfl⟩
    exact ⟨rfl, fun _ _ h => absurd rfl h.1⟩
  · intro y a z hy h _ hz
    have hreach := Accounted.reachable hy
    obtain ⟨ht, hr⟩ := Run.recorded_eq_some_iff.mp hz
    rw [hr]
    exact h.step hreach.table (refines hreach.inv ht)

/-- `p` runs on CPU `c` and is about to carry out its last section. -/
def Exiting (s : State n) (c : Fin n) (p : Slot) (status : ℤ) : Prop :=
  ∃ k, (s.core.cpu c).ctl = .crit p (.kexit status) k

theorem Exiting.proc {s t : State n} {c : Fin n} {p : Slot} {status : ℤ}
    (h : Exiting s c p status) (hinv : Inv b s) (ht : step b s ⟨c, .go⟩ = some t) :
    t.core.proc p = (s.core.proc p).kexit s.core.ticks status := by
  obtain ⟨k, hctl⟩ := h
  have hcore {u : Smp.State n} (hu : CoreSteps s.core c .go u) :
      u.proc p = (s.core.proc p).kexit s.core.ticks status := by
    cases hu with
    | same hu =>
        have hcrit := Smp.critStep_of_step hctl hu
        simp only [Smp.critStep, Option.some.injEq] at hcrit
        subst hcrit
        exact Function.update_self p _ s.core.proc
    | noBoost hctl' | yield hctl' | noEnqueue hctl' =>
        rw [hctl] at hctl'
        cases hctl'
  cases steps_of_step ht with
  | core _ _ hu => exact hcore hu
  | switched _ _ _ hu => exact hcore hu
  | start _ _ hwindow | acquire _ _ _ hwindow | dispatch _ _ _ hwindow | wait _ _ hwindow =>
      rw [hctl] at hwindow
      cases hwindow
  | look _ hscan =>
      have hwindow := (hinv.scanning c _ hscan).window (.inr rfl)
      rw [hctl] at hwindow
      cases hwindow

theorem Exiting.running {s : State n} {c : Fin n} {p : Slot} {status : ℤ}
    (h : Exiting s c p status) (hs : Reachable b s) :
    (s.core.proc p).state = .RUNNING ∧ (s.view.cpu c).clock = none := by
  obtain ⟨k, hctl⟩ := h
  have hproc := (hs.inv.sound c).own hctl rfl
  have hcore : s.view.cpu c = ⟨some p, none, none⟩ := by
    simp [State.view, Smp.State.view, Smp.Cpu.core, hctl, hproc, Ctl.leaving, Ctl.child, Ctl.clock]
  rw [hcore]
  exact ⟨hs.table.cur c p (by rw [hcore]), rfl⟩

theorem Exiting.live {s : State n} {c : Fin n} {p : Slot} {status : ℤ}
    (h : Exiting s c p status) (hs : Reachable b s) : (s.view.life p).Live := by
  obtain ⟨hrun, -⟩ := h.running hs
  change (s.view.life p).state = _ at hrun
  exact ⟨by simp [hrun], by simp [hrun]⟩

/-- The entry of a process at its exit. -/
theorem Accounted.exit_entry (hx : Accounted b x) {c : Fin 1} {p : Slot} {status : ℤ}
    (hexit : Exiting x.1 c p status) :
    x.1.core.ticks = x.2.elapsed % 2 ^ 32 ∧
      (x.2.entry p).Matches (x.1.core.proc p).life x.2.elapsed 0 := by
  have hentry := hx.balanced.entry c p (hexit.live hx.reachable)
  rw [(hexit.running hx.reachable).2] at hentry
  exact ⟨hx.balanced.ticks, hentry⟩

theorem Accounted.exit_balance (hx : Accounted b x) {c : Fin 1} {p : Slot} {status : ℤ}
    (hexit : Exiting x.1 c p status) :
    x.1.core.ticks = x.2.elapsed % 2 ^ 32 ∧
    (x.1.core.proc p).creation_time = (x.2.entry p).born % 2 ^ 32 ∧
    x.2.elapsed = (x.2.entry p).born + (x.2.entry p).waited + (x.1.core.proc p).rtime +
      (x.1.core.proc p).iotime := by
  obtain ⟨hticks, hentry⟩ := hx.exit_entry hexit
  exact ⟨hticks, hentry.created, hentry.balance⟩

/-- The metrics of a process that exits less than `2 ^ 31` ticks after its
allocation. -/
theorem Accounted.exit_metrics (hx : Accounted b x) {c : Fin 1} {p : Slot} {status : ℤ}
    (hexit : Exiting x.1 c p status) (hpid : 2 < (x.1.core.proc p).pid)
    (hage : x.2.elapsed - (x.2.entry p).born < 2 ^ 31) {t : State 1}
    (ht : step b x.1 ⟨c, .go⟩ = some t) :
    ∃ m, metrics (t.core.proc p) = some m ∧
      m.turnaround = (x.2.elapsed : ℤ) - (x.2.entry p).born ∧ m.waiting = (x.2.entry p).waited ∧
      m.response = Int.bmod (((x.1.core.proc p).first_run_time : ℤ) -
        (x.1.core.proc p).creation_time) (2 ^ 32) := by
  obtain ⟨hticks, hcreated, hsum⟩ := hx.exit_balance hexit
  rw [hexit.proc hx.reachable.inv ht]
  have hturn : Int.bmod ((x.1.core.ticks : ℤ) - (x.1.core.proc p).creation_time) (2 ^ 32) =
      (x.2.elapsed : ℤ) - (x.2.entry p).born := by
    rw [hticks, hcreated]
    exact IntConversion.bmod_sub_mod (by omega) hage
  refine ⟨_, metrics_eq hpid, hturn, ?_, rfl⟩
  change Int.bmod (Int.bmod ((x.1.core.ticks : ℤ) - (x.1.core.proc p).creation_time) (2 ^ 32) -
    (x.1.core.proc p).rtime - (x.1.core.proc p).iotime) (2 ^ 32) = (x.2.entry p).waited
  rw [hturn]
  have heq : (x.2.elapsed : ℤ) - (x.2.entry p).born - (x.1.core.proc p).rtime -
      (x.1.core.proc p).iotime =
      (x.2.entry p).waited := by omega
  rw [heq]
  apply Int.bmod_eq_of_le <;> omega

/-- The third process is allocated and dispatched before the first tick. -/
def thirdRuns (c : Fin n) (p q r : Slot) : List (Action n) :=
  firstDispatch c p ++ forks c q ++ forks c r ++ ⟨c, .sleep 7⟩ :: goes c 7 ++
    ⟨c, .sleep 7⟩ :: goes c 7

/-- It exits at once. -/
def thirdExits (c : Fin n) (p q r : Slot) : List (Action n) :=
  thirdRuns c p q r ++ [⟨c, .kexit 0⟩]

/-- It sleeps over the first tick, which finds the CPU idle, and exits when it is
dispatched again. -/
def thirdSleeps (c : Fin n) (p q r : Slot) : List (Action n) :=
  thirdRuns c p q r ++ ⟨c, .sleep 7⟩ :: goes c 2 ++ ⟨c, .tick⟩ :: goes c 386 ++
    ⟨c, .wakeup r 7⟩ :: goes c 8 ++ [⟨c, .kexit 0⟩]

/-- The process in slot `p` is about to exit and `kexit` will print its metrics. -/
def prints (c : Fin n) (p : Slot) (x : State n × Account) : Bool :=
  decide ((x.1.core.cpu c).ctl = .crit p (.kexit 0) .thread ∧ 2 < (x.1.core.proc p).pid ∧
    x.2.elapsed < 2 ^ 31) && (step .MLFQ x.1 ⟨c, .go⟩).isSome

/-- The accounting identity of the metrics. -/
theorem metrics_accounting (hx : Accounted b x) {c : Fin 1} {p : Slot} {status : ℤ}
    (hexit : Exiting x.1 c p status) (hpid : 2 < (x.1.core.proc p).pid)
    (hticks : x.2.elapsed < 2 ^ 31) {t : State 1} (ht : step b x.1 ⟨c, .go⟩ = some t) :
    ∃ m, metrics (t.core.proc p) = some m ∧
      m.turnaround = ((t.core.proc p).etime : ℤ) - (t.core.proc p).creation_time ∧
      m.waiting = (x.2.entry p).waited ∧ 0 ≤ m.waiting ∧ m.waiting ≤ m.turnaround ∧
      m.turnaround = m.waiting + (t.core.proc p).rtime + (t.core.proc p).iotime := by
  obtain ⟨hnow, hcreated, hsum⟩ := hx.exit_balance hexit
  obtain ⟨m, hm, hturn, hwait, -⟩ := hx.exit_metrics hexit hpid (by omega) ht
  have hproc := hexit.proc hx.reachable.inv ht
  have hetime : (t.core.proc p).etime = x.2.elapsed := by
    rw [hproc]
    change x.1.core.ticks = _
    rw [hnow, Nat.mod_eq_of_lt (by omega)]
  have hborn : (t.core.proc p).creation_time = (x.2.entry p).born := by
    rw [hproc]
    change (x.1.core.proc p).creation_time = _
    rw [hcreated, Nat.mod_eq_of_lt (by omega)]
  have hrtime : (t.core.proc p).rtime = (x.1.core.proc p).rtime := by
    rw [hproc]
    rfl
  have hiotime : (t.core.proc p).iotime = (x.1.core.proc p).iotime := by
    rw [hproc]
    rfl
  refine ⟨m, hm, ?_, hwait, ?_, ?_, ?_⟩
  · rw [hturn, hetime, hborn]
  · omega
  · omega
  · rw [hturn, hwait, hrtime, hiotime]
    omega

theorem metrics_accounting_sleeper :
    ∃ x t m, Run.exec (accountedStep .MLFQ) (thirdSleeps 0 0 1 2)
        (State.boot 1, Account.start) = some x ∧
      step .MLFQ x.1 ⟨0, .go⟩ = some t ∧ metrics (t.core.proc 2) = some m ∧
      m.waiting = (x.2.entry 2).waited ∧
      m.turnaround = m.waiting + (t.core.proc 2).rtime + (t.core.proc 2).iotime := by
  have hstart : Accounted .MLFQ (State.boot 1, Account.start) := .start ⟨rfl, rfl⟩
  have hrun : (Run.exec (accountedStep .MLFQ) (thirdSleeps 0 0 1 2)
      (State.boot 1, Account.start)).map (prints 0 2) = some true := by decide +kernel
  obtain ⟨x, hx, hprints⟩ := Option.map_eq_some_iff.mp hrun
  obtain ⟨hexit, hstep⟩ := Bool.and_eq_true_iff.mp hprints
  obtain ⟨hctl, hpid, helapsed⟩ := of_decide_eq_true hexit
  obtain ⟨t, ht⟩ := Option.isSome_iff_exists.mp hstep
  obtain ⟨m, hm, -, hwait, -, -, hturn⟩ :=
    metrics_accounting (Run.Reach.exec (thirdSleeps 0 0 1 2) hstart hx) ⟨_, hctl⟩ hpid helapsed ht
  exact ⟨x, t, m, hx, ht, hm, hwait, hturn⟩

/-- The response time of a process younger than `2 ^ 31` ticks is that of its
first dispatch exactly if it was not dispatched first at tick 0 and later at
another one. -/
theorem response_of_first_dispatch_iff (hx : Accounted b x) {c : Fin 1} {p : Slot}
    {status : ℤ} (hexit : Exiting x.1 c p status) (hpid : 2 < (x.1.core.proc p).pid)
    (hage : x.2.elapsed - (x.2.entry p).born < 2 ^ 31) {t : State 1}
    (ht : step b x.1 ⟨c, .go⟩ = some t) :
    ∃ m f, metrics (t.core.proc p) = some m ∧ (x.2.entry p).firstRun = some f ∧
      ((m.response = (f : ℤ) - (x.2.entry p).born ∧ m.response ≤ m.waiting) ↔
        (f % 2 ^ 32 = 0 → (x.2.entry p).ticked = false)) := by
  obtain ⟨-, hentry⟩ := hx.exit_entry hexit
  obtain ⟨-, hcreated, hsum⟩ := hx.exit_balance hexit
  obtain ⟨m, hm, -, hwait, hresponse⟩ := hx.exit_metrics hexit hpid hage ht
  cases hfirst : (x.2.entry p).firstRun with
  | none =>
      -- a process that has not been dispatched is not running
      obtain ⟨-, -, -, hstate⟩ := hentry.fresh hfirst
      change (x.1.core.proc p).state = _ ∨ (x.1.core.proc p).state = _ at hstate
      simp [(hexit.running hx.reachable).1] at hstate
  | some f =>
      obtain ⟨hborn, hwaited⟩ := hentry.ran f hfirst
      refine ⟨m, f, hm, rfl, ?_⟩
      have hright (hdate : (x.1.core.proc p).first_run_time = f % 2 ^ 32) :
          m.response = (f : ℤ) - (x.2.entry p).born ∧ m.response ≤ m.waiting := by
        rw [hdate, hcreated, IntConversion.bmod_sub_mod hborn (by omega)] at hresponse
        exact ⟨hresponse, by omega⟩
      by_cases hzero : f % 2 ^ 32 = 0
      · have hundated := hentry.undated f hfirst hzero
        have hbound := hentry.bound
        change (x.1.core.proc p).first_run_time ≠ 0 ↔ _ at hundated
        change (x.1.core.proc p).first_run_time < _ at hbound
        constructor
        · rintro ⟨heq, -⟩ _
          by_contra hticked
          have hne := hundated.mpr (by simpa using hticked)
          have hmod := IntConversion.emod_eq_of_bmod_eq (hresponse.symm.trans heq)
          rw [hcreated] at hmod
          push_cast at hmod
          omega
        · intro hcond
          apply hright
          have hnot := (not_congr hundated).mpr (by simp [hcond hzero])
          omega
      · have hdate := hentry.date f hfirst hzero
        exact iff_of_true (hright hdate) fun h => absurd h hzero

theorem response_of_first_dispatch_at_once :
    ∃ x t m, Run.exec (accountedStep .MLFQ) (thirdExits 0 0 1 2)
        (State.boot 1, Account.start) = some x ∧
      step .MLFQ x.1 ⟨0, .go⟩ = some t ∧ metrics (t.core.proc 2) = some m ∧
      m.response ≤ m.waiting := by
  have hstart : Accounted .MLFQ (State.boot 1, Account.start) := .start ⟨rfl, rfl⟩
  have hrun : (Run.exec (accountedStep .MLFQ) (thirdExits 0 0 1 2)
      (State.boot 1, Account.start)).map
      (fun x => prints 0 2 x && !(x.2.entry 2).ticked) = some true := by decide +kernel
  obtain ⟨x, hx, hobs⟩ := Option.map_eq_some_iff.mp hrun
  obtain ⟨hprints, hticked⟩ := Bool.and_eq_true_iff.mp hobs
  obtain ⟨hexit, hstep⟩ := Bool.and_eq_true_iff.mp hprints
  obtain ⟨hctl, hpid, helapsed⟩ := of_decide_eq_true hexit
  obtain ⟨t, ht⟩ := Option.isSome_iff_exists.mp hstep
  obtain ⟨m, f, hm, -, hiff⟩ := response_of_first_dispatch_iff
    (Run.Reach.exec (thirdExits 0 0 1 2) hstart hx) ⟨_, hctl⟩ hpid (by omega) ht
  exact ⟨x, t, m, hx, ht, hm, (hiff.mpr fun _ => by simpa using hticked).2⟩

/-- Dispatched at tick 0 and again at tick 1, the process is reported with a
response time of 1 tick, longer than its waiting time. -/
theorem response_exceeds_waiting :
    ∃ x t, Accounted .MLFQ x ∧ Exiting x.1 0 2 0 ∧ (x.2.entry 2).born = 0 ∧
      (x.2.entry 2).firstRun = some 0 ∧ step .MLFQ x.1 ⟨0, .go⟩ = some t ∧
      metrics (t.core.proc 2) = some ⟨3, 1, 0, 1⟩ := by
  have hstart : Accounted .MLFQ (State.boot 1, Account.start) := .start ⟨rfl, rfl⟩
  have hrun : (Run.exec (accountedStep .MLFQ) (thirdSleeps 0 0 1 2)
      (State.boot 1, Account.start)).map (fun x =>
      decide ((x.1.core.cpu 0).ctl = .crit 2 (.kexit 0) .thread ∧ (x.2.entry 2).born = 0 ∧
        (x.2.entry 2).firstRun = some 0 ∧
        (step .MLFQ x.1 ⟨0, .go⟩).map (fun t => metrics (t.core.proc 2)) =
          some (some ⟨3, 1, 0, 1⟩))) = some true := by decide +kernel
  obtain ⟨x, hx, hobs⟩ := Option.map_eq_some_iff.mp hrun
  obtain ⟨hctl, hborn, hfirst, hmetrics⟩ := of_decide_eq_true hobs
  obtain ⟨t, ht, hm⟩ := Option.map_eq_some_iff.mp hmetrics
  exact ⟨x, t, Run.Reach.exec (thirdSleeps 0 0 1 2) hstart hx, ⟨_, hctl⟩, hborn, hfirst, ht, hm⟩

end Kernel

end ShellXv6.Xv6
