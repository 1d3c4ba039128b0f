import ShellXv6.Xv6.BuildSteps

/-!
# Whom the FIFO scheduler dispatches

The scan of the FIFO build keeps the first slot with the smallest
`creation_time` among the runnable slots that it has passed.  Creation times
are clock ticks, so they follow the order of allocation only from one tick to
the next: among processes of one tick the scan prefers the lower slot, and a
reused slot may hold the younger process.

The dispatches are those of one CPU.  With several of them the clock may tick between
the two statements of `allocproc` that take the pid and read `ticks`, and the order of
the pids is no longer that of the creation times.
-/

namespace ShellXv6.Xv6

namespace Lifecycle

variable {n : ℕ}

/-! ## Creation times follow the pids -/

structure Ordered (v : Table n) : Prop where
  past : ∀ p, (v.life p).state ≠ .UNUSED → (v.life p).creation_time ≤ v.ticks
  order : ∀ p q, (v.life p).state ≠ .UNUSED → (v.life q).state ≠ .UNUSED →
    (v.life p).pid ≤ (v.life q).pid → (v.life p).creation_time ≤ (v.life q).creation_time

/-- The process in a slot is the one that was there. -/
def Remains (x y : Life) : Prop :=
  y.state ≠ .UNUSED → x.state ≠ .UNUSED ∧ y.pid = x.pid ∧ y.creation_time = x.creation_time

theorem remains_update {v w : Table n} {p : Slot} {x : Life}
    (hw : w.life = Function.update v.life p x) (hx : Remains (v.life p) x) (q : Slot) :
    Remains (v.life q) (w.life q) := by
  rw [hw]
  by_cases hq : q = p
  · subst hq
    rw [Function.update_self]
    exact hx
  · rw [Function.update_of_ne hq]
    exact fun h => ⟨h, rfl, rfl⟩

theorem Step.remains {v w : Table n} {c : Fin n} {e : Mark} (hv : v.Inv) (hstep : Step v c e w)
    (q : Slot) (hq : e ≠ .alloc q) : Remains (v.life q) (w.life q) := by
  have hsame : Remains (v.life q) (v.life q) := fun h => ⟨h, rfl, rfl⟩
  have hother {u : Table n} {p : Slot} {x : Life} (hu : u.life = Function.update v.life p x)
      (hp : e = .alloc p) : Remains (v.life q) (u.life q) := by
    have hne : q ≠ p := by
      rintro rfl
      exact hq hp
    rw [hu, Function.update_of_ne hne]
    exact hsame
  cases hstep with
  | silent | tick | sampled | fork | adopt => exact hsame
  | @sample p hclock =>
      refine remains_update rfl (fun h => ?_) q
      rw [Life.sample_state] at h
      exact ⟨h, Life.sample_pid _, Life.sample_creation_time _⟩
  | alloc => exact hother rfl rfl
  | userinit => exact hother rfl rfl
  | allocFails => exact hother rfl rfl
  | forkFails | free =>
      refine remains_update rfl ?_ q
      exact fun h => absurd rfl h
  | @wakeChild p hchild =>
      refine remains_update rfl ?_ q
      exact fun _ => ⟨by simp [hv.child c p hchild], rfl, rfl⟩
  | @leave p state hcur _ =>
      refine remains_update rfl ?_ q
      exact fun _ => ⟨by simp [hv.cur c p hcur], rfl, rfl⟩
  | dispatch _ hold | wake hold | killWake _ hold =>
      refine remains_update rfl ?_ q
      exact fun _ => ⟨by simp [hold], rfl, rfl⟩
  | kill | setkilled =>
      refine remains_update rfl ?_ q
      exact fun h => ⟨h, rfl, rfl⟩

/-- The new process of slot `p` has the largest pid and was created now. -/
theorem Step.allocated {v w : Table n} {c : Fin n} {p : Slot} (hstep : Step v c (.alloc p) w)
    (hp : (w.life p).state ≠ .UNUSED) :
    (v.life p).state = .UNUSED ∧ (w.life p).pid = v.nextpid ∧
      (w.life p).creation_time = v.ticks := by
  cases hstep with
  | alloc _ hfree => simp_all [Table.setLife, Table.setCpu, Life.alloc]
  | userinit _ hfree => simp_all [Table.setLife, Life.alloc, Life.enter]
  | allocFails hfree =>
      rw [Table.setLife_life, if_pos rfl] at hp
      exact absurd rfl hp

theorem Step.dispatched {v w : Table n} {c : Fin n} {e : Mark} {p : Slot}
    (hstep : Step v c e w) (hold : (v.life p).state = .RUNNABLE)
    (hnew : (w.life p).state = .RUNNING) : e = .dispatch p := by
  have hupdate {u : Table n} {q : Slot} {x : Life} (hu : u.life = Function.update v.life q x)
      (hu' : (u.life p).state = .RUNNING) : p = q ∧ x.state = .RUNNING := by
    rw [hu] at hu'
    by_cases hp : p = q
    · subst hp
      rw [Function.update_self] at hu'
      exact ⟨rfl, hu'⟩
    · rw [Function.update_of_ne hp, hold] at hu'
      cases hu'
  cases hstep with
  | silent | tick | sampled | fork | adopt =>
      have hsame : (v.life p).state = .RUNNING := hnew
      rw [hold] at hsame
      cases hsame
  | @sample q _ =>
      obtain ⟨rfl, hrun⟩ := hupdate rfl hnew
      rw [Life.sample_state, hold] at hrun
      cases hrun
  | @dispatch q _ _ =>
      obtain ⟨rfl, -⟩ := hupdate rfl hnew
      rfl
  | kill | setkilled =>
      obtain ⟨rfl, hrun⟩ := hupdate rfl hnew
      have hsame : (v.life p).state = .RUNNING := hrun
      rw [hold] at hsame
      cases hsame
  | leave _ hidle =>
      obtain ⟨-, hrun⟩ := hupdate rfl hnew
      change _ = _ at hrun
      rcases hidle with rfl | rfl | rfl <;> cases hrun
  | alloc | userinit | allocFails | forkFails | wakeChild | wake | killWake | free =>
      obtain ⟨-, hrun⟩ := hupdate rfl hnew
      cases hrun

theorem Step.ticks_le {v w : Table n} {c : Fin n} {e : Mark} (hstep : Step v c e w)
    (he : e = .tick → v.ticks + 1 < 2 ^ 32) : v.ticks ≤ w.ticks := by
  cases hstep with
  | tick _ =>
      change v.ticks ≤ (v.ticks + 1) % 2 ^ 32
      rw [Nat.mod_eq_of_lt (he rfl)]
      exact Nat.le_succ _
  | _ => exact le_rfl

theorem Ordered.step {v w : Table n} {c : Fin n} {e : Mark} (h : Ordered v) (hv : v.Inv)
    (hstep : Step v c e w) (he : e = .tick → v.ticks + 1 < 2 ^ 32) : Ordered w := by
  have hticks := hstep.ticks_le he
  -- a slot holds the process of before, or it is the newest of all
  have hcases : ∀ q, (w.life q).state ≠ .UNUSED →
      ((v.life q).state ≠ .UNUSED ∧ (w.life q).pid = (v.life q).pid ∧
        (w.life q).creation_time = (v.life q).creation_time) ∨
      (e = .alloc q ∧ (w.life q).pid = v.nextpid ∧ (w.life q).creation_time = v.ticks) := by
    intro q hq
    by_cases halloc : e = .alloc q
    · subst halloc
      exact .inr ⟨rfl, (hstep.allocated hq).2⟩
    · exact .inl (hstep.remains hv q halloc hq)
  refine ⟨?_, ?_⟩
  · intro p hp
    rcases hcases p hp with ⟨hold, -, hcreated⟩ | ⟨-, -, hcreated⟩
    · have := h.past p hold
      omega
    · omega
  · intro p q hp hq hle
    rcases hcases p hp with ⟨hpold, hppid, hpcreated⟩ | ⟨hpnew, hppid, hpcreated⟩ <;>
      rcases hcases q hq with ⟨hqold, hqpid, hqcreated⟩ | ⟨hqnew, hqpid, hqcreated⟩
    · have := h.order p q hpold hqold (by omega)
      omega
    · have := h.past p hpold
      omega
    · have := (hv.pid_range q hqold).2
      omega
    · omega

end Lifecycle

/-! ## The loop over the queues -/

namespace Smp

variable {n : ℕ}

/-- Code of the MLFQ scheduler below the head of its loop. -/
def Cont.dequeues : Cont → Bool
  | .scan _ => true
  | _ => false

def Ctl.dequeues : Ctl → Bool
  | .run k | .crit _ _ k | .enqueue _ k | .release _ k => k.dequeues
  | .found _ _ => true
  | _ => false

theorem back_dequeues (fromThread : Bool) : (back fromThread).dequeues = false := by
  cases fromThread <;> rfl

theorem setCtl_dequeues (s : State n) (c : Fin n) (ctl : Ctl) :
    ((s.setCtl c ctl).cpu c).ctl.dequeues = ctl.dequeues := by
  simp [State.setCtl, State.setCpu]

/-- Only the head of the loop enters it. -/
theorem dequeues_run {s t : State n} {c : Fin n} {k : Cont} {ch : Choice}
    (hctl : (s.cpu c).ctl = .run k) (ht : runStep s c k ch = some t) (hk : k.dequeues = false)
    (hgo : k ≠ .window ∨ ch ≠ .go) : (t.cpu c).ctl.dequeues = false := by
  have enter {u : State n} {p : Slot} {sec : Section} {j : Cont}
      (ht : u.acquire c p sec j = some t) (hj : j.dequeues = false) :
      (t.cpu c).ctl.dequeues = false := by
    obtain ⟨-, rfl⟩ := acquire_eq_some_iff.mp ht
    rw [setCtl_dequeues]
    exact hj
  have jump {u : State n} {j : Cont} (ht : u.setCtl c (.run j) = t) (hj : j.dequeues = false) :
      (t.cpu c).ctl.dequeues = false := by
    rw [← ht, setCtl_dequeues]
    exact hj
  have stay {u : State n} (ht : u = t) (hu : u.cpu = s.cpu) :
      (t.cpu c).ctl.dequeues = false := by
    rw [← ht, hu, hctl]
    exact hk
  revert ht
  fun_cases runStep s c k ch <;> intro ht
  all_goals first
    | cases ht; done
    | cases hk; done
    | exact enter ht rfl
    | exact jump (Option.some.inj ht) rfl
    | exact jump (Option.some.inj ht) (back_dequeues _)
    | exact stay (Option.some.inj ht) rfl
    | exact absurd hgo (by simp)

theorem dequeues_crit {s t : State n} {c : Fin n} {p : Slot} {k : Cont} {sec : Section}
    {ch : Choice} (hctl : (s.cpu c).ctl = .crit p sec k)
    (ht : critStep s c p k sec ch = some t) (hk : k.dequeues = false) :
    (t.cpu c).ctl.dequeues = false := by
  revert ht
  fun_cases critStep s c p k sec ch <;> intro ht
  all_goals simp only [reduceCtorEq, Option.some.injEq] at ht
  all_goals subst ht
  case case3 =>
    rw [hctl]
    exact hk
  case case31 => simp [State.setCpu, Ctl.dequeues]
  all_goals
    first
    | rw [State.body, setCtl_dequeues]
    | rw [setCtl_dequeues]
    first
    | exact hk
    | rfl

theorem dequeues_step {s t : State n} {c : Fin n} {ch : Choice} (ht : step s ⟨c, ch⟩ = some t)
    (h : (s.cpu c).ctl.dequeues = false) (hgo : (s.cpu c).ctl ≠ .run .window ∨ ch ≠ .go) :
    (t.cpu c).ctl.dequeues = false := by
  cases (steps_of_step ht).2 with
  | run hctl ht =>
      rw [hctl] at h hgo
      exact dequeues_run hctl ht h (hgo.imp_left fun hne hk => hne (congrArg Ctl.run hk))
  | crit hctl ht =>
      rw [hctl] at h
      exact dequeues_crit hctl ht h
  | found hctl _ =>
      rw [hctl] at h
      cases h
  | enqueue hctl _ | release hctl =>
      rw [setCtl_dequeues]
      rw [hctl] at h
      exact h
  | enqueueFails _ _ => exact h
  | enqueueYield _ _ =>
      rw [State.body, setCtl_dequeues]
      rfl
  | swtch _ => simp [State.setCpu, Ctl.dequeues, Cont.dequeues]
  | resume _ =>
      rw [setCtl_dequeues]
      rfl

end Smp

/-! ## The scan -/

namespace Kernel

open Smp (Action Choice goes forks)

variable {n : ℕ}

/-- The slots that a scan has decided about. -/
def Scan.passed : Scan → Slot → Prop
  | .next k _, q => q.val < k
  | .look p _, q => q.val < p.val

/-- The order in which the scan prefers slots. -/
def Precedes (s : Smp.State n) (p q : Slot) : Prop :=
  (s.proc p).creation_time < (s.proc q).creation_time ∨
    (s.proc p).creation_time = (s.proc q).creation_time ∧ p ≤ q

/-- The candidate of a scan precedes every runnable slot that it has passed. -/
structure Swept (s : Smp.State n) (x : Scan) : Prop where
  passed : ∀ m, x.minOf = some m → x.passed m
  least : ∀ q, x.passed q → (s.proc q).state = .RUNNABLE →
    ∃ m, x.minOf = some m ∧ Precedes s m q

theorem Swept.take {s : Smp.State n} {p : Slot} {min_p : Option Slot}
    (h : Swept s (.look p min_p)) (hp : earlier s.proc p min_p = true) :
    Swept s (.next (p.val + 1) (some p)) := by
  refine ⟨?_, ?_⟩
  · intro m hm
    cases hm
    exact Nat.lt_succ_self _
  · intro q hq hready
    refine ⟨p, rfl, ?_⟩
    rcases Nat.lt_succ_iff_lt_or_eq.mp hq with hlt | heq
    · -- the old candidate precedes `q`, and `p` was created before it
      obtain ⟨m, rfl, hm⟩ := h.least q hlt hready
      have hpm : (s.proc p).creation_time < (s.proc m).creation_time := of_decide_eq_true hp
      rcases hm with hm | ⟨hm, -⟩
      · exact .inl (hpm.trans hm)
      · exact .inl (hm ▸ hpm)
    · have hqp : q = p := Fin.ext heq
      exact .inr ⟨by rw [hqp], hqp.ge⟩

theorem Swept.pass {s : Smp.State n} {p : Slot} {min_p : Option Slot}
    (h : Swept s (.look p min_p))
    (hp : ¬((s.proc p).state = .RUNNABLE ∧ earlier s.proc p min_p = true)) :
    Swept s (.next (p.val + 1) min_p) := by
  refine ⟨fun m hm => Nat.lt_succ_of_lt (h.passed m hm), ?_⟩
  intro q hq hready
  rcases Nat.lt_succ_iff_lt_or_eq.mp hq with hlt | heq
  · exact h.least q hlt hready
  · have hqp : q = p := Fin.ext heq
    subst hqp
    cases min_p with
    | none => exact absurd ⟨hready, rfl⟩ hp
    | some m =>
        refine ⟨m, rfl, ?_⟩
        have hge : ¬(s.proc q).creation_time < (s.proc m).creation_time := by
          intro hlt
          exact hp ⟨hready, decide_eq_true hlt⟩
        have hmq : m.val < q.val := h.passed m rfl
        rcases Nat.lt_or_eq_of_le (Nat.not_lt.mp hge) with hlt | heq
        · exact .inl hlt
        · exact .inr ⟨heq, hmq.le⟩

theorem Swept.look {s : State n} {c : Fin n} {p : Slot} {min_p : Option Slot} {x : Scan}
    (h : Swept s.core (.look p min_p)) (hx : (scanLook .FIFO s c p min_p).scan c = some x) :
    Swept (scanLook .FIFO s c p min_p).core x := by
  have hsame {u : Smp.State n} (hu : u.proc = s.core.proc) {y : Scan} (hy : Swept s.core y) :
      Swept u y := by
    refine ⟨hy.passed, fun q hq hready => ?_⟩
    rw [hu] at hready
    obtain ⟨m, hm, hbefore⟩ := hy.least q hq hready
    refine ⟨m, hm, ?_⟩
    unfold Precedes
    rw [hu]
    exact hbefore
  revert hx
  fun_cases scanLook .FIFO s c p min_p <;> intro hx
  case case1 _ hok =>
    rw [scan_setScan] at hx
    cases hx
    exact hsame (releaseMin_proc s.core min_p) (h.take hok.2)
  case case2 _ hno =>
    rw [scan_setScan] at hx
    cases hx
    refine hsame ?_ (h.pass hno)
    rfl
  case case3 hb _ => exact absurd rfl hb
  case case4 hb _ => exact absurd rfl hb

/-- The FIFO scheduler scans with interrupts off. -/
theorem Scanning.not_outside {s : State n} {c : Fin n} {x : Scan} (hs : Scanning .FIFO s c x)
    (hx : s.scan c = some x) : ¬Outside .FIFO s c := by
  rintro (hb | hnone | ⟨k, min_p, -, hrr | hctl⟩)
  · cases hb
  · rw [hnone] at hx
    cases hx
  · cases hrr
  · exact hctl (hs.window (.inl rfl))

/-! ## Orderly runs -/

/-- On one CPU: the tick counter does not wrap around. -/
def Orderly (s : State 1) (a : Action 1) : Prop :=
  a.choice = .tick → s.core.ticks + 1 < 2 ^ 32

instance (s : State 1) (a : Action 1) : Decidable (Orderly s a) :=
  inferInstanceAs (Decidable (_ → _))

theorem mark_tick {b : Build} {s : State n} {a : Action n} (h : mark b s a = .tick) :
    a.choice = .tick := by
  rcases mark_cases b s a with hcore | hsilent | ⟨q, hdispatch, -⟩
  · exact Smp.choice_of_mark_tick (hcore.symm.trans h)
  · cases hsilent.symm.trans h
  · cases hdispatch.symm.trans h

theorem ordered_of_orderly {s : State 1}
    (hs : Run.Reach (· = State.boot 1) (step .FIFO) Orderly s) :
    Lifecycle.Ordered s.view := by
  apply hs.invariant
  · rintro _ rfl
    exact ⟨fun _ h => absurd rfl h, fun _ _ h => absurd rfl h⟩
  · intro s a t hs h hok ht
    have hreach : Reachable .FIFO s := hs.any
    exact h.step hreach.table (refines hreach.inv ht) fun hmark => hok (mark_tick hmark)

/-- Nothing but the scan happens while it goes on. -/
theorem Reachable.swept {s : State 1} (hs : Reachable .FIFO s) :
    ∀ c x, s.scan c = some x → Swept s.core x := by
  apply hs.invariant
  · rintro _ rfl
    nofun
  · rintro s ⟨d, ch⟩ t hs h - ht c x hx
    have hinv := Reachable.inv hs
    obtain rfl := Subsingleton.elim d c
    cases steps_of_step ht with
    | core hscan _ _ => exact absurd hscan ((hinv.scanning d x hx).not_outside hx)
    | switched hb => cases hb
    | start =>
        rw [scan_setScan] at hx
        cases hx
        exact ⟨nofun, fun q hq => absurd hq (Nat.not_lt_zero _)⟩
    | @acquire k min_p _ hk hscan =>
        rw [scan_setScan] at hx
        cases hx
        have hold := h d _ hscan
        exact ⟨hold.passed, hold.least⟩
    | dispatch =>
        rw [State.dispatch, scan_setScan] at hx
        cases hx
    | wait =>
        rw [scan_setScan] at hx
        cases hx
    | look _ hscan => exact (h d _ hscan).look hx

/-! ## The dispatched process -/

theorem CoreSteps.dequeues {s t : Smp.State n} {c : Fin n} {ch : Choice} (h : CoreSteps s c ch t)
    (hold : (s.cpu c).ctl.dequeues = false) (hgo : (s.cpu c).ctl ≠ .run .window ∨ ch ≠ .go) :
    (t.cpu c).ctl.dequeues = false := by
  cases h with
  | same ht => exact Smp.dequeues_step ht hold hgo
  | noBoost _ _ =>
      rw [Smp.setCtl_dequeues]
      exact Smp.back_dequeues _
  | yield _ _ =>
      rw [Smp.State.body, Smp.setCtl_dequeues]
      rfl
  | noEnqueue hctl _ =>
      rw [Smp.setCtl_dequeues]
      rw [hctl] at hold
      exact hold

theorem Steps.dequeues {b : Build} {s t : State n} {c : Fin n} {ch : Choice} (hb : b ≠ .MLFQ)
    (h : Steps b s c ch t) (hold : (s.core.cpu c).ctl.dequeues = false) :
    (t.core.cpu c).ctl.dequeues = false := by
  rcases h.own with ⟨ht, hgo⟩ | hsame | ⟨p, hp⟩
  · exact ht.dequeues hold (hgo.resolve_left hb)
  · rw [hsame]
    exact hold
  · rw [hp]
    rfl

/-- The FIFO and round-robin builds have no loop over the queues. -/
theorem Reachable.dequeues {b : Build} (hb : b ≠ .MLFQ) {s : State n} (hs : Reachable b s) :
    ∀ c, (s.core.cpu c).ctl.dequeues = false := by
  apply hs.invariant
  · rintro _ rfl c
    rfl
  · rintro s ⟨d, ch⟩ t - h - ht c
    have hsteps := steps_of_step ht
    by_cases hc : c = d
    · subst hc
      exact hsteps.dequeues hb (h c)
    · rw [hsteps.others hc]
      exact h c

/-- The scan of `c` is complete and its scheduler is about to dispatch `p`. -/
def Chosen (s : State n) (c : Fin n) (p : Slot) : Prop :=
  ∃ k, ¬k < NPROC ∧ s.scan c = some (.next k (some p))

theorem Chosen.precedes {s : State 1} {c : Fin 1} {p : Slot} (h : Chosen s c p)
    (hs : Reachable .FIFO s) {q : Slot}
    (hq : (s.core.proc q).state = .RUNNABLE) : Precedes s.core p q := by
  obtain ⟨k, hk, hscan⟩ := h
  have hpassed : (Scan.next k (some p)).passed q := lt_of_lt_of_le q.isLt (Nat.not_lt.mp hk)
  obtain ⟨m, hm, hbefore⟩ := (hs.swept c _ hscan).least q hpassed hq
  cases hm
  exact hbefore

/-- Nothing but a complete scan dispatches. -/
theorem chosen_of_dispatched {s t : State n} {a : Action n} {p : Slot} (hs : Reachable .FIFO s)
    (ht : step .FIFO s a = some t) (hold : (s.core.proc p).state = .RUNNABLE)
    (hnew : (t.core.proc p).state = .RUNNING) : Chosen s a.cpu p := by
  have hmark := (refines hs.inv ht).dispatched hold hnew
  rcases mark_cases .FIFO s a with hcore | hsilent | ⟨q, hdispatch, hscan⟩
  · obtain ⟨i, k, hctl⟩ := Smp.ctl_of_mark_dispatch (hcore.symm.trans hmark)
    have hwf := (hs.inv.sound a.cpu).wf
    have hloop := hs.dequeues (by simp) a.cpu
    simp only [Smp.Cpu.Wf, hctl] at hwf
    rw [hctl, hwf.2] at hloop
    cases hloop
  · cases hsilent.symm.trans hmark
  · cases hdispatch.symm.trans hmark
    rcases hscan with ⟨-, hrr, -⟩ | hnext
    · cases hrr
    · exact hnext

/-- `p` was allocated before all other runnable processes. -/
def Earliest (s : State n) (p : Slot) : Prop :=
  (s.core.proc p).state = .RUNNABLE ∧
    ∀ q, (s.core.proc q).state = .RUNNABLE → (s.core.proc p).pid ≤ (s.core.proc q).pid

theorem exists_earliest {s : State n} {p : Slot} (hp : (s.core.proc p).state = .RUNNABLE) :
    ∃ e, Earliest s e := by
  obtain ⟨e, he, hmin⟩ := Finset.exists_min_image
    (Finset.univ.filter fun q => (s.core.proc q).state = .RUNNABLE) (fun q => (s.core.proc q).pid)
    ⟨p, by simpa using hp⟩
  exact ⟨e, by simpa using he, fun q hq => hmin q (by simpa using hq)⟩

/-- On one CPU the FIFO scheduler dispatches the process that was allocated first exactly
if no runnable process of the same tick sits in a lower slot. -/
theorem fifo_dispatches_earliest_iff {s t : State 1} {a : Action 1} {p : Slot}
    (hs : Run.Reach (· = State.boot 1) (step .FIFO) Orderly s) (ht : step .FIFO s a = some t)
    (hready : (s.core.proc p).state = .RUNNABLE) (hrun : (t.core.proc p).state = .RUNNING) :
    Earliest s p ↔ ∀ e, Earliest s e → ∀ q, (s.core.proc q).state = .RUNNABLE →
      (s.core.proc q).creation_time = (s.core.proc e).creation_time → e ≤ q := by
  have hreach : Reachable .FIFO s := hs.any
  have hp := chosen_of_dispatched hreach ht hready hrun
  constructor
  · intro hfirst e he q hq hsame
    have hpe : p = e := by
      apply hreach.table.pid_unique p e
      · change (s.core.proc p).state ≠ _
        simp [hready]
      · exact le_antisymm (hfirst.2 e he.1) (he.2 p hready)
    subst hpe
    rcases hp.precedes hreach hq with hlt | ⟨-, hle⟩
    · omega
    · exact hle
  · intro hties
    obtain ⟨e, he⟩ := exists_earliest hready
    have hle : (s.core.proc e).creation_time ≤ (s.core.proc p).creation_time := by
      apply (ordered_of_orderly hs).order e p
      · change (s.core.proc e).state ≠ _
        simp [he.1]
      · change (s.core.proc p).state ≠ _
        simp [hready]
      · exact he.2 p hready
    rcases hp.precedes hreach he.1 with hlt | ⟨heq, hpe⟩
    · omega
    · have hep := hties e he p hready heq
      rw [le_antisymm hpe hep]
      exact he

/-! ## Slots that are used again -/

/-- `userinit` in slot `p`, and the scheduler before it switches to that process. -/
def firstScan (c : Fin n) (p : Slot) : List (Action n) := ⟨c, .allocproc p⟩ :: goes c 133

/-- Process 1 in slot `p` forks 2 and 3 into slots `q` and `r` and sleeps; 2 wakes it
up and exits; 1 frees slot `q`. -/
def frees (c : Fin n) (p q r : Slot) : List (Action n) :=
  firstScan c p ++ goes c 2 ++ forks c q ++ forks c r ++ ⟨c, .sleep 7⟩ :: goes c 133 ++
    ⟨c, .wakeup p 7⟩ :: goes c 3 ++ ⟨c, .kexit 0⟩ :: goes c 133 ++ ⟨c, .kwait q⟩ :: goes c 2

/-- Then it forks 4 into slot `q`, sleeps again, and the scheduler completes a scan. -/
def reuses (c : Fin n) (p q r : Slot) : List (Action n) :=
  frees c p q r ++ forks c q ++ ⟨c, .sleep 7⟩ :: goes c 131

/-- The same with a timer interrupt before the last fork. -/
def reusesLater (c : Fin n) (p q r : Slot) : List (Action n) :=
  frees c p q r ++ ⟨c, .tick⟩ :: goes c 384 ++ forks c q ++ ⟨c, .sleep 7⟩ :: goes c 131

/-- Process 3 runs before process 4, which a later tick has put into a lower slot. -/
theorem fifo_dispatches_earliest_reused :
    ∃ s t, Run.exec (step .FIFO) (reusesLater 0 0 1 2) (State.boot 1) = some s ∧
      step .FIFO s ⟨0, .go⟩ = some t ∧
      (s.core.proc 1).state = .RUNNABLE ∧ (s.core.proc 1).pid = 4 ∧
      (s.core.proc 2).pid = 3 ∧ (t.core.proc 2).state = .RUNNING ∧ Earliest s 2 := by
  have hrun : (Run.exec (Run.guarded (step .FIFO) Orderly) (reusesLater 0 0 1 2)
      (State.boot 1)).map (fun s => decide (((s.core.proc 1).state = .RUNNABLE ∧
        (s.core.proc 1).pid = 4 ∧ (s.core.proc 2).state = .RUNNABLE ∧ (s.core.proc 2).pid = 3) ∧
        (s.core.proc 2).creation_time < (s.core.proc 1).creation_time ∧
        (∀ q, (s.core.proc q).state = .RUNNABLE → q = 1 ∨ q = 2) ∧
        (step .FIFO s ⟨0, .go⟩).map (fun t => (t.core.proc 2).state) = some .RUNNING)) =
      some true := by decide +kernel
  obtain ⟨s, hs, hobs⟩ := Option.map_eq_some_iff.mp hrun
  obtain ⟨⟨hyounger, hfour, hready, hthree⟩, hcreated, honly, hstep⟩ := of_decide_eq_true hobs
  obtain ⟨t, ht, hrunning⟩ := Option.map_eq_some_iff.mp hstep
  have horderly : Run.Reach (· = State.boot 1) (step .FIFO) Orderly s :=
    Run.Reach.of_guarded _ (.start rfl) hs
  refine ⟨s, t, Run.exec_of_guarded _ hs, ht, hyounger, hfour, hthree, hrunning, ?_⟩
  refine (fifo_dispatches_earliest_iff horderly ht hready hrunning).mpr ?_
  intro e he q hq hsame
  have htwo : e = 2 := by
    rcases honly e he.1 with rfl | rfl
    · have hle := he.2 2 hready
      omega
    · rfl
  subst htwo
  rcases honly q hq with rfl | rfl
  · omega
  · exact le_rfl

/-- Process 4 runs before process 3, which was allocated earlier in the same tick. -/
theorem fifo_dispatches_younger :
    ∃ s t : State 1, Reachable .FIFO s ∧ step .FIFO s ⟨0, .go⟩ = some t ∧
      (s.core.proc 1).state = .RUNNABLE ∧ (t.core.proc 1).state = .RUNNING ∧
      (s.core.proc 1).pid = 4 ∧ ¬Earliest s 1 := by
  have hstart : Reachable .FIFO (State.boot 1) := .start rfl
  have hrun : (Run.exec (step .FIFO) (reuses 0 0 1 2) (State.boot 1)).map (fun s =>
      decide ((s.core.proc 1).state = .RUNNABLE ∧ (s.core.proc 2).state = .RUNNABLE ∧
        (s.core.proc 2).pid = 3 ∧ (s.core.proc 1).pid = 4 ∧
        (step .FIFO s ⟨0, .go⟩).map (fun t => (t.core.proc 1).state) = some .RUNNING)) =
      some true := by decide +kernel
  obtain ⟨s, hs, hobs⟩ := Option.map_eq_some_iff.mp hrun
  obtain ⟨hready, hother, hthree, hfour, hstep⟩ := of_decide_eq_true hobs
  obtain ⟨t, ht, hrunning⟩ := Option.map_eq_some_iff.mp hstep
  refine ⟨s, t, Run.Reach.exec (reuses 0 0 1 2) hstart hs, ht, hready, hrunning, hfour, ?_⟩
  intro hearliest
  have hle := hearliest.2 2 hother
  omega

end Kernel

end ShellXv6.Xv6
