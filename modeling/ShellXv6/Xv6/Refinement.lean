import ShellXv6.Xv6.Lifecycle
import ShellXv6.Xv6.ReadyOnce

/-!
# The kernel refines the life of a process

The states of the kernel are read as tables of lives: a control point tells
which process a CPU runs, which child it is forking and how far `update_time`
has come.  Every step is then a step of the table, or leaves it alone.
-/

namespace ShellXv6.Xv6

open Lifecycle (Life Core Table Mark Step Idles)

/-! ## Reading a state -/

def Proc.life (x : Proc) : Life where
  state := x.state
  killed := x.killed
  pid := x.pid
  creation_time := x.creation_time
  rtime := x.rtime
  iotime := x.iotime
  first_run_time := x.first_run_time

namespace Proc

@[simp] theorem life_setParent (x : Proc) (parent : Option Slot) :
    (x.setParent parent).life = x.life := rfl

@[simp] theorem life_makeRunnable (x : Proc) : x.makeRunnable.life = x.life.enter .RUNNABLE := rfl

@[simp] theorem life_boost (x : Proc) : x.boost.life = x.life := rfl

@[simp] theorem life_yieldTick (x : Proc) : x.yieldTick.life = x.life := rfl

@[simp] theorem life_dispatch (x : Proc) (now : ℕ) :
    (x.dispatch now).life = x.life.dispatch now := rfl

@[simp] theorem life_demote (x : Proc) : x.demote.life = x.life := by
  unfold demote
  split_ifs <;> rfl

@[simp] theorem life_resume (x : Proc) : x.resume.life = x.life := by
  unfold resume
  split_ifs <;> rfl

@[simp] theorem life_updateTime (x : Proc) : x.updateTime.life = x.life.sample := by
  unfold updateTime Life.sample
  change _ = if x.state = _ then _ else if x.state = _ then _ else _
  split_ifs <;> rfl

end Proc

namespace Smp

variable {n : ℕ}

/-- The child that `kfork` holds locked. -/
def Ctl.child : Ctl → Option Slot
  | .crit p .kfork _ => some p
  | .crit p .kforkWake _ => some p
  | _ => none

def Cont.clock : Cont → Option ℕ
  | .updateTime k _ => some k
  | _ => none

/-- The first slot that `update_time` has not sampled yet. -/
def Ctl.clock : Ctl → Option ℕ
  | .run k => k.clock
  | .crit p .updateTime _ => some p.val
  | .release _ k => k.clock
  | _ => none

def Cpu.core (x : Cpu) : Core where
  cur := if x.ctl.leaving then none else x.proc
  child := x.ctl.child
  clock := x.ctl.clock

def State.view (s : State n) : Table n where
  life p := (s.proc p).life
  cpu c := (s.cpu c).core
  forking p := (s.forking p).map Prod.fst
  ticks := s.ticks
  nextpid := s.nextpid

/-- What a step counts as. -/
def mark (s : State n) (a : Action n) : Mark :=
  match (s.cpu a.cpu).ctl, a.choice with
  | .run _, .tick => .tick
  | .crit p .updateTime _, _ => .sample p
  | .crit p .userinit _, .go => if (s.proc p).state = .UNUSED then .alloc p else .silent
  | .crit p .allocproc _, _ => if (s.proc p).state = .UNUSED then .alloc p else .silent
  | .crit p (.schedule _) _, _ => if (s.proc p).state = .RUNNABLE then .dispatch p else .silent
  | .crit p (.kkill pid) _, _ => if (s.proc p).pid = pid then .kill p pid else .silent
  | _, _ => .silent

theorem choice_of_mark_tick {s : State n} {a : Action n} (h : mark s a = .tick) :
    a.choice = .tick := by
  revert h
  fun_cases mark s a <;> intro h <;> first
    | assumption
    | cases h

theorem ctl_of_mark_dispatch {s : State n} {a : Action n} {p : Slot}
    (h : mark s a = .dispatch p) : ∃ i k, (s.cpu a.cpu).ctl = .crit p (.schedule i) k := by
  revert h
  fun_cases mark s a <;> intro h <;> cases h
  exact ⟨_, _, by assumption⟩

theorem ctl_of_mark_kill {s : State n} {a : Action n} {p : Slot} {pid : ℤ}
    (h : mark s a = .kill p pid) : ∃ k, (s.cpu a.cpu).ctl = .crit p (.kkill pid) k := by
  revert h
  fun_cases mark s a <;> intro h <;> cases h
  exact ⟨_, by assumption⟩

/-- `update_time` visits the slots in order, and nothing else happens on its CPU
before it is done. -/
def Ctl.Paced : Ctl → Prop
  | .crit p .updateTime k => k.clock = some (p.val + 1)
  | .crit _ _ k => k.clock = none
  | .enqueue _ k => k.clock = none
  | _ => True

structure Cpu.Sound (x : Cpu) : Prop where
  wf : x.Wf
  paced : x.ctl.Paced
  self : ∀ p k, x.ctl = .crit p .setkilled k → x.proc = some p

/-! ## Views of updated states -/

theorem view_setProc (s : State n) (p : Slot) (x : Proc) :
    (s.setProc p x).view = s.view.setLife p x.life := by
  have hlife : (fun q => (Function.update s.proc p x q).life) =
      Function.update (fun q => (s.proc q).life) p x.life := by
    funext q
    exact Function.apply_update (fun _ => Proc.life) s.proc p x q
  simp only [State.view, State.setProc, Table.setLife, hlife]

theorem view_setCpu (s : State n) (c : Fin n) (x : Cpu) :
    (s.setCpu c x).view = s.view.setCpu c x.core := by
  have hcpu : (fun d => (Function.update s.cpu c x d).core) =
      Function.update (fun d => (s.cpu d).core) c x.core := by
    funext d
    exact Function.apply_update (fun _ => Cpu.core) s.cpu c x d
  simp only [State.view, State.setCpu, Table.setCpu, hcpu]

theorem view_setForking (s : State n) (p : Slot) (f : Option (Slot × Bool)) :
    (s.setForking p f).view = s.view.setForking p (f.map Prod.fst) := by
  have hfork : (fun q => (Function.update s.forking p f q).map Prod.fst) =
      Function.update (fun q => (s.forking q).map Prod.fst) p (f.map Prod.fst) := by
    funext q
    exact Function.apply_update (fun _ => Option.map Prod.fst) s.forking p f q
  simp only [State.view, State.setForking, Table.setForking, hfork]

theorem view_setLock (s : State n) (p : Slot) (h : Option (Fin n)) :
    (s.setLock p h).view = s.view := rfl

theorem view_reparent (s : State n) (me : Slot) : (s.reparent me).view = s.view := by
  have hlife : ∀ p, ((s.reparent me).proc p).life = (s.proc p).life := by
    intro p
    unfold State.reparent
    dsimp only
    split_ifs <;> rfl
  simp only [State.view, funext hlife]
  rfl

theorem setCpu_core (s : State n) {c : Fin n} {x : Core} (h : x = (s.cpu c).core) :
    s.view.setCpu c x = s.view := by
  have hcpu : Function.update s.view.cpu c x = s.view.cpu := by
    rw [h]
    exact Function.update_eq_self c s.view.cpu
  simp only [Table.setCpu, hcpu]

theorem setLife_life (s : State n) {p : Slot} {x : Life} (h : x = (s.proc p).life) :
    s.view.setLife p x = s.view := by
  have hlife : Function.update s.view.life p x = s.view.life := by
    rw [h]
    exact Function.update_eq_self p s.view.life
  simp only [Table.setLife, hlife]

/-- Control points at which a CPU has the same responsibilities. -/
theorem view_setCtl (s : State n) {c : Fin n} {old ctl : Ctl} (hctl : (s.cpu c).ctl = old)
    (hleave : ctl.leaving = old.leaving) (hchild : ctl.child = old.child)
    (hclock : ctl.clock = old.clock) : (s.setCtl c ctl).view = s.view := by
  rw [State.setCtl, view_setCpu]
  apply setCpu_core
  simp only [Cpu.core, hctl, hleave, hchild, hclock]

theorem view_acquire {s t : State n} {c : Fin n} {p : Slot} {sec : Section} {j k : Cont}
    (hctl : (s.cpu c).ctl = .run j) (ht : s.acquire c p sec k = some t)
    (hchild : (Ctl.crit p sec k).child = none) (hclock : (Ctl.crit p sec k).clock = j.clock) :
    t.view = s.view := by
  obtain ⟨_, rfl⟩ := acquire_eq_some_iff.mp ht
  have hview : ((s.setLock p (some c)).setCtl c (.crit p sec k)).view =
      (s.setLock p (some c)).view := view_setCtl _ hctl rfl hchild hclock
  rw [hview, view_setLock]

/-! ## Steps outside critical sections -/

theorem refines_tick {s : State n} {c : Fin n} {k : Cont} (ft : Bool)
    (hctl : (s.cpu c).ctl = .run k) (hk : k.clock = none) :
    Step s.view c .tick
      ({ s with ticks := (s.ticks + 1) % 2 ^ 32 }.setCtl c (.run (.updateTime 0 ft))).view := by
  have hcore : s.view.cpu c = ⟨(s.cpu c).proc, none, none⟩ := by
    simp [State.view, Cpu.core, hctl, Ctl.leaving, Ctl.child, Ctl.clock, hk]
  have htick := Step.tick (v := s.view) (c := c) (by rw [hcore])
  rw [hcore] at htick
  rw [State.setCtl, view_setCpu]
  exact htick

theorem refines_adopt {s t : State n} {c : Fin n} {me np : Slot} {b : Bool}
    (hctl : (s.cpu c).ctl = .run .thread) (hfork : s.forking me = some (np, b))
    (ht : (s.setForking me none).acquire c np .kforkWake .thread = some t) :
    Step s.view c .silent t.view := by
  have hcore : s.view.cpu c = ⟨(s.cpu c).proc, none, none⟩ := by
    simp [State.view, Cpu.core, hctl, Ctl.leaving, Ctl.child, Ctl.clock, Cont.clock]
  have hforking : s.view.forking me = some np := by simp [State.view, hfork]
  have hadopt := Step.adopt (c := c) hforking
  rw [hcore] at hadopt
  obtain ⟨_, rfl⟩ := acquire_eq_some_iff.mp ht
  rw [State.setCtl, view_setCpu, view_setLock, view_setForking]
  exact hadopt

theorem view_kforkParent {s : State n} {me np : Slot} {b : Bool}
    (hfork : s.forking me = some (np, b)) :
    ((s.setProc np ((s.proc np).setParent (some me))).setForking me (some (np, true))).view =
      s.view := by
  rw [view_setForking, view_setProc, Proc.life_setParent, setLife_life s rfl]
  have hself : Function.update s.view.forking me (some np) = s.view.forking := by
    rw [Function.update_eq_self_iff]
    simp [State.view, hfork]
  simp only [Table.setForking, Option.map_some, hself]

theorem refines_sampled {s : State n} {c : Fin n} {k : ℕ} {ft : Bool}
    (hctl : (s.cpu c).ctl = .run (.updateTime k ft)) (hk : NPROC ≤ k) :
    Step s.view c .silent (s.setCtl c (.run (.wakeupTicks 0 ft))).view := by
  have hcore : s.view.cpu c = ⟨(s.cpu c).proc, none, some k⟩ := by
    simp [State.view, Cpu.core, hctl, Ctl.leaving, Ctl.child, Ctl.clock, Cont.clock]
  have hdone := Step.sampled (v := s.view) (c := c) (k := k) (by rw [hcore]) hk
  rw [hcore] at hdone
  rw [State.setCtl, view_setCpu]
  exact hdone

theorem clock_back (ft : Bool) : (back ft).clock = none := by
  cases ft <;> rfl

theorem refines_run {s t : State n} {c : Fin n} {k : Cont} {ch : Choice}
    (hctl : (s.cpu c).ctl = .run k) (ht : runStep s c k ch = some t) :
    Step s.view c (mark s ⟨c, ch⟩) t.view := by
  have silent (h : ch ≠ .tick) : mark s ⟨c, ch⟩ = .silent := by
    cases ch <;> simp [mark, hctl] at h ⊢
  have quiet (h : ch ≠ .tick) (hview : t.view = s.view) :
      Step s.view c (mark s ⟨c, ch⟩) t.view := by
    rw [silent h, hview]
    exact .silent
  have jump {j : Cont} (hclock : j.clock = k.clock) : (s.setCtl c (.run j)).view = s.view :=
    view_setCtl s hctl rfl rfl hclock
  revert ht
  fun_cases runStep s c k ch <;> intro ht
  case case10 hproc hfork =>
    cases ht
    exact quiet (by simp) (view_kforkParent hfork)
  case case12 hproc hfork =>
    rw [silent (by simp)]
    exact refines_adopt hctl hfork ht
  case case17 =>
    apply quiet (by simp)
    rw [view_acquire (s := s.reparent _) hctl ht rfl rfl, view_reparent]
  case case27 | case31 =>
    cases ht
    simp only [mark, hctl]
    exact refines_tick _ hctl rfl
  case case38 hk =>
    cases ht
    rw [silent (by simp)]
    exact refines_sampled hctl (by omega)
  case case35 =>
    cases ht
    exact quiet (by simp) (view_setCtl _ hctl rfl rfl rfl)
  case case42 =>
    cases ht
    exact quiet (by simp) (jump (clock_back _))
  case case44 =>
    cases ht
    exact quiet (by simp) (jump (clock_back _))
  case case45 =>
    cases ht
    exact quiet (by simp) rfl
  all_goals first
    | cases ht; done
    | exact quiet (by simp) (view_acquire hctl ht rfl rfl)
    | exact quiet (by simp) (by cases ht; exact jump rfl)

/-! ## Critical sections -/

theorem view_body (s : State n) (c : Fin n) (p : Slot) (x : Proc) (ctl : Ctl) :
    (s.body c p x ctl).view =
      (s.view.setLife p x.life).setCpu c (Cpu.core { s.cpu c with ctl := ctl }) := by
  rw [State.body, State.setCtl, view_setCpu, view_setProc]
  rfl

/-- A section that changes its slot and nothing that its CPU is responsible for. -/
theorem view_body_stay (s : State n) {c : Fin n} {p : Slot} {x : Proc} {old ctl : Ctl}
    (hctl : (s.cpu c).ctl = old) (hleave : ctl.leaving = old.leaving)
    (hchild : ctl.child = old.child) (hclock : ctl.clock = old.clock) :
    (s.body c p x ctl).view = s.view.setLife p x.life := by
  have hcore : Cpu.core { s.cpu c with ctl := ctl } = (s.cpu c).core := by
    simp only [Cpu.core, hctl, hleave, hchild, hclock]
  have hself : Function.update s.view.cpu c (s.cpu c).core = s.view.cpu :=
    Function.update_eq_self c s.view.cpu
  rw [view_body, hcore]
  simp only [Table.setCpu, Table.setLife, hself]

/-- The sections in which the current process gives up its CPU. -/
theorem refines_leave {s : State n} {c : Fin n} {p : Slot} {sec : Section} {k : Cont} {x : Proc}
    {ctl : Ctl} {state : ProcState} (hctl : (s.cpu c).ctl = .crit p sec k)
    (hme : (s.cpu c).proc = some p) (hsec : (Ctl.crit p sec k).child = none)
    (hclock : (Ctl.crit p sec k).clock = none) (hleave : ctl.leaving = true)
    (hchild' : ctl.child = none) (hclock' : ctl.clock = none)
    (hx : x.life = (s.proc p).life.enter state) (hidle : Idles state) :
    Step s.view c .silent (s.body c p x ctl).view := by
  have hcore : s.view.cpu c = ⟨some p, none, none⟩ := by
    simp [State.view, Cpu.core, hctl, hme, Ctl.leaving, hsec, hclock]
  have hstep := Step.leave (v := s.view) (c := c) (by rw [hcore]) hidle
  rw [hcore] at hstep
  rw [view_body, hx]
  have hnew : Cpu.core { s.cpu c with ctl := ctl } = ⟨none, none, none⟩ := by
    simp [Cpu.core, hleave, hchild', hclock']
  rw [hnew]
  exact hstep

theorem refines_child {s : State n} {c : Fin n} {p : Slot} {sec : Section} {k : Cont} {x : Proc}
    {ctl : Ctl} (hctl : (s.cpu c).ctl = .crit p sec k) (hsec : (Ctl.crit p sec k).child = some p)
    (hclock : (Ctl.crit p sec k).clock = none) (hleave : ctl.leaving = false)
    (hchild' : ctl.child = none) (hclock' : ctl.clock = none)
    (hx : x.life = (s.proc p).life.free ∨ x.life = (s.proc p).life.enter .RUNNABLE) :
    Step s.view c .silent (s.body c p x ctl).view := by
  have hcore : s.view.cpu c = ⟨(s.cpu c).proc, some p, none⟩ := by
    simp [State.view, Cpu.core, hctl, Ctl.leaving, hsec, hclock]
  have hnew : Cpu.core { s.cpu c with ctl := ctl } = ⟨(s.cpu c).proc, none, none⟩ := by
    simp [Cpu.core, hleave, hchild', hclock']
  rw [view_body, hnew]
  rcases hx with hx | hx
  · have hstep := Step.forkFails (v := s.view) (c := c) (by rw [hcore])
    rw [hcore] at hstep
    rw [hx]
    exact hstep
  · have hstep := Step.wakeChild (v := s.view) (c := c) (by rw [hcore])
    rw [hcore] at hstep
    rw [hx]
    exact hstep

theorem refines_fork {s : State n} {c : Fin n} {p me : Slot} {k : Cont}
    (hctl : (s.cpu c).ctl = .crit p .kfork k) (hk : k.clock = none) :
    Step s.view c .silent ((s.setForking me (some (p, false))).setCtl c (.release p k)).view := by
  have hcore : s.view.cpu c = ⟨(s.cpu c).proc, some p, none⟩ := by
    simp [State.view, Cpu.core, hctl, Ctl.leaving, Ctl.child, Ctl.clock]
  have hnew : Cpu.core { (s.setForking me (some (p, false))).cpu c with ctl := .release p k } =
      ⟨(s.cpu c).proc, none, none⟩ := by
    simp [Cpu.core, State.setForking, Ctl.leaving, Ctl.child, Ctl.clock, hk]
  have hstep : Step s.view c .silent
      ((s.view.setCpu c { s.view.cpu c with child := none }).setForking me (some p)) :=
    .fork (by rw [hcore])
  rw [hcore] at hstep
  rw [State.setCtl, view_setCpu, view_setForking, hnew]
  exact hstep

theorem refines_alloc {s : State n} {c : Fin n} {p : Slot} {k : Cont} {context : Context}
    (hctl : (s.cpu c).ctl = .crit p .allocproc k)
    (hfree : (s.proc p).state = .UNUSED) :
    Step s.view c (.alloc p) ({ s with nextpid := s.nextpid + 1 }.body c p
      (((s.proc p).allocproc s.ticks s.nextpid).setContext context) (.crit p .kfork k)).view := by
  have hcore : s.view.cpu c = ⟨(s.cpu c).proc, none, none⟩ := by
    simp [State.view, Cpu.core, hctl, Ctl.leaving, Ctl.child, Ctl.clock]
  have hstep := Step.alloc (v := s.view) (c := c) (by rw [hcore]) hfree
  rw [hcore] at hstep
  rw [view_body]
  exact hstep

theorem refines_sample {s : State n} {c : Fin n} {p : Slot} {k : Cont}
    (hctl : (s.cpu c).ctl = .crit p .updateTime k) (hk : k.clock = some (p.val + 1)) :
    Step s.view c (.sample p) (s.body c p (s.proc p).updateTime (.release p k)).view := by
  have hcore : s.view.cpu c = ⟨(s.cpu c).proc, none, some p.val⟩ := by
    simp [State.view, Cpu.core, hctl, Ctl.leaving, Ctl.child, Ctl.clock]
  have hnew : Cpu.core { s.cpu c with ctl := .release p k } =
      ⟨(s.cpu c).proc, none, some (p.val + 1)⟩ := by
    simp [Cpu.core, Ctl.leaving, Ctl.child, Ctl.clock, hk]
  have hstep := Step.sample (v := s.view) (c := c) (p := p) (by rw [hcore])
  rw [hcore] at hstep
  rw [view_body, hnew, Proc.life_updateTime]
  exact hstep

theorem refines_dispatch {s : State n} {c : Fin n} {p : Slot}
    (hleave : (s.cpu c).ctl.leaving = false) (hproc : (s.cpu c).proc = none)
    (hchild : (s.cpu c).ctl.child = none) (hclock : (s.cpu c).ctl.clock = none)
    (hready : (s.proc p).state = .RUNNABLE) :
    Step s.view c (.dispatch p)
      ((s.setProc p ((s.proc p).dispatch s.ticks)).setCpu c ⟨some p, .resume p⟩).view := by
  have hcore : s.view.cpu c = ⟨none, none, none⟩ := by
    simp [State.view, Cpu.core, hleave, hproc, hchild, hclock]
  have hstep := Step.dispatch (v := s.view) (c := c) (p := p) (by rw [hcore]) hready
  rw [hcore] at hstep
  rw [view_setCpu, view_setProc, Proc.life_dispatch]
  exact hstep

theorem refines_crit {s t : State n} {c : Fin n} {p : Slot} {sec : Section} {k : Cont} {ch : Choice}
    (hsound : (s.cpu c).Sound)
    (hctl : (s.cpu c).ctl = .crit p sec k) (ht : critStep s c p k sec ch = some t) :
    Step s.view c (mark s ⟨c, ch⟩) t.view := by
  have hpaced := hsound.paced
  rw [hctl] at hpaced
  have stay {x : Proc} {ctl : Ctl} {e : Mark} (hleave : ctl.leaving = false)
      (hchild : ctl.child = (Ctl.crit p sec k).child)
      (hclock : ctl.clock = (Ctl.crit p sec k).clock)
      (hstep : Step s.view c e (s.view.setLife p x.life)) :
      Step s.view c e (s.body c p x ctl).view := by
    exact hstep.of_eq (view_body_stay s hctl hleave hchild hclock)
  have quiet {ctl : Ctl} (hleave : ctl.leaving = false)
      (hchild : ctl.child = (Ctl.crit p sec k).child)
      (hclock : ctl.clock = (Ctl.crit p sec k).clock) :
      Step s.view c .silent (s.setCtl c ctl).view := by
    exact Step.silent.of_eq (view_setCtl s hctl hleave hchild hclock)
  have own (hsec : sec.own = true) : (s.cpu c).proc = some p := by
    have hwf := hsound.wf
    cases sec <;> simp_all [Cpu.Wf, Section.own]
  revert ht
  fun_cases critStep s c p k sec ch <;> intro ht
  all_goals simp only [reduceCtorEq, Option.some.injEq] at ht
  all_goals try subst ht
  case case1 hfree x =>
    have hcore : s.view.cpu c = ⟨(s.cpu c).proc, none, none⟩ := by
      simp [State.view, Cpu.core, hctl, Ctl.leaving, Ctl.child, Ctl.clock]
    simp only [mark, hctl, hfree, if_true]
    refine Step.of_eq (.userinit ?_ hfree) (view_body_stay _ hctl rfl rfl rfl)
    rw [hcore]
  case case3 =>
    simp only [mark, hctl]
    exact .silent
  case case5 hfree x =>
    simp only [mark, hctl, hfree, if_true]
    exact refines_alloc hctl hfree
  case case7 hfree x =>
    simp only [mark, hctl, hfree, if_true]
    exact Step.of_eq (.allocFails hfree) (view_body_stay _ hctl rfl rfl hpaced)
  case case9 =>
    simp only [mark, hctl]
    exact refines_fork hctl hpaced
  case case11 =>
    simp only [mark, hctl]
    exact refines_child hctl rfl rfl rfl rfl hpaced (.inl rfl)
  case case12 =>
    simp only [mark, hctl]
    exact refines_child hctl rfl rfl rfl rfl rfl (.inr rfl)
  case case13 =>
    simp only [mark, hctl]
    refine stay rfl rfl rfl ?_
    rw [Proc.life_yieldTick, setLife_life s rfl]
    exact .silent
  case case15 =>
    simp only [mark, hctl]
    exact refines_leave hctl (own rfl) rfl rfl rfl rfl rfl (by simp) (.inr (.inl rfl))
  case case17 =>
    simp only [mark, hctl]
    exact refines_leave hctl (own rfl) rfl rfl rfl rfl rfl rfl (.inl rfl)
  case case18 =>
    simp only [mark, hctl]
    exact refines_leave hctl (own rfl) rfl rfl rfl rfl rfl rfl (.inr (.inr rfl))
  case case19 chan hsleeps =>
    simp only [mark, hctl]
    exact stay rfl rfl rfl (.wake (of_decide_eq_true (Bool.and_eq_true_iff.mp hsleeps).1))
  case case21 hsleeps =>
    simp only [mark, hctl, if_true]
    exact stay rfl rfl rfl (.killWake rfl hsleeps)
  case case22 hstate =>
    simp only [mark, hctl, if_true]
    exact stay rfl rfl hpaced (.kill rfl hstate)
  case case24 =>
    simp only [mark, hctl]
    refine stay rfl rfl hpaced (.setkilled ?_)
    simp [State.view, Cpu.core, hctl, Ctl.leaving, hsound.self p k hctl]
  case case26 hexited =>
    simp only [mark, hctl]
    exact stay rfl rfl hpaced (.free hexited)
  case case29 =>
    simp only [mark, hctl]
    exact refines_sample hctl hpaced
  case case30 =>
    simp only [mark, hctl]
    refine stay rfl rfl hpaced ?_
    rw [Proc.life_boost, setLife_life s rfl]
    exact .silent
  case case31 hready =>
    have hwf := hsound.wf
    simp only [Cpu.Wf, hctl] at hwf
    simp only [mark, hctl, hready, if_true]
    apply refines_dispatch _ hwf.1 _ _ hready <;> rw [hctl] <;> rfl
  case case14 =>
    simp only [mark, hctl]
    exact quiet rfl rfl rfl
  case case2 hno | case6 hno | case23 hno | case32 hno =>
    simp only [mark, hctl, hno, if_false]
    exact quiet rfl rfl hpaced
  all_goals
    simp only [mark, hctl]
    exact quiet rfl rfl hpaced

theorem refines_step {s t : State n} {a : Action n} (hsound : (s.cpu a.cpu).Sound)
    (ht : step s a = some t) : Step s.view a.cpu (mark s a) t.view := by
  obtain ⟨c, ch⟩ := a
  cases (steps_of_step ht).2 with
  | run hctl ht => exact refines_run hctl ht
  | crit hctl ht => exact refines_crit hsound hctl ht
  | @found i p hctl hlock =>
      simp only [mark, hctl]
      exact Step.silent.of_eq (view_setCtl (s.setLock p (some c)) hctl rfl rfl rfl)
  | enqueue hctl hm =>
      have hpaced := hsound.paced
      rw [hctl] at hpaced
      simp only [mark, hctl]
      exact Step.silent.of_eq (view_setCtl _ hctl rfl rfl hpaced)
  | @enqueueYield p m hctl hm =>
      have hself := setLife_life s (x := ((s.proc p).setContext .yield).life) rfl
      simp only [mark, hctl]
      exact (Step.silent.of_eq hself).of_eq (view_body_stay _ hctl rfl rfl rfl)
  | enqueueFails hctl hm =>
      rcases hctl with ⟨k, hctl⟩ | hctl
      all_goals
        simp only [mark, hctl]
        exact .silent
  | @release p k hctl =>
      simp only [mark, hctl]
      exact Step.silent.of_eq (view_setCtl (s.setLock p none) hctl rfl rfl rfl)
  | @swtch p hctl =>
      simp only [mark, hctl]
      refine Step.silent.of_eq ?_
      rw [view_setCpu, view_setLock]
      apply setCpu_core
      simp [Cpu.core, hctl, Ctl.leaving, Ctl.child, Ctl.clock, Cont.clock]
  | @resume p hctl =>
      simp only [mark, hctl]
      have hself : ((s.setProc p (s.proc p).resume).setLock p none).view = s.view := by
        rw [view_setLock, view_setProc, Proc.life_resume, setLife_life s rfl]
      exact (Step.silent.of_eq hself).of_eq (view_setCtl _ hctl rfl rfl rfl)

end Smp

end ShellXv6.Xv6
