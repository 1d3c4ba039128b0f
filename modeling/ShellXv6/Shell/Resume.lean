import ShellXv6.Lib.Run
import ShellXv6.Shell.Jobs

/-!
# `resume … fg` and the handler

The foreground branch of `execute_resume` goes through the processes of its job:
it tests the field `alive`, overwrites it with 1, and waits for the process.
`SIGCHLD` is not blocked, so `sigchld_handler` may consume a status at any point
in between.

The system keeps for each process whether it runs, and the last change of state
that no wait has reported yet.
-/

namespace ShellXv6.Shell.Resume

open Jobs

inductive RunState
  | running
  | stopped
  | dead
  deriving DecidableEq

structure Proc where
  run : RunState
  event : Option WaitStatus
  deriving DecidableEq

/-- The parent knows that the process is dead. -/
def Proc.Reaped (x : Proc) : Prop := x.run = .dead ∧ x.event = none

instance (x : Proc) : Decidable x.Reaped := inferInstanceAs (Decidable (_ ∧ _))

/-- The next step of the foreground branch. -/
inductive Pc
  | kill
  | test (i : ℕ)
  | mark (i : ℕ)
  | wait (i : ℕ)
  | done
  deriving DecidableEq

structure State where
  jobs : List Job
  os : Pid → Proc
  /-- The last status consumed for a process. -/
  last : Pid → Alive
  pc : Pc

inductive Event
  | kill
  | test
  | mark
  | waitpid
  /-- One round of the loop of `sigchld_handler`. -/
  | handler (p : Pid)
  | stop (p : Pid)
  | cont (p : Pid)
  | exit (p : Pid) (signaled : Bool)

def setProc (s : State) (p : Pid) (x : Proc) : State := { s with os := Function.update s.os p x }

/-- A wait returns the pending status of a process and the caller goes on. -/
def consume (s : State) (p : Pid) (status : WaitStatus) (jobs : List Job) (pc : Pc) : State :=
  ⟨jobs, Function.update s.os p ⟨(s.os p).run, none⟩, Function.update s.last p status.alive, pc⟩

/-- The process group of job `k`. -/
def group (jobs : List Job) (k : ℕ) : List Pid :=
  match jobs[k]? with
  | some job => job.procs.map JobProc.pid
  | none => []

/-- The steps of `execute_resume` for the job with index `k`, of the handler and
of the processes. -/
def step (k : ℕ) (s : State) : Event → Option State
  | .kill =>
      if s.pc = .kill then
        some { s with
          os := fun p =>
            if p ∈ group s.jobs k ∧ (s.os p).run = .stopped then ⟨.running, some .continued⟩
            else s.os p
          pc := .test 0 }
      else none
  | .test =>
      match s.pc with
      | .test i =>
          match entryAt s.jobs (k, i) with
          | none => some { s with pc := .done }
          | some x => some { s with pc := if x.alive = .exited then .test (i + 1) else .mark i }
      | _ => none
  | .mark =>
      match s.pc with
      | .mark i => some { s with jobs := setAlive s.jobs (k, i) .running, pc := .wait i }
      | _ => none
  | .waitpid =>
      match s.pc with
      | .wait i =>
          (entryAt s.jobs (k, i)).bind fun x =>
            match (s.os x.pid).event with
            | none =>
                -- There is no such child any more, or the call blocks.
                if (s.os x.pid).run = .dead then some { s with pc := .test (i + 1) } else none
            | some .continued => none
            | some status =>
                some (consume s x.pid status (setAlive s.jobs (k, i) status.alive) (.test (i + 1)))
      | _ => none
  | .handler p =>
      (s.os p).event.map fun status =>
        consume s p status (sigchldHandler s.jobs p status).1 s.pc
  | .stop p =>
      if (s.os p).run = .running then some (setProc s p ⟨.stopped, some .stopped⟩) else none
  | .cont p =>
      if (s.os p).run = .stopped then some (setProc s p ⟨.running, some .continued⟩) else none
  | .exit p signaled =>
      if (s.os p).run = .dead then none
      else some (setProc s p ⟨.dead, some (if signaled then .signaled else .exited)⟩)

/-- The pending status fits the state of the process. -/
def Proc.Consistent (x : Proc) : Prop :=
  ∀ status, x.event = some status →
    match status with
    | .exited => x.run = .dead
    | .signaled => x.run = .dead
    | .stopped => x.run = .stopped
    | .continued => x.run = .running

/-- The table is truthful when the command starts, and no two entries share a pid. -/
structure Init (s : State) : Prop where
  pc : s.pc = .kill
  unique : UniquePids s.jobs
  agree : ∀ a x, entryAt s.jobs a = some x → x.alive = s.last x.pid
  consistent : ∀ p, (s.os p).Consistent
  reaped : ∀ p, (s.os p).Reaped → s.last p = .exited

/-- The loop has still to wait for process `i`. -/
def Pc.Ahead : Pc → ℕ → Prop
  | .test j, i => j ≤ i
  | .mark j, i => j ≤ i
  | .wait j, i => j ≤ i
  | .kill, _ => False
  | .done, _ => False

instance : (pc : Pc) → (i : ℕ) → Decidable (pc.Ahead i)
  | .test j, i | .mark j, i | .wait j, i => inferInstanceAs (Decidable (j ≤ i))
  | .kill, _ | .done, _ => isFalse id

/-- The handler takes no stop of a process that the loop has still to wait for,
and no exit of a process between its test and its mark. -/
def Undisturbed (k : ℕ) (s : State) : Event → Prop
  | .handler p => ∀ i x, entryAt s.jobs (k, i) = some x → x.pid = p →
      (s.pc.Ahead i → (s.os p).event ≠ some .stopped) ∧
        (s.pc = .mark i → (s.os p).event ≠ some .exited ∧ (s.os p).event ≠ some .signaled)
  | _ => True

theorem mem_group {jobs : List Job} {k i : ℕ} {x : JobProc} (h : entryAt jobs (k, i) = some x) :
    x.pid ∈ group jobs k := by
  obtain ⟨job, hjob, hx⟩ := Option.bind_eq_some_iff.mp h
  rw [group, hjob]
  exact List.mem_map_of_mem (List.mem_of_getElem? hx)

/-- The entries of a job are as many as its group has processes. -/
theorem forall_entry_iff {jobs : List Job} {k : ℕ} {P : ℕ → JobProc → Prop} :
    (∀ i < (group jobs k).length, ∀ x ∈ entryAt jobs (k, i), P i x) ↔
      ∀ i x, entryAt jobs (k, i) = some x → P i x := by
  refine ⟨fun h i x hx => h i ?_ x hx, fun h i _ x hx => h i x hx⟩
  obtain ⟨job, hjob, hproc⟩ := Option.bind_eq_some_iff.mp hx
  obtain ⟨hlt, -⟩ := List.getElem?_eq_some_iff.mp hproc
  rwa [group, hjob, List.length_map]

instance (k : ℕ) (s : State) : DecidablePred (Undisturbed k s)
  | .handler _ => decidable_of_iff _ forall_entry_iff
  | .kill | .test | .mark | .waitpid | .stop _ | .cont _ | .exit _ _ => isTrue trivial

/-! ## The invariant -/

structure Inv (k : ℕ) (s : State) : Prop where
  unique : UniquePids s.jobs
  agree : ∀ a x, entryAt s.jobs a = some x → (∀ i, s.pc = .wait i → a ≠ (k, i)) →
    x.alive = s.last x.pid
  consistent : ∀ p, (s.os p).Consistent
  reaped : ∀ p, (s.os p).Reaped → s.last p = .exited
  marking : ∀ i x, s.pc = .mark i → entryAt s.jobs (k, i) = some x → ¬(s.os x.pid).Reaped
  waiting : ∀ i x, s.pc = .wait i → entryAt s.jobs (k, i) = some x → (s.os x.pid).Reaped →
    x.alive = .exited
  stops : ∀ i x, s.pc.Ahead i → entryAt s.jobs (k, i) = some x → (s.os x.pid).run = .stopped →
    (s.os x.pid).event = some .stopped

theorem inv_init {k : ℕ} {s : State} (h : Init s) : Inv k s := by
  refine ⟨h.unique, fun a x hx _ => h.agree a x hx, h.consistent, h.reaped, ?_, ?_, ?_⟩
  · intro i x hpc
    rw [h.pc] at hpc
    cases hpc
  · intro i x hpc
    rw [h.pc] at hpc
    cases hpc
  · intro i x hpc
    rw [h.pc] at hpc
    cases hpc

/-- A consumed status leaves a dead process reaped and no other one. -/
theorem alive_of_dead {x : Proc} (hx : x.Consistent) {status : WaitStatus}
    (hevent : x.event = some status) (hdead : x.run = .dead) : status.alive = .exited := by
  have := hx status hevent
  cases status <;> simp_all [WaitStatus.alive]

theorem eq_stopped_of_stopped {x : Proc} (hx : x.Consistent) {status : WaitStatus}
    (hevent : x.event = some status) (hstopped : x.run = .stopped) : status = .stopped := by
  have := hx status hevent
  cases status <;> simp_all

theorem consistent_of_none {x : Proc} (h : x.event = none) : x.Consistent := by
  intro status hstatus
  rw [h] at hstatus
  cases hstatus

section

variable {k : ℕ} {s : State}

/-! ## The processes move -/

theorem Inv.setProc (h : Inv k s) (p : Pid) {x : Proc} (hx : x.Consistent) (hlive : ¬x.Reaped)
    (hstop : x.run = .stopped → x.event = some .stopped) : Inv k (setProc s p x) := by
  have hos : ∀ q, (Resume.setProc s p x).os q = if q = p then x else s.os q := fun q =>
    Function.update_apply s.os p x q
  refine ⟨h.unique, h.agree, ?_, ?_, ?_, ?_, ?_⟩
  · intro q
    rw [hos]
    split_ifs
    · exact hx
    · exact h.consistent q
  · intro q hq
    rw [hos] at hq
    split_ifs at hq
    · exact absurd hq hlive
    · exact h.reaped q hq
  · intro i y hpc hy
    rw [hos]
    split_ifs
    · exact hlive
    · exact h.marking i y hpc hy
  · intro i y hpc hy hreap
    rw [hos] at hreap
    split_ifs at hreap
    · exact absurd hreap hlive
    · exact h.waiting i y hpc hy hreap
  · intro i y hpc hy hrun
    rw [hos] at hrun ⊢
    split_ifs at hrun ⊢
    · exact hstop hrun
    · exact h.stops i y hpc hy hrun

/-! ## A status is consumed -/

theorem consume_os_self (p : Pid) (status : WaitStatus) (jobs : List Job) (pc : Pc) :
    (consume s p status jobs pc).os p = ⟨(s.os p).run, none⟩ :=
  Function.update_self _ _ _

theorem consume_os_of_ne {p q : Pid} (h : q ≠ p) (status : WaitStatus) (jobs : List Job) (pc : Pc) :
    (consume s p status jobs pc).os q = s.os q :=
  Function.update_of_ne h _ _

theorem consume_last_self (p : Pid) (status : WaitStatus) (jobs : List Job) (pc : Pc) :
    (consume s p status jobs pc).last p = status.alive :=
  Function.update_self _ _ _

theorem consume_last_of_ne {p q : Pid} (h : q ≠ p) (status : WaitStatus) (jobs : List Job)
    (pc : Pc) : (consume s p status jobs pc).last q = s.last q :=
  Function.update_of_ne h _ _

theorem consume_reaped {p q : Pid} {status : WaitStatus} {jobs : List Job} {pc : Pc} (h : Inv k s)
    (hevent : (s.os p).event = some status) (hq : ((consume s p status jobs pc).os q).Reaped) :
    (consume s p status jobs pc).last q = .exited := by
  by_cases hpq : q = p
  · subst hpq
    rw [consume_os_self] at hq
    rw [consume_last_self]
    exact alive_of_dead (h.consistent q) hevent hq.1
  · rw [consume_os_of_ne hpq] at hq
    rw [consume_last_of_ne hpq]
    exact h.reaped q hq

theorem consume_consistent (h : Inv k s) (p : Pid) (status : WaitStatus) (jobs : List Job) (pc : Pc)
    (q : Pid) : ((consume s p status jobs pc).os q).Consistent := by
  by_cases hpq : q = p
  · subst hpq
    rw [consume_os_self]
    exact consistent_of_none rfl
  · rw [consume_os_of_ne hpq]
    exact h.consistent q

theorem inv_handler {t : State} {p : Pid} (h : Inv k s) (hok : Undisturbed k s (.handler p))
    (ht : step k s (.handler p) = some t) : Inv k t := by
  obtain ⟨status, hevent, rfl⟩ := Option.map_eq_some_iff.mp ht
  refine ⟨?_, ?_, consume_consistent h p status _ _, fun q => consume_reaped h hevent, ?_, ?_, ?_⟩
  · exact h.unique.of_pid fun a y hy =>
      let ⟨x, hx, hpid, _⟩ := h.unique.of_handler hy
      ⟨x, hx, hpid⟩
  · intro a y hy hpc
    obtain ⟨x, hx, hpid, ⟨rfl, halive⟩ | ⟨hp, rfl⟩⟩ := h.unique.of_handler hy
    · rw [halive, hpid, consume_last_self]
    · rw [consume_last_of_ne hp]
      exact h.agree a y hx hpc
  · intro i y hpc hy hreap
    obtain ⟨x, hx, hpid, -⟩ := h.unique.of_handler hy
    rw [hpid] at hreap
    by_cases hp : x.pid = p
    · subst hp
      obtain ⟨hne, hne'⟩ := (hok i x hx rfl).2 hpc
      rw [consume_os_self] at hreap
      have hexit := alive_of_dead (h.consistent x.pid) hevent hreap.1
      cases status with
      | exited => exact hne hevent
      | signaled => exact hne' hevent
      | stopped => cases hexit
      | continued => cases hexit
    · rw [consume_os_of_ne hp] at hreap
      exact h.marking i x hpc hx hreap
  · intro i y hpc hy hreap
    obtain ⟨x, hx, hpid, ⟨rfl, halive⟩ | ⟨hp, rfl⟩⟩ := h.unique.of_handler hy
    · rw [hpid, consume_os_self] at hreap
      rw [halive]
      exact alive_of_dead (h.consistent x.pid) hevent hreap.1
    · rw [consume_os_of_ne hp] at hreap
      exact h.waiting i y hpc hx hreap
  · intro i y hpc hy hrun
    obtain ⟨x, hx, hpid, -⟩ := h.unique.of_handler hy
    rw [hpid] at hrun ⊢
    by_cases hp : x.pid = p
    · subst hp
      rw [consume_os_self] at hrun
      rw [eq_stopped_of_stopped (h.consistent x.pid) hevent hrun] at hevent
      exact absurd hevent ((hok i x hx rfl).1 hpc)
    · rw [consume_os_of_ne hp] at hrun ⊢
      exact h.stops i x hpc hx hrun

/-! ## The loop -/

theorem inv_kill {t : State} (h : Inv k s) (ht : step k s .kill = some t) : Inv k t := by
  simp only [step] at ht
  split_ifs at ht with hpc
  obtain rfl := Option.some.inj ht
  refine ⟨h.unique, ?_, ?_, ?_, nofun, nofun, ?_⟩
  · intro a x hx _
    refine h.agree a x hx fun i hwait => ?_
    rw [hpc] at hwait
    cases hwait
  · intro p
    simp only
    split_ifs
    · intro status hstatus
      obtain rfl := Option.some.inj hstatus
      rfl
    · exact h.consistent p
  · intro p hp
    simp only at hp
    split_ifs at hp
    · cases hp.1
    · exact h.reaped p hp
  · intro i x _ hx hrun
    simp only [mem_group hx, true_and] at hrun ⊢
    split_ifs at hrun with hstopped
    exact absurd hrun hstopped

theorem inv_test {t : State} (h : Inv k s) (ht : step k s .test = some t) : Inv k t := by
  simp only [step] at ht
  cases hpc : s.pc with
  | test i =>
      rw [hpc] at ht
      have hagree : ∀ a x, entryAt s.jobs a = some x → x.alive = s.last x.pid := fun a x hx =>
        h.agree a x hx fun j hj => by rw [hpc] at hj; cases hj
      have hstops : ∀ j x, i ≤ j → entryAt s.jobs (k, j) = some x → (s.os x.pid).run = .stopped →
          (s.os x.pid).event = some .stopped := fun j x hij =>
        h.stops j x (by rw [hpc]; exact hij)
      cases hx : entryAt s.jobs (k, i) with
      | none =>
          simp only [hx] at ht
          obtain rfl := Option.some.inj ht
          exact ⟨h.unique, fun a x hx _ => hagree a x hx, h.consistent, h.reaped, nofun, nofun,
            nofun⟩
      | some x =>
          simp only [hx] at ht
          by_cases hexit : x.alive = .exited
          · simp only [hexit, if_true] at ht
            obtain rfl := Option.some.inj ht
            exact ⟨h.unique, fun a x hx _ => hagree a x hx, h.consistent, h.reaped, nofun, nofun,
              fun j x hij => hstops j x (Nat.le_of_succ_le hij)⟩
          · simp only [hexit, if_false] at ht
            obtain rfl := Option.some.inj ht
            refine ⟨h.unique, fun a x hx _ => hagree a x hx, h.consistent, h.reaped, ?_, nofun,
              hstops⟩
            intro j y hj hy hreap
            cases hj
            obtain rfl := Option.some.inj (hx.symm.trans hy)
            exact hexit ((hagree _ x hx).trans (h.reaped x.pid hreap))
  | _ =>
      rw [hpc] at ht
      cases ht

theorem inv_mark {t : State} (h : Inv k s) (ht : step k s .mark = some t) : Inv k t := by
  simp only [step] at ht
  cases hpc : s.pc with
  | mark i =>
      rw [hpc] at ht
      obtain rfl := Option.some.inj ht
      refine ⟨?_, ?_, h.consistent, h.reaped, nofun, ?_, ?_⟩
      · exact h.unique.of_pid fun a y hy =>
          let ⟨x, hx, hpid, _⟩ := of_entryAt_setAlive hy
          ⟨x, hx, hpid⟩
      · intro a y hy hne
        obtain ⟨x, hx, -, ⟨ha, -⟩ | ⟨-, rfl⟩⟩ := of_entryAt_setAlive hy
        · exact absurd ha (hne i rfl)
        · exact h.agree a y hx fun j hj => by rw [hpc] at hj; cases hj
      · intro j y hj hy hreap
        cases hj
        obtain ⟨x, hx, hpid, -⟩ := of_entryAt_setAlive hy
        exact absurd (hpid ▸ hreap) (h.marking i x hpc hx)
      · intro j y hij hy hrun
        obtain ⟨x, hx, hpid, -⟩ := of_entryAt_setAlive hy
        rw [hpid] at hrun ⊢
        exact h.stops j x (by rw [hpc]; exact hij) hx hrun
  | _ =>
      rw [hpc] at ht
      cases ht

theorem inv_waited (h : Inv k s) {i : ℕ} (hpc : s.pc = .wait i) {x : JobProc}
    (hx : entryAt s.jobs (k, i) = some x) {status : WaitStatus}
    (hevent : (s.os x.pid).event = some status) :
    Inv k (consume s x.pid status (setAlive s.jobs (k, i) status.alive) (.test (i + 1))) := by
  have hne : ∀ {a y}, entryAt s.jobs a = some y → a ≠ (k, i) → y.pid ≠ x.pid := by
    intro a y hy ha hpid
    exact ha (h.unique a (k, i) y x hy hx hpid)
  refine ⟨?_, ?_, consume_consistent h _ _ _ _, fun q => consume_reaped h hevent, nofun, nofun, ?_⟩
  · exact h.unique.of_pid fun a y hy =>
      let ⟨x, hx, hpid, _⟩ := of_entryAt_setAlive hy
      ⟨x, hx, hpid⟩
  · intro a y hy _
    obtain ⟨z, hz, hpid, ⟨rfl, halive⟩ | ⟨ha, rfl⟩⟩ := of_entryAt_setAlive hy
    · obtain rfl := Option.some.inj (hx.symm.trans hz)
      rw [halive, hpid, consume_last_self]
    · rw [consume_last_of_ne (hne hz ha)]
      refine h.agree a y hz fun j hj => ?_
      rw [hpc] at hj
      cases hj
      exact ha
  · intro j y hij hy hrun
    obtain ⟨z, hz, hpid, -⟩ := of_entryAt_setAlive hy
    have hj : (k, j) ≠ (k, i) := by
      rintro heq
      cases heq
      exact absurd hij (Nat.not_succ_le_self i)
    rw [hpid, consume_os_of_ne (hne hz hj)] at hrun ⊢
    exact h.stops j z (by rw [hpc]; exact Nat.le_of_succ_le hij) hz hrun

theorem inv_waitpid {t : State} (h : Inv k s) (ht : step k s .waitpid = some t) : Inv k t := by
  simp only [step] at ht
  cases hpc : s.pc with
  | wait i =>
      simp only [hpc] at ht
      obtain ⟨x, hx, ht⟩ := Option.bind_eq_some_iff.mp ht
      cases hevent : (s.os x.pid).event with
      | none =>
          simp only [hevent] at ht
          split_ifs at ht with hdead
          obtain rfl := Option.some.inj ht
          have hreap : (s.os x.pid).Reaped := ⟨hdead, hevent⟩
          refine ⟨h.unique, ?_, h.consistent, h.reaped, nofun, nofun, ?_⟩
          · intro a y hy _
            by_cases ha : a = (k, i)
            · subst ha
              obtain rfl := Option.some.inj (hx.symm.trans hy)
              exact (h.waiting i x hpc hx hreap).trans (h.reaped x.pid hreap).symm
            · refine h.agree a y hy fun j hj => ?_
              rw [hpc] at hj
              cases hj
              exact ha
          · intro j y hij
            exact h.stops j y (by rw [hpc]; exact Nat.le_of_succ_le hij)
      | some status =>
          have hwaited := inv_waited h hpc hx hevent
          cases status with
          | continued =>
              simp only [hevent] at ht
              cases ht
          | _ =>
              simp only [hevent] at ht
              obtain rfl := Option.some.inj ht
              exact hwaited
  | _ =>
      rw [hpc] at ht
      cases ht

theorem inv_step {t : State} {ev : Event} (h : Inv k s) (hok : Undisturbed k s ev)
    (ht : step k s ev = some t) : Inv k t := by
  cases ev with
  | kill => exact inv_kill h ht
  | test => exact inv_test h ht
  | mark => exact inv_mark h ht
  | waitpid => exact inv_waitpid h ht
  | handler p => exact inv_handler h hok ht
  | stop p =>
      simp only [step] at ht
      split_ifs at ht
      obtain rfl := Option.some.inj ht
      refine h.setProc p ?_ nofun fun _ => rfl
      intro status hstatus
      cases hstatus
      rfl
  | cont p =>
      simp only [step] at ht
      split_ifs at ht
      obtain rfl := Option.some.inj ht
      refine h.setProc p ?_ nofun nofun
      intro status hstatus
      cases hstatus
      rfl
  | exit p signaled =>
      simp only [step] at ht
      split_ifs at ht <;> obtain rfl := Option.some.inj ht
      all_goals
        refine h.setProc p ?_ nofun nofun
        intro status hstatus
        cases hstatus
        rfl

end

/-- A job whose processes are all stopped, and known to be. -/
def stoppedJob (procs : List JobProc) : State :=
  ⟨[⟨1, 7, procs⟩], fun _ => ⟨.stopped, none⟩, fun _ => .stopped, .kill⟩

theorem init_stoppedJob (procs : List JobProc) (hnodup : (procs.map JobProc.pid).Nodup)
    (hstopped : ∀ x ∈ procs, x.alive = .stopped) : Init (stoppedJob procs) := by
  refine ⟨rfl, uniquePids_singleton hnodup, ?_, fun p => consistent_of_none rfl, nofun⟩
  rintro ⟨i, j⟩ x hx
  cases i with
  | zero => exact hstopped x (List.mem_of_getElem? hx)
  | succ i => cases hx

/-- Process 7 stops again and the wait for it returns; the handler then takes its
continuation and, while the command waits for process 8, the exit of that one. -/
def handlerTakesExit : List Event :=
  [.kill, .handler 8, .test, .mark, .stop 7, .waitpid, .test, .mark, .cont 7, .handler 7,
    .exit 8 false, .handler 8, .waitpid, .test]

end ShellXv6.Shell.Resume
