import ShellXv6.Lib.Run
import ShellXv6.Shell.Jobs

/-!
# The job table when pids are reused

Launches, stopped foreground jobs and notifications in any order.  The state
keeps, beside the table, the children that have not been reaped, each with the
entry that was made for it; the system gives a new child any pid that no such
child has.  The handler knows pids only.  It changes the right entry as long as
no launch gets a pid that the table already holds.

A foreground job is waited for with `SIGCHLD` blocked.  If it stops, its entry is
made by `add_stopped_job` after the signal is unblocked again: until then it is
`pending`, and the handler may run.  The processes of a foreground pipeline are its
stages.  A stage that runs a program does so in a child of its own, about which the
shell hears nothing: when that child stops, the stage exits.
-/

namespace ShellXv6.Shell.PidReuse

open Jobs

/-- The child with a pid that has not been reaped. -/
inductive Child
  | none
  | unregistered
  | entry (a : Entry)
  deriving DecidableEq

structure State where
  jobs : List Job
  next_job_id : ℕ
  children : Pid → Child
  pending : Option (List (Pid × String))

inductive Event
  /-- `launch_background_single` after a successful `fork`. -/
  | launchBackgroundSingle (proc : Pid × String)
  /-- `execute_pipeline_bg` returns its commands and `main` registers them. -/
  | launchBackgroundPipeline (procs : List (Pid × String))
  /-- `execute_pipeline_bg` fails at a later `fork`: the children are not registered. -/
  | pipelineForkFails (procs : List (Pid × String))
  /-- The waits for a foreground job report some of its processes as stopped; the
  others have been reaped. -/
  | foregroundStops (procs : List (Pid × String)) (stopped : Pid → Bool)
  /-- The waits for a foreground job report that all its processes have exited, as the
  stages of a pipeline do when their programs end or stop. -/
  | foregroundEnds (procs : List (Pid × String))
  | addStoppedJob
  /-- One round of the loop of `sigchld_handler`. -/
  | notify (p : Pid) (status : WaitStatus)

def pids (procs : List (Pid × String)) : List Pid := procs.map Prod.fst

/-- The pids the system may give to the processes of a job. -/
def Fresh (s : State) (procs : List (Pid × String)) : Prop :=
  procs ≠ [] ∧ (pids procs).Nodup ∧ ∀ p ∈ pids procs, s.children p = .none

instance (s : State) (procs : List (Pid × String)) : Decidable (Fresh s procs) :=
  inferInstanceAs (Decidable (_ ∧ _ ∧ _))

/-- The children of a job, linked to the entries of job `i` when it is registered. -/
def link (children : Pid → Child) (registered : Bool) (i : ℕ) (procs : List (Pid × String)) :
    Pid → Child := fun p =>
  if p ∈ pids procs then
    if registered then .entry (i, (pids procs).idxOf p) else .unregistered
  else children p

/-- A job gets its entries if there is room. -/
def addJob (s : State) (procs : List (Pid × String)) (v : Alive) : State :=
  let r := register s.jobs s.next_job_id ((pids procs).headD 0) procs v
  { s with
    jobs := r.1
    next_job_id := r.2
    children := link s.children (s.jobs.length < maxJobs) s.jobs.length procs }

/-- A child that has exited is gone once its status is consumed. -/
def reap (children : Pid → Child) (p : Pid) (status : WaitStatus) : Pid → Child := fun q =>
  if status.alive = .exited ∧ q = p then .none else children q

def step (s : State) : Event → Option State
  | .launchBackgroundSingle proc =>
      if s.pending = none ∧ Fresh s [proc] then some (addJob s [proc] .running) else none
  | .launchBackgroundPipeline procs =>
      if s.pending = none ∧ Fresh s procs then some (addJob s procs .running) else none
  | .pipelineForkFails procs =>
      if s.pending = none ∧ Fresh s procs then
        some { s with children := link s.children false 0 procs }
      else none
  | .foregroundStops procs stopped =>
      if s.pending = none ∧ Fresh s procs ∧ ∃ p ∈ pids procs, stopped p = true then
        some { s with
          children := link s.children false 0 (procs.filter fun x => stopped x.1)
          pending := some procs }
      else none
  | .foregroundEnds procs => if s.pending = none ∧ Fresh s procs then some s else none
  | .addStoppedJob =>
      match s.pending with
      | none => none
      | some procs =>
          let t := addJob s procs .stopped
          -- A process that has been reaped meanwhile gets an entry, but is no child any more.
          some { t with
            children := fun p => if s.children p = .none then .none else t.children p
            pending := none }
  | .notify p status =>
      if s.children p = .none then none
      else some { s with
        jobs := (sigchldHandler s.jobs p status).1
        children := reap s.children p status }

/-- What a step needs and what it makes of the state. -/
inductive Steps (s : State) : Event → State → Prop
  | single {proc : Pid × String} (hpending : s.pending = none) (hfresh : Fresh s [proc]) :
      Steps s (.launchBackgroundSingle proc) (addJob s [proc] .running)
  | pipeline {procs : List (Pid × String)} (hpending : s.pending = none) (hfresh : Fresh s procs) :
      Steps s (.launchBackgroundPipeline procs) (addJob s procs .running)
  | forkFails {procs : List (Pid × String)} (hpending : s.pending = none) (hfresh : Fresh s procs) :
      Steps s (.pipelineForkFails procs) { s with children := link s.children false 0 procs }
  | stops {procs : List (Pid × String)} {stopped : Pid → Bool} (hfresh : Fresh s procs) :
      Steps s (.foregroundStops procs stopped) { s with
        children := link s.children false 0 (procs.filter fun x => stopped x.1)
        pending := some procs }
  | ends {procs : List (Pid × String)} (hpending : s.pending = none) (hfresh : Fresh s procs) :
      Steps s (.foregroundEnds procs) s
  | added {procs : List (Pid × String)} (hpending : s.pending = some procs) :
      Steps s .addStoppedJob { addJob s procs .stopped with
        children := fun p =>
          if s.children p = .none then .none else (addJob s procs .stopped).children p
        pending := none }
  | notified {p : Pid} {status : WaitStatus} (hchild : s.children p ≠ .none) :
      Steps s (.notify p status) { s with
        jobs := (sigchldHandler s.jobs p status).1
        children := reap s.children p status }

theorem steps_of_step {s t : State} {ev : Event} (ht : step s ev = some t) : Steps s ev t := by
  cases ev with
  | launchBackgroundSingle proc =>
      obtain ⟨hen, ⟨⟩⟩ := Option.ite_none_right_eq_some.mp ht
      exact .single hen.1 hen.2
  | launchBackgroundPipeline procs =>
      obtain ⟨hen, ⟨⟩⟩ := Option.ite_none_right_eq_some.mp ht
      exact .pipeline hen.1 hen.2
  | pipelineForkFails procs =>
      obtain ⟨hen, ⟨⟩⟩ := Option.ite_none_right_eq_some.mp ht
      exact .forkFails hen.1 hen.2
  | foregroundStops procs stopped =>
      obtain ⟨hen, ⟨⟩⟩ := Option.ite_none_right_eq_some.mp ht
      exact .stops hen.2.1
  | foregroundEnds procs =>
      obtain ⟨hen, ⟨⟩⟩ := Option.ite_none_right_eq_some.mp ht
      exact .ends hen.1 hen.2
  | addStoppedJob =>
      cases hpending : s.pending with
      | none =>
          simp only [step, hpending] at ht
          cases ht
      | some procs =>
          simp only [step, hpending] at ht
          obtain rfl := Option.some.inj ht
          exact .added hpending
  | notify p status =>
      obtain ⟨hchild, ⟨⟩⟩ := Option.ite_none_left_eq_some.mp ht
      exact .notified hchild

def init (s : State) : Prop :=
  s.jobs = [] ∧ s.next_job_id = 1 ∧ (∀ p, s.children p = .none) ∧ s.pending = none

/-- No entry of the table has the pid. -/
def NotInTable (s : State) (p : Pid) : Prop := ∀ a proc, entryAt s.jobs a = some proc → proc.pid ≠ p

theorem notInTable_iff {s : State} {p : Pid} :
    NotInTable s p ↔ ∀ job ∈ s.jobs, ∀ x ∈ job.procs, x.pid ≠ p := by
  constructor
  · intro h job hjob x hx
    obtain ⟨i, hi⟩ := List.getElem?_of_mem hjob
    obtain ⟨j, hj⟩ := List.getElem?_of_mem hx
    exact h (i, j) x (Option.bind_eq_some_iff.mpr ⟨job, hi, hj⟩)
  · intro h a x hx
    obtain ⟨job, hjob, hproc⟩ := Option.bind_eq_some_iff.mp hx
    exact h job (List.mem_of_getElem? hjob) x (List.mem_of_getElem? hproc)

instance (s : State) (p : Pid) : Decidable (NotInTable s p) :=
  decidable_of_iff' _ notInTable_iff

/-- New children get pids that the table does not hold, a stopped foreground job
has all its processes stopped, and none of its statuses is consumed before its
entries are made. -/
def Distinguishable (s : State) : Event → Prop
  | .launchBackgroundSingle proc => NotInTable s proc.1
  | .launchBackgroundPipeline procs => ∀ p ∈ pids procs, NotInTable s p
  | .pipelineForkFails procs => ∀ p ∈ pids procs, NotInTable s p
  | .foregroundStops procs stopped =>
      (∀ p ∈ pids procs, NotInTable s p) ∧ ∀ p ∈ pids procs, stopped p = true
  | .foregroundEnds _ => True
  | .addStoppedJob => True
  | .notify p _ => ∀ procs, s.pending = some procs → p ∉ pids procs

instance (s : State) : DecidablePred (Distinguishable s)
  | .launchBackgroundSingle proc => inferInstanceAs (Decidable (NotInTable s proc.1))
  | .launchBackgroundPipeline procs | .pipelineForkFails procs =>
      inferInstanceAs (Decidable (∀ p ∈ pids procs, NotInTable s p))
  | .foregroundStops procs stopped => inferInstanceAs (Decidable
      ((∀ p ∈ pids procs, NotInTable s p) ∧ ∀ p ∈ pids procs, stopped p = true))
  | .foregroundEnds _ | .addStoppedJob => isTrue trivial
  | .notify p _ => inferInstanceAs (Decidable (∀ procs ∈ s.pending, p ∉ pids procs))

/-! ## The invariant -/

structure Inv (s : State) : Prop where
  unique : UniquePids s.jobs
  linked : ∀ p a, s.children p = .entry a →
    ∃ x, entryAt s.jobs a = some x ∧ x.pid = p ∧ x.alive ≠ .exited
  unlisted : ∀ p, s.children p = .unregistered → NotInTable s p
  reaped : ∀ a x, entryAt s.jobs a = some x → s.children x.pid ≠ .entry a → x.alive = .exited
  pending : ∀ procs, s.pending = some procs →
    (pids procs).Nodup ∧ ∀ p ∈ pids procs, s.children p = .unregistered

/-! ## Notifications -/

/-- The entries with the pid of a child are those that are linked to it. -/
theorem Inv.pid_eq_iff {s : State} (h : Inv s) {p : Pid} (hp : s.children p ≠ .none) {a : Entry}
    {x : JobProc} (hx : entryAt s.jobs a = some x) : x.pid = p ↔ s.children p = .entry a := by
  constructor
  · rintro rfl
    cases hchild : s.children x.pid with
    | none => exact absurd hchild hp
    | unregistered => exact absurd rfl (h.unlisted _ hchild a x hx)
    | entry b =>
        obtain ⟨y, hy, hpid, -⟩ := h.linked _ b hchild
        rw [h.unique a b x y hx hy hpid.symm]
  · intro hchild
    obtain ⟨y, hy, hpid, -⟩ := h.linked p a hchild
    obtain rfl := Option.some.inj (hx.symm.trans hy)
    exact hpid

theorem reap_eq {children : Pid → Child} {p q : Pid} {status : WaitStatus} {c : Child}
    (h : reap children p status q = c) (hc : c ≠ .none) :
    children q = c ∧ ¬(status.alive = .exited ∧ q = p) := by
  rw [reap] at h
  split_ifs at h with hreap
  · exact absurd h.symm hc
  · exact ⟨h, hreap⟩

theorem reap_of_not {children : Pid → Child} {p q : Pid} {status : WaitStatus}
    (h : ¬(status.alive = .exited ∧ q = p)) : reap children p status q = children q :=
  if_neg h

theorem inv_notify {s : State} {p : Pid} {status : WaitStatus} (h : Inv s)
    (hok : Distinguishable s (.notify p status)) (hp : s.children p ≠ .none) :
    Inv { s with
      jobs := (sigchldHandler s.jobs p status).1
      children := reap s.children p status } := by
  refine ⟨?_, ?_, ?_, ?_, ?_⟩
  · exact h.unique.of_pid fun a y hy =>
      let ⟨x, hx, hpid, _⟩ := h.unique.of_handler hy
      ⟨x, hx, hpid⟩
  · intro q a hq
    obtain ⟨hq, hreap⟩ := reap_eq hq nofun
    obtain ⟨x, hx, rfl, halive⟩ := h.linked q a hq
    rw [h.unique.entryAt_handler, hx, Option.map_some]
    by_cases hpid : x.pid = p
    · rw [if_pos hpid]
      exact ⟨_, rfl, rfl, fun hexit => hreap ⟨hexit, hpid⟩⟩
    · rw [if_neg hpid]
      exact ⟨x, rfl, rfl, halive⟩
  · intro q hq a y hy
    obtain ⟨hq, -⟩ := reap_eq hq nofun
    obtain ⟨x, hx, hpid, -⟩ := h.unique.of_handler hy
    exact hpid ▸ h.unlisted q hq a x hx
  · intro a y hy hq
    obtain ⟨x, hx, hpid, ⟨hp', halive⟩ | ⟨hp', rfl⟩⟩ := h.unique.of_handler hy
    · rw [halive]
      by_contra hexit
      refine hq ?_
      rw [hpid, hp']
      exact (reap_of_not fun hreap => hexit hreap.1).trans ((h.pid_eq_iff hp hx).mp hp')
    · refine h.reaped a y hx fun hlink => hq ?_
      exact (reap_of_not fun hreap => hp' hreap.2).trans hlink
  · intro procs hprocs
    obtain ⟨hnodup, hunreg⟩ := h.pending procs hprocs
    refine ⟨hnodup, fun q hq => (reap_of_not ?_).trans (hunreg q hq)⟩
    rintro ⟨-, rfl⟩
    exact hok procs hprocs hq

/-! ## Launches -/

section

variable {children : Pid → Child} {registered : Bool} {i : ℕ} {procs : List (Pid × String)}
  {p : Pid}

theorem link_of_mem (hp : p ∈ pids procs) :
    link children registered i procs p =
      if registered then .entry (i, (pids procs).idxOf p) else .unregistered := by
  rw [link, if_pos hp]

theorem link_of_not_mem (hp : p ∉ pids procs) :
    link children registered i procs p = children p := by
  rw [link, if_neg hp]

theorem getElem?_idxOf (hp : p ∈ pids procs) :
    ∃ cmd, procs[(pids procs).idxOf p]? = some (p, cmd) := by
  have hget : (pids procs)[(pids procs).idxOf p]? = some p := by
    rw [List.getElem?_eq_getElem (List.idxOf_lt_length_iff.mpr hp), List.getElem_idxOf]
  generalize (pids procs).idxOf p = j at hget ⊢
  rw [pids, List.getElem?_map] at hget
  obtain ⟨x, hx, rfl⟩ := Option.map_eq_some_iff.mp hget
  exact ⟨x.2, hx⟩

theorem idxOf_of_getElem? (hnodup : (pids procs).Nodup) {j : ℕ} {x : Pid × String}
    (h : procs[j]? = some x) : x.1 ∈ pids procs ∧ (pids procs).idxOf x.1 = j := by
  obtain ⟨hlt, rfl⟩ := List.getElem?_eq_some_iff.mp h
  have hlt' : j < (pids procs).length := by simpa [pids] using hlt
  refine ⟨List.mem_map_of_mem (List.getElem_mem hlt), ?_⟩
  have := hnodup.idxOf_getElem j hlt'
  simpa only [pids, List.getElem_map] using this

end

theorem entryAt_addJob (s : State) (procs : List (Pid × String)) (v : Alive) (i j : ℕ) :
    entryAt (addJob s procs v).jobs (i, j) =
      if s.jobs.length < maxJobs ∧ i = s.jobs.length then
        procs[j]?.map fun x => ⟨x.1, x.2, v⟩
      else entryAt s.jobs (i, j) := by
  simp only [addJob, register]
  by_cases hroom : s.jobs.length < maxJobs
  · simp only [hroom, if_true, true_and, entryAt_append]
    by_cases hi : i = s.jobs.length
    · simp [hi]
    · rw [if_neg hi, if_neg hi]
      split_ifs with hlt
      · rfl
      · rw [entryAt, List.getElem?_eq_none (Nat.le_of_not_lt hlt)]
        rfl
  · simp [hroom]

theorem entryAt_addJob_of_old {s : State} {procs : List (Pid × String)} {v : Alive} {a : Entry}
    {x : JobProc} (h : entryAt s.jobs a = some x) : entryAt (addJob s procs v).jobs a = some x := by
  obtain ⟨i, j⟩ := a
  rw [entryAt_addJob, if_neg, h]
  rintro ⟨-, rfl⟩
  exact absurd (lt_of_entryAt h) (Nat.lt_irrefl _)

theorem of_entryAt_addJob {s : State} {procs : List (Pid × String)} {v : Alive} {a : Entry}
    {x : JobProc} (h : entryAt (addJob s procs v).jobs a = some x) :
    entryAt s.jobs a = some x ∨
      s.jobs.length < maxJobs ∧ a.1 = s.jobs.length ∧
        ∃ y, procs[a.2]? = some y ∧ x.pid = y.1 ∧ x.alive = v := by
  obtain ⟨i, j⟩ := a
  rw [entryAt_addJob] at h
  split_ifs at h with hnew
  · obtain ⟨y, hy, rfl⟩ := Option.map_eq_some_iff.mp h
    exact Or.inr ⟨hnew.1, hnew.2, y, hy, rfl, rfl⟩
  · exact Or.inl h

theorem children_addJob (s : State) (procs : List (Pid × String)) (v : Alive) :
    (addJob s procs v).children =
      link s.children (s.jobs.length < maxJobs) s.jobs.length procs := rfl

theorem linked_addJob {s : State}
    (h : ∀ p a, s.children p = .entry a →
      ∃ x, entryAt s.jobs a = some x ∧ x.pid = p ∧ x.alive ≠ .exited)
    {procs : List (Pid × String)} {v : Alive} (hv : v ≠ .exited) {p : Pid} {a : Entry}
    (hp : (addJob s procs v).children p = .entry a) :
    ∃ x, entryAt (addJob s procs v).jobs a = some x ∧ x.pid = p ∧ x.alive ≠ .exited := by
  rw [children_addJob] at hp
  by_cases hin : p ∈ pids procs
  · rw [link_of_mem hin] at hp
    split_ifs at hp with hroom
    obtain rfl := Child.entry.inj hp
    obtain ⟨cmd, hcmd⟩ := getElem?_idxOf hin
    refine ⟨⟨p, cmd, v⟩, ?_, rfl, hv⟩
    rw [entryAt_addJob, if_pos ⟨of_decide_eq_true hroom, rfl⟩, hcmd]
    rfl
  · rw [link_of_not_mem hin] at hp
    obtain ⟨x, hx, hpid⟩ := h p a hp
    exact ⟨x, entryAt_addJob_of_old hx, hpid⟩

theorem inv_addJob {s : State} (h : Inv s) {procs : List (Pid × String)}
    (hnodup : (pids procs).Nodup) (hnew : ∀ p ∈ pids procs, NotInTable s p) {v : Alive}
    (hv : v ≠ .exited) : Inv { addJob s procs v with pending := none } := by
  -- A new entry has a pid of the job, an old one has none.
  have hmem : ∀ {a : Entry} {y : Pid × String}, procs[a.2]? = some y →
      y.1 ∈ pids procs ∧ (pids procs).idxOf y.1 = a.2 := idxOf_of_getElem? hnodup
  refine ⟨?_, ?_, ?_, ?_, nofun⟩
  · rintro a b x y hx hy hpid
    rcases of_entryAt_addJob hx with hx | ⟨-, ha, x', hx', hpx, -⟩ <;>
      rcases of_entryAt_addJob hy with hy | ⟨-, hb, y', hy', hpy, -⟩
    · exact h.unique a b x y hx hy hpid
    · exact absurd (hpid.trans hpy) (hnew y'.1 (hmem hy').1 a x hx)
    · exact absurd (hpid.symm.trans hpx) (hnew x'.1 (hmem hx').1 b y hy)
    · refine Prod.ext (ha.trans hb.symm) ?_
      rw [← (hmem hx').2, ← (hmem hy').2, ← hpx, ← hpy, hpid]
  · exact fun p a hp => linked_addJob h.linked hv hp
  · intro p hp a x hx
    change link _ _ _ procs p = _ at hp
    rcases of_entryAt_addJob hx with hx | ⟨hroom, -, y, hy, hpy, -⟩
    · by_cases hin : p ∈ pids procs
      · exact hnew p hin a x hx
      · rw [link_of_not_mem hin] at hp
        exact h.unlisted p hp a x hx
    · rintro rfl
      rw [link_of_mem (hpy ▸ (hmem hy).1), if_pos (decide_eq_true hroom)] at hp
      cases hp
  · intro a x hx hchild
    change link _ _ _ procs x.pid ≠ _ at hchild
    rcases of_entryAt_addJob hx with hx | ⟨hroom, ha, y, hy, hpy, -⟩
    · refine h.reaped a x hx ?_
      rwa [link_of_not_mem fun hin => hnew x.pid hin a x hx rfl] at hchild
    · obtain ⟨hin, hidx⟩ := hmem hy
      rw [hpy, link_of_mem hin, if_pos (decide_eq_true hroom), hidx, ← ha] at hchild
      exact absurd rfl hchild

theorem inv_link {s : State} (h : Inv s) {procs : List (Pid × String)}
    (hnew : ∀ p ∈ pids procs, NotInTable s p) {pending : Option (List (Pid × String))}
    (hpending : ∀ l, pending = some l → (pids l).Nodup ∧ ∀ p ∈ pids l, p ∈ pids procs) :
    Inv { s with children := link s.children false 0 procs, pending := pending } := by
  refine ⟨h.unique, ?_, ?_, ?_, ?_⟩
  · intro p a hp
    by_cases hin : p ∈ pids procs
    · change link _ _ _ procs p = _ at hp
      rw [link_of_mem hin] at hp
      cases hp
    · exact h.linked p a ((link_of_not_mem hin).symm.trans hp)
  · intro p hp
    by_cases hin : p ∈ pids procs
    · exact hnew p hin
    · exact h.unlisted p ((link_of_not_mem hin).symm.trans hp)
  · intro a x hx hchild
    refine h.reaped a x hx fun hlink => hchild ?_
    exact (link_of_not_mem fun hin => hnew x.pid hin a x hx rfl).trans hlink
  · intro l hl
    obtain ⟨hnodup, hin⟩ := hpending l hl
    exact ⟨hnodup, fun p hp => link_of_mem (hin p hp)⟩

/-- A stopped foreground job has lost no child when its entries are made. -/
theorem addJob_children {s : State} (h : Inv s) {procs : List (Pid × String)}
    (hpending : s.pending = some procs) (v : Alive) :
    (fun p => if s.children p = .none then .none else (addJob s procs v).children p) =
      (addJob s procs v).children := by
  funext p
  by_cases hp : s.children p = .none
  · have hnot : p ∉ pids procs := by
      intro hin
      rw [(h.pending procs hpending).2 p hin] at hp
      cases hp
    rw [if_pos hp]
    exact ((link_of_not_mem hnot).trans hp).symm
  · rw [if_neg hp]

theorem inv_step {s t : State} {ev : Event} (h : Inv s) (hok : Distinguishable s ev)
    (ht : step s ev = some t) : Inv t := by
  cases steps_of_step ht with
  | single hpending hfresh =>
      have hadd := inv_addJob h hfresh.2.1 (List.forall_mem_singleton.mpr hok) (v := .running) nofun
      rwa [← hpending] at hadd
  | pipeline hpending hfresh =>
      have hadd := inv_addJob h hfresh.2.1 hok (v := .running) nofun
      rwa [← hpending] at hadd
  | forkFails hpending hfresh =>
      apply inv_link h hok
      intro l hl
      rw [hpending] at hl
      cases hl
  | @stops procs stopped hfresh =>
      obtain ⟨hnew, hall⟩ := hok
      have hfilter : procs.filter (fun x => stopped x.1) = procs :=
        List.filter_eq_self.mpr fun x hx => hall x.1 (List.mem_map_of_mem hx)
      rw [hfilter]
      apply inv_link h hnew
      intro l hl
      obtain rfl := Option.some.inj hl
      exact ⟨hfresh.2.1, fun p hp => hp⟩
  | ends => exact h
  | @added procs hpending =>
      obtain ⟨hnodup, hunreg⟩ := h.pending procs hpending
      rw [addJob_children h hpending]
      exact inv_addJob h hnodup (fun p hp => h.unlisted p (hunreg p hp)) nofun
  | notified hchild =>
      exact inv_notify h hok hchild

theorem inv_init {s : State} (h : init s) : Inv s := by
  obtain ⟨hjobs, -, hchildren, hpending⟩ := h
  have hempty : ∀ a, entryAt s.jobs a = none := by
    intro a
    rw [hjobs]
    rfl
  refine ⟨?_, ?_, ?_, ?_, ?_⟩
  · intro a b x y hx
    rw [hempty] at hx
    cases hx
  · intro p a hp
    rw [hchildren] at hp
    cases hp
  · intro p hp
    rw [hchildren] at hp
    cases hp
  · intro a x hx
    rw [hempty] at hx
    cases hx
  · intro procs hprocs
    rw [hpending] at hprocs
    cases hprocs

theorem entryAt_of_exited {s t : State} {ev : Event} (h : Inv s) (ht : step s ev = some t)
    {a : Entry} {x : JobProc} (hx : entryAt s.jobs a = some x) (hexit : x.alive = .exited) :
    entryAt t.jobs a = some x := by
  cases steps_of_step ht with
  | single | pipeline | added =>
      exact entryAt_addJob_of_old hx
  | forkFails | stops | ends =>
      exact hx
  | @notified p status hchild =>
      have hpid : x.pid ≠ p := by
        intro hpid
        obtain ⟨y, hy, -, halive⟩ := h.linked p a ((h.pid_eq_iff hchild hx).mp hpid)
        obtain rfl := Option.some.inj (hx.symm.trans hy)
        exact halive hexit
      change entryAt (sigchldHandler s.jobs p status).1 a = _
      rw [h.unique.entryAt_handler, hx, Option.map_some, if_neg hpid]

/-- In every state of a run in which no launch gets a pid of the table: a
notification changes the entry of its child and no other, an exited entry stays
so, and the entry of a reaped child is exited. -/
theorem jobTable_truthful {s : State} (hs : Run.Reach init step Distinguishable s) :
    (∀ p status t, step s (.notify p status) = some t → ∀ a,
      (s.children p = .entry a → ∃ x, entryAt s.jobs a = some x ∧
        entryAt t.jobs a = some { x with alive := status.alive }) ∧
      (s.children p ≠ .entry a → entryAt t.jobs a = entryAt s.jobs a)) ∧
    (∀ ev t, step s ev = some t → ∀ a x, entryAt s.jobs a = some x → x.alive = .exited →
      entryAt t.jobs a = some x) ∧
    ∀ a x, entryAt s.jobs a = some x → (∀ p, s.children p ≠ .entry a) → x.alive = .exited := by
  have hinv : Inv s :=
    hs.invariant (fun _ h => inv_init h) fun _ _ _ _ h hok ht => inv_step h hok ht
  refine ⟨?_, ?_, ?_⟩
  · intro p status t ht a
    obtain ⟨hp, ⟨⟩⟩ := Option.ite_none_left_eq_some.mp ht
    change (_ → ∃ x, _ ∧ entryAt (sigchldHandler s.jobs p status).1 a = _) ∧
      (_ → entryAt (sigchldHandler s.jobs p status).1 a = _)
    rw [hinv.unique.entryAt_handler]
    refine ⟨fun hchild => ?_, fun hchild => ?_⟩
    · obtain ⟨x, hx, hpid, -⟩ := hinv.linked p a hchild
      exact ⟨x, hx, by rw [hx, Option.map_some, if_pos hpid]⟩
    · cases hx : entryAt s.jobs a with
      | none => rfl
      | some x => rw [Option.map_some, if_neg fun hpid => hchild ((hinv.pid_eq_iff hp hx).mp hpid)]
  · intro ev t ht a x hx hexit
    exact entryAt_of_exited hinv ht hx hexit
  · intro a x hx hchild
    exact hinv.reaped a x hx (hchild x.pid)

def boot : State := ⟨[], 1, fun _ => .none, none⟩

theorem init_boot : init boot := ⟨rfl, rfl, fun _ => rfl, rfl⟩

/-- A background command, a background pipeline of which one process has stopped, and a
foreground command that has stopped. -/
def threeJobs : List Event :=
  [.launchBackgroundSingle (7, "sleep"), .launchBackgroundPipeline [(8, "cat"), (9, "wc")],
    .notify 9 .stopped, .foregroundStops [(10, "vi")] fun _ => true, .addStoppedJob]

/-- The command exits, and then the first process of the pipeline: each time the entry of
that process changes, and the others stay as they are. -/
theorem jobTable_truthful_two_exits :
    ∃ s t u, Run.exec step threeJobs boot = some s ∧ step s (.notify 7 .exited) = some t ∧
      step t (.notify 8 .exited) = some u ∧
      entryAt t.jobs (0, 0) = some ⟨7, "sleep", .exited⟩ ∧
      entryAt t.jobs (1, 0) = some ⟨8, "cat", .running⟩ ∧
      entryAt t.jobs (1, 1) = some ⟨9, "wc", .stopped⟩ ∧
      entryAt t.jobs (2, 0) = some ⟨10, "vi", .stopped⟩ ∧
      entryAt u.jobs (0, 0) = some ⟨7, "sleep", .exited⟩ ∧
      entryAt u.jobs (1, 0) = some ⟨8, "cat", .exited⟩ ∧
      entryAt u.jobs (1, 1) = some ⟨9, "wc", .stopped⟩ := by
  have hs : Run.Reach init step Distinguishable _ :=
    Run.Reach.of_guarded threeJobs (.start init_boot) rfl
  have ht : Run.Reach init step Distinguishable _ :=
    Run.Reach.of_guarded [.notify 7 .exited] hs rfl
  have hfirst := (jobTable_truthful hs).1 7 .exited _ rfl
  have hsecond := (jobTable_truthful ht).1 8 .exited _ rfl
  obtain ⟨x, hx, hexit⟩ := (hfirst (0, 0)).1 rfl
  obtain rfl := Option.some.inj hx
  obtain ⟨y, hy, hexit'⟩ := (hsecond (1, 0)).1 rfl
  obtain rfl := Option.some.inj hy
  refine ⟨_, _, _, rfl, rfl, rfl, hexit, ?_, ?_, ?_, ?_, hexit', ?_⟩
  · exact (hfirst (1, 0)).2 (by decide)
  · exact (hfirst (1, 1)).2 (by decide)
  · exact (hfirst (2, 0)).2 (by decide)
  · exact (hsecond (0, 0)).2 (by decide)
  · exact (hsecond (1, 1)).2 (by decide)

/-- The second child with pid 7 stops; the handler marks the entry of the first
one, which has exited, and leaves the entry of the second one running. -/
theorem not_truthful_reused_pid :
    ∃ s t, Run.Reach init step Run.Any s ∧ step s (.notify 7 .stopped) = some t ∧
      s.children 7 = .entry (1, 0) ∧
      entryAt s.jobs (0, 0) = some ⟨7, "first", .exited⟩ ∧
      entryAt t.jobs (0, 0) = some ⟨7, "first", .stopped⟩ ∧
      entryAt t.jobs (1, 0) = some ⟨7, "second", .running⟩ :=
  ⟨_, _, Run.Reach.exec [.launchBackgroundSingle (7, "first"), .notify 7 .exited,
    .launchBackgroundSingle (7, "second")] (.start init_boot) rfl, rfl, rfl, rfl, rfl, rfl⟩

end ShellXv6.Shell.PidReuse
