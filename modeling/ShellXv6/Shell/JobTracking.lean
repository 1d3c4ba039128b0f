import ShellXv6.Shell.PidReuse

/-!
# Finding a job by its id

The commands `activities`, `ping` and `resume` go through the table and skip a job
whose processes are all marked as exited.  However often pids are reused, the entry
of a process that has not been reaped is never marked so, and the ids are the
positions in the table: a job that has been entered can be found as long as one of
its processes is there.  Entries are never given free, though, and a job for which
there is no room is not entered at all.
-/

namespace ShellXv6.Shell.JobTracking

open Jobs PidReuse

/-! ## The three commands -/

def active (job : Job) : Bool := job.procs.any fun proc => proc.alive ≠ .exited

/-- The search of `execute_resume`. -/
def resumeJob (jobs : List Job) (target_id : ℕ) : Option ℕ :=
  jobs.findIdx? fun job => active job && job.id = target_id

/-- The search of `execute_ping` for `%id`: the group that gets the signal. -/
def pingJob (jobs : List Job) (target_val : ℕ) : Option Pid :=
  (jobs.find? fun job => active job && job.id = target_val).map Job.pgid

def jobLine (job : Job) : String :=
  "[" ++ toString job.id ++ "] pgid " ++ toString job.pgid ++ "\n"

def procLine (proc : JobProc) : String :=
  "  " ++ toString proc.pid ++ " " ++ proc.cmd ++ " " ++
    (if proc.alive = .stopped then "Stopped" else "Running") ++ "\n"

def printActivities (jobs : List Job) : List String :=
  jobs.flatMap fun job =>
    if active job then
      jobLine job :: (job.procs.filter fun proc => proc.alive ≠ .exited).map procLine
    else []

/-- All three commands find the job with the id, and `p` is one of its processes. -/
def Findable (jobs : List Job) (id : ℕ) (p : Pid) : Prop :=
  ∃ i job proc, jobs[i]? = some job ∧ job.id = id ∧ proc ∈ job.procs ∧ proc.pid = p ∧
    resumeJob jobs id = some i ∧ pingJob jobs id = some job.pgid ∧
    jobLine job ∈ printActivities jobs ∧ procLine proc ∈ printActivities jobs

/-! ## The runs of the shell -/

inductive Event
  | table (ev : PidReuse.Event)
  /-- `resume … bg` marks the stopped processes of job `k`. -/
  | resumeBg (k : ℕ)
  /-- `resume … fg` marks a process in front of its wait. -/
  | resumeMark (a : Entry)
  /-- The wait of `resume … fg` returns. -/
  | resumeWait (a : Entry) (status : WaitStatus)

def markRunning (jobs : List Job) (k : ℕ) : List Job :=
  jobs.modify k fun job => { job with
    procs := job.procs.map fun proc =>
      if proc.alive = .stopped then { proc with alive := .running } else proc }

def step (s : State) : Event → Option State
  | .table ev => PidReuse.step s ev
  | .resumeBg k =>
      if s.pending = none then some { s with jobs := markRunning s.jobs k } else none
  | .resumeMark a =>
      (entryAt s.jobs a).bind fun x =>
        if s.pending = none ∧ x.alive ≠ .exited then
          some { s with jobs := setAlive s.jobs a .running }
        else none
  | .resumeWait a status =>
      (entryAt s.jobs a).bind fun x =>
        if s.pending = none ∧ s.children x.pid ≠ .none ∧ status ≠ .continued then
          some { s with
            jobs := setAlive s.jobs a status.alive
            children := reap s.children x.pid status }
        else none

/-- The event enters a job with these processes: a background launch whose forks have
succeeded, or `add_stopped_job` for a foreground job that has stopped. -/
inductive Launches (s : State) : PidReuse.Event → List (Pid × String) → Prop
  | single (proc : Pid × String) : Launches s (.launchBackgroundSingle proc) [proc]
  | pipeline (procs : List (Pid × String)) : Launches s (.launchBackgroundPipeline procs) procs
  | stopped {procs : List (Pid × String)} (h : s.pending = some procs) :
      Launches s .addStoppedJob procs

/-- The job has got an entry with an id that no other has, and its processes are
linked to it. -/
def Entered (s t : State) (procs : List (Pid × String)) : Prop :=
  ∃ job, t.jobs = s.jobs ++ [job] ∧ job.id = s.jobs.length + 1 ∧
    (∀ old ∈ s.jobs, old.id ≠ job.id) ∧
    job.procs.map (fun proc => (proc.pid, proc.cmd)) = procs ∧
    ∀ p ∈ pids procs, t.children p ≠ .none → ∃ j, t.children p = .entry (s.jobs.length, j)

/-- The event consumes the status of a process that has ended. -/
def Reaps (s : State) : Event → Pid → Prop
  | .table (.notify p status), q => status.alive = .exited ∧ q = p
  | .resumeWait a status, q =>
      status.alive = .exited ∧ ∃ x, entryAt s.jobs a = some x ∧ q = x.pid
  | _, _ => False

/-! ## Changes to the table -/

/-- A change that keeps ids and pids and marks as exited only the processes that meet
`dead`. -/
structure Touched (jobs jobs' : List Job) (dead : Pid → Prop) : Prop where
  ids : jobs'.map Job.id = jobs.map Job.id
  entry : ∀ a x, entryAt jobs a = some x → ∃ y, entryAt jobs' a = some y ∧ y.pid = x.pid ∧
    (y.alive = .exited → x.alive = .exited ∨ dead x.pid)

theorem Touched.refl (jobs : List Job) (dead : Pid → Prop) : Touched jobs jobs dead :=
  ⟨rfl, fun _ x hx => ⟨x, hx, rfl, Or.inl⟩⟩

theorem Touched.length {jobs jobs' : List Job} {dead : Pid → Prop} (h : Touched jobs jobs' dead) :
    jobs'.length = jobs.length := by
  rw [← List.length_map (f := Job.id), h.ids, List.length_map]

theorem map_id_modify (jobs : List Job) (k : ℕ) {f : Job → Job} (hf : ∀ job, (f job).id = job.id) :
    (jobs.modify k f).map Job.id = jobs.map Job.id := by
  apply List.ext_getElem?
  intro i
  rw [List.getElem?_map, List.getElem?_map, List.getElem?_modify]
  cases jobs[i]? with
  | none => rfl
  | some job => by_cases hk : k = i <;> simp [hk, hf]

theorem touched_setAlive (jobs : List Job) (a : Entry) (v : Alive) {x : JobProc}
    (hx : entryAt jobs a = some x) :
    Touched jobs (setAlive jobs a v) fun p => v = .exited ∧ p = x.pid := by
  refine ⟨map_id_modify jobs a.1 fun _ => rfl, fun b y hy => ?_⟩
  rw [entryAt_setAlive]
  by_cases hab : b = a
  · subst hab
    obtain rfl := Option.some.inj (hx.symm.trans hy)
    rw [if_pos rfl, hx]
    exact ⟨_, rfl, rfl, fun hv => Or.inr ⟨hv, rfl⟩⟩
  · rw [if_neg hab]
    exact ⟨y, hy, rfl, Or.inl⟩

theorem touched_handler (jobs : List Job) (p : Pid) (status : WaitStatus) :
    Touched jobs (sigchldHandler jobs p status).1 fun q => status.alive = .exited ∧ q = p := by
  rw [sigchldHandler]
  cases hfind : find p jobs with
  | none => exact Touched.refl jobs _
  | some a =>
      obtain ⟨x, hx, rfl⟩ := find_eq_some hfind
      exact touched_setAlive jobs a status.alive hx

theorem touched_markRunning (jobs : List Job) (k : ℕ) (dead : Pid → Prop) :
    Touched jobs (markRunning jobs k) dead := by
  refine ⟨map_id_modify jobs k fun _ => rfl, ?_⟩
  rintro ⟨i, j⟩ x hx
  obtain ⟨job, hjob, hx⟩ := Option.bind_eq_some_iff.mp hx
  simp only [entryAt, markRunning, List.getElem?_modify, hjob]
  by_cases hk : k = i
  · by_cases hstopped : x.alive = .stopped
    · refine ⟨{ x with alive := .running }, by simp [hk, hx, hstopped], rfl, fun hexit => ?_⟩
      cases hexit
    · exact ⟨x, by simp [hk, hx, hstopped], rfl, Or.inl⟩
  · exact ⟨x, by simp [hk, hx], rfl, Or.inl⟩

/-! ## The invariant -/

structure Tracked (s : State) : Prop where
  ids : s.jobs.map Job.id = List.range' 1 s.jobs.length
  next : s.next_job_id = s.jobs.length + 1
  linked : ∀ p a, s.children p = .entry a →
    ∃ x, entryAt s.jobs a = some x ∧ x.pid = p ∧ x.alive ≠ .exited

theorem Tracked.touched {s : State} (h : Tracked s) {jobs : List Job} {dead : Pid → Prop}
    (ht : Touched s.jobs jobs dead) {children : Pid → Child}
    (hchildren : ∀ p a, children p = .entry a → s.children p = .entry a ∧ ¬dead p)
    (pending : Option (List (Pid × String))) :
    Tracked ⟨jobs, s.next_job_id, children, pending⟩ := by
  have hlen := ht.length
  refine ⟨?_, ?_, ?_⟩
  · exact (ht.ids.trans h.ids).trans (congrArg (List.range' 1) hlen.symm)
  · exact h.next.trans (congrArg (· + 1) hlen.symm)
  · intro p a hp
    obtain ⟨hp, hdead⟩ := hchildren p a hp
    obtain ⟨x, hx, rfl, halive⟩ := h.linked p a hp
    obtain ⟨y, hy, hpid, hexit⟩ := ht.entry a x hx
    refine ⟨y, hy, hpid, fun hy' => ?_⟩
    exact (hexit hy').elim halive hdead

theorem tracked_reap {s : State} (h : Tracked s) {jobs : List Job} {p : Pid} {status : WaitStatus}
    (ht : Touched s.jobs jobs fun q => status.alive = .exited ∧ q = p) :
    Tracked { s with jobs := jobs, children := reap s.children p status } :=
  h.touched ht (fun _ _ hq => reap_eq hq nofun) s.pending

theorem tracked_link {s : State} (h : Tracked s) (procs : List (Pid × String))
    (pending : Option (List (Pid × String))) :
    Tracked { s with children := link s.children false 0 procs, pending := pending } := by
  apply h.touched (Touched.refl s.jobs fun _ => False)
  intro p a hp
  by_cases hin : p ∈ pids procs
  · rw [link_of_mem hin] at hp
    cases hp
  · rw [link_of_not_mem hin] at hp
    exact ⟨hp, id⟩

theorem addJob_of_room {s : State} (hroom : s.jobs.length < maxJobs) (procs : List (Pid × String))
    (v : Alive) :
    (addJob s procs v).jobs = s.jobs ++ [⟨s.next_job_id, (pids procs).headD 0,
        procs.map fun x => ⟨x.1, x.2, v⟩⟩] ∧
      (addJob s procs v).next_job_id = s.next_job_id + 1 := by
  simp [addJob, register, hroom]

theorem addJob_of_full {s : State} (hfull : ¬s.jobs.length < maxJobs)
    (procs : List (Pid × String)) (v : Alive) :
    (addJob s procs v).jobs = s.jobs ∧ (addJob s procs v).next_job_id = s.next_job_id := by
  simp [addJob, register, hfull]

/-- Some of the processes may have been reaped in the meantime. -/
theorem tracked_addJob {s : State} (h : Tracked s) (procs : List (Pid × String)) (v : Alive)
    (hv : v ≠ .exited) {children : Pid → Child}
    (hchildren : ∀ p a, children p = .entry a → (addJob s procs v).children p = .entry a)
    (pending : Option (List (Pid × String))) :
    Tracked ⟨(addJob s procs v).jobs, (addJob s procs v).next_job_id, children, pending⟩ := by
  refine ⟨?_, ?_, fun p a hp => linked_addJob h.linked hv (hchildren p a hp)⟩
  · by_cases hroom : s.jobs.length < maxJobs
    · change (addJob s procs v).jobs.map _ = List.range' 1 (addJob s procs v).jobs.length
      rw [(addJob_of_room hroom procs v).1, List.map_append, h.ids, List.length_append,
        List.length_singleton, List.range'_concat]
      simp [h.next, Nat.add_comm]
    · change (addJob s procs v).jobs.map _ = List.range' 1 (addJob s procs v).jobs.length
      rw [(addJob_of_full hroom procs v).1, h.ids]
  · change (addJob s procs v).next_job_id = (addJob s procs v).jobs.length + 1
    by_cases hroom : s.jobs.length < maxJobs
    · rw [(addJob_of_room hroom procs v).1, (addJob_of_room hroom procs v).2, h.next]
      simp
    · rw [(addJob_of_full hroom procs v).1, (addJob_of_full hroom procs v).2, h.next]

theorem tracked_table {s t : State} {ev : PidReuse.Event} (h : Tracked s)
    (ht : PidReuse.step s ev = some t) : Tracked t := by
  cases steps_of_step ht with
  | single | pipeline =>
      exact tracked_addJob h _ .running nofun (fun _ _ hp => hp) s.pending
  | forkFails | stops =>
      exact tracked_link h _ _
  | ends => exact h
  | added hpending =>
      apply tracked_addJob h _ .stopped nofun
      intro p a hp
      split_ifs at hp
      exact hp
  | notified =>
      exact tracked_reap h (touched_handler s.jobs _ _)

theorem tracked_step {s t : State} {ev : Event} (h : Tracked s) (ht : step s ev = some t) :
    Tracked t := by
  cases ev with
  | table ev => exact tracked_table h ht
  | resumeBg k =>
      obtain ⟨-, ⟨⟩⟩ := Option.ite_none_right_eq_some.mp ht
      exact h.touched (touched_markRunning s.jobs k fun _ => False) (fun _ _ hp => ⟨hp, id⟩) _
  | resumeMark a =>
      obtain ⟨x, hx, ht⟩ := Option.bind_eq_some_iff.mp ht
      obtain ⟨-, ⟨⟩⟩ := Option.ite_none_right_eq_some.mp ht
      exact h.touched (touched_setAlive s.jobs a .running hx) (fun _ _ hp => ⟨hp, nofun⟩) _
  | resumeWait a status =>
      obtain ⟨x, hx, ht⟩ := Option.bind_eq_some_iff.mp ht
      obtain ⟨-, ⟨⟩⟩ := Option.ite_none_right_eq_some.mp ht
      exact tracked_reap h (touched_setAlive s.jobs a status.alive hx)

theorem tracked_init {s : State} (h : init s) : Tracked s := by
  obtain ⟨hjobs, hnext, hchildren, -⟩ := h
  refine ⟨?_, ?_, ?_⟩
  · rw [hjobs]
    rfl
  · rw [hnext, hjobs]
    rfl
  · intro p a hp
    rw [hchildren] at hp
    cases hp

theorem tracked_of_reach {s : State} (hs : Run.Reach init step Run.Any s) : Tracked s :=
  hs.invariant (fun _ h => tracked_init h) fun _ _ _ _ h _ ht => tracked_step h ht

/-! ## The processes of a job stay linked to it -/

/-- The processes of a stopped job without an entry yet are linked to no other one. -/
def Waiting (s : State) : Prop :=
  ∀ procs, s.pending = some procs → ∀ p ∈ pids procs, ∀ a, s.children p ≠ .entry a

theorem waiting_of_none {s : State} (h : s.pending = none) : Waiting s := by
  intro procs hprocs
  rw [h] at hprocs
  cases hprocs

theorem not_linked_of_fresh {s : State} {procs : List (Pid × String)} (h : Fresh s procs)
    {p : Pid} (hp : p ∈ pids procs) (a : Entry) : s.children p ≠ .entry a := by
  rw [h.2.2 p hp]
  exact nofun

theorem waiting_table {s t : State} {ev : PidReuse.Event} (h : Waiting s)
    (ht : PidReuse.step s ev = some t) : Waiting t := by
  cases steps_of_step ht with
  | single hpending | pipeline hpending | forkFails hpending => exact waiting_of_none hpending
  | @stops procs stopped hfresh =>
      intro procs' hprocs p hp a
      obtain rfl := Option.some.inj hprocs
      change link s.children false 0 (procs.filter fun x => stopped x.1) p ≠ .entry a
      by_cases hstopped : p ∈ pids (procs.filter fun x => stopped x.1)
      · rw [link_of_mem hstopped]
        exact nofun
      · rw [link_of_not_mem hstopped]
        exact not_linked_of_fresh hfresh hp a
  | ends hpending => exact waiting_of_none hpending
  | added => exact waiting_of_none rfl
  | notified =>
      intro procs hprocs p hp a ha
      exact h procs hprocs p hp a (reap_eq ha nofun).1

theorem waiting_step {s t : State} {ev : Event} (h : Waiting s) (ht : step s ev = some t) :
    Waiting t := by
  cases ev with
  | table ev => exact waiting_table h ht
  | resumeBg k =>
      obtain ⟨hpending, ⟨⟩⟩ := Option.ite_none_right_eq_some.mp ht
      exact waiting_of_none hpending
  | resumeMark a | resumeWait a status =>
      obtain ⟨x, hx, ht⟩ := Option.bind_eq_some_iff.mp ht
      obtain ⟨hen, ⟨⟩⟩ := Option.ite_none_right_eq_some.mp ht
      exact waiting_of_none hen.1

theorem waiting_of_reach {s : State} (hs : Run.Reach init step Run.Any s) : Waiting s :=
  hs.invariant (fun _ h => waiting_of_none h.2.2.2) fun _ _ _ _ h _ ht => waiting_step h ht

/-- New links are made for processes that have none. -/
theorem link_kept {children : Pid → Child} {registered : Bool} {i : ℕ}
    {procs : List (Pid × String)} {p : Pid} {a : Entry} (hp : children p = .entry a)
    (hnew : p ∈ pids procs → children p ≠ .entry a) :
    link children registered i procs p = .entry a :=
  (link_of_not_mem fun hin => hnew hin hp).trans hp

theorem linked_table {s t : State} {ev : PidReuse.Event} (h : Waiting s)
    (ht : PidReuse.step s ev = some t) {p : Pid} {a : Entry} (hp : s.children p = .entry a)
    (hlive : ¬Reaps s (.table ev) p) : t.children p = .entry a := by
  cases steps_of_step ht with
  | single _ hfresh | pipeline _ hfresh | forkFails _ hfresh =>
      exact link_kept hp fun hin => not_linked_of_fresh hfresh hin a
  | @stops procs stopped hfresh =>
      refine link_kept hp fun hin => not_linked_of_fresh hfresh ?_ a
      exact List.map_subset Prod.fst (List.filter_subset_self procs) hin
  | ends => exact hp
  | added hpending =>
      refine (if_neg ?_).trans (link_kept hp fun hin => h _ hpending p hin a)
      rw [hp]
      exact nofun
  | notified => exact (reap_of_not hlive).trans hp

theorem linked_step {s t : State} {ev : Event} (h : Waiting s) (ht : step s ev = some t) {p : Pid}
    {a : Entry} (hp : s.children p = .entry a) (hlive : ¬Reaps s ev p) :
    t.children p = .entry a := by
  cases ev with
  | table ev => exact linked_table h ht hp hlive
  | resumeBg k =>
      obtain ⟨-, ⟨⟩⟩ := Option.ite_none_right_eq_some.mp ht
      exact hp
  | resumeMark b =>
      obtain ⟨x, hx, ht⟩ := Option.bind_eq_some_iff.mp ht
      obtain ⟨-, ⟨⟩⟩ := Option.ite_none_right_eq_some.mp ht
      exact hp
  | resumeWait b status =>
      obtain ⟨x, hx, ht⟩ := Option.bind_eq_some_iff.mp ht
      obtain ⟨-, ⟨⟩⟩ := Option.ite_none_right_eq_some.mp ht
      exact (reap_of_not fun hreap => hlive ⟨hreap.1, x, hx, hreap.2⟩).trans hp

/-! ## Finding and entering jobs -/

theorem Tracked.id_eq {s : State} (h : Tracked s) {i : ℕ} {job : Job}
    (hjob : s.jobs[i]? = some job) : job.id = i + 1 := by
  have hid : (s.jobs.map Job.id)[i]? = some job.id := by rw [List.getElem?_map, hjob]; rfl
  obtain ⟨hlt, -⟩ := List.getElem?_eq_some_iff.mp hjob
  rw [h.ids, List.getElem?_range' hlt] at hid
  rw [← Option.some.inj hid]
  omega

theorem findable_of_linked {s : State} (h : Tracked s) {p : Pid} {i j : ℕ}
    (hp : s.children p = .entry (i, j)) : Findable s.jobs (i + 1) p := by
  obtain ⟨x, hx, hpid, halive⟩ := h.linked p (i, j) hp
  obtain ⟨job, hjob, hproc⟩ := Option.bind_eq_some_iff.mp hx
  have hmem : x ∈ job.procs := List.mem_of_getElem? hproc
  have hactive : active job = true :=
    List.any_eq_true.mpr ⟨x, hmem, decide_eq_true halive⟩
  have hid := h.id_eq hjob
  obtain ⟨hlt, hget⟩ := List.getElem?_eq_some_iff.mp hjob
  -- No job in front has the id.
  have hfirst : ∀ k (hk : k < i), (active s.jobs[k] && decide (s.jobs[k].id = i + 1)) = false := by
    intro k hk
    have hidk := h.id_eq (List.getElem?_eq_getElem (Nat.lt_trans hk hlt))
    simp [hidk, Nat.ne_of_lt hk]
  have htest : (active job && decide (job.id = i + 1)) = true := by simp [hactive, hid]
  have hprinted : ∀ text ∈ jobLine job :: (job.procs.filter fun proc =>
      proc.alive ≠ .exited).map procLine, text ∈ printActivities s.jobs := by
    intro text htext
    refine List.mem_flatMap.mpr ⟨job, List.mem_of_getElem? hjob, ?_⟩
    rwa [if_pos hactive]
  refine ⟨i, job, x, hjob, hid, hmem, hpid, ?_, ?_, ?_, ?_⟩
  · apply List.findIdx?_eq_some_iff_getElem.mpr
    exact ⟨hlt, hget ▸ htest, fun k hk => by simp [hfirst k hk]⟩
  · have hfind : s.jobs.find? (fun job => active job && job.id = i + 1) = some job := by
      apply List.find?_eq_some_iff_getElem.mpr
      exact ⟨htest, i, hlt, hget, fun k hk => by simp [hfirst k hk]⟩
    rw [pingJob, hfind]
    rfl
  · exact hprinted _ (List.mem_cons_self ..)
  · apply hprinted
    apply List.mem_cons_of_mem
    exact List.mem_map_of_mem (List.mem_filter.mpr ⟨hmem, decide_eq_true halive⟩)

theorem entered_addJob {s : State} (h : Tracked s) (hroom : s.jobs.length < maxJobs)
    (procs : List (Pid × String)) (v : Alive) {children : Pid → Child}
    (hchildren : ∀ p, children p ≠ .none → children p = (addJob s procs v).children p)
    (pending : Option (List (Pid × String))) :
    Entered s ⟨(addJob s procs v).jobs, (addJob s procs v).next_job_id, children, pending⟩
      procs := by
  refine ⟨_, (addJob_of_room hroom procs v).1, h.next, ?_, ?_, ?_⟩
  · intro old hold
    obtain ⟨i, hi⟩ := List.getElem?_of_mem hold
    obtain ⟨hlt, -⟩ := List.getElem?_eq_some_iff.mp hi
    rw [h.id_eq hi]
    change i + 1 ≠ s.next_job_id
    rw [h.next]
    omega
  · rw [List.map_map]
    exact List.map_id _
  · intro p hp hne
    refine ⟨(pids procs).idxOf p, (hchildren p hne).trans ?_⟩
    rw [children_addJob, link_of_mem hp, if_pos (decide_eq_true hroom)]

theorem entered_of_room {s t : State} (h : Tracked s) {ev : PidReuse.Event}
    {procs : List (Pid × String)} (hev : Launches s ev procs) (hroom : s.jobs.length < maxJobs)
    (ht : PidReuse.step s ev = some t) : Entered s t procs := by
  cases hev with
  | single proc =>
      cases steps_of_step ht with
      | single => exact entered_addJob h hroom _ .running (fun _ _ => rfl) s.pending
  | pipeline procs =>
      cases steps_of_step ht with
      | pipeline => exact entered_addJob h hroom _ .running (fun _ _ => rfl) s.pending
  | stopped hpending =>
      cases steps_of_step ht with
      | added hpending' =>
          obtain rfl := Option.some.inj (hpending.symm.trans hpending')
          apply entered_addJob h hroom _ .stopped
          intro p hp
          split_ifs at hp ⊢
          · exact absurd rfl hp
          · rfl

theorem fresh_single {s : State} (h : ∀ p, s.children p = .none) (p : Pid) (cmd : String) :
    Fresh s [(p, cmd)] :=
  ⟨List.cons_ne_nil _ _, by simp [pids], fun q _ => h q⟩

/-- A session that has run `n` background commands, one after the other. -/
theorem reach_finished (n : ℕ) (hn : n ≤ maxJobs) :
    ∃ s, Run.Reach init step Run.Any s ∧ s.jobs.length = n ∧ s.pending = none ∧
      ∀ p, s.children p = .none := by
  induction n with
  | zero => exact ⟨boot, .start init_boot, rfl, rfl, fun _ => rfl⟩
  | succ n ih =>
      obtain ⟨s, hs, hlen, hpending, hchildren⟩ := ih (Nat.le_of_succ_le hn)
      have hroom : s.jobs.length < maxJobs := hlen ▸ hn
      have hlaunch : step s (.table (.launchBackgroundSingle (n, "true"))) =
          some (addJob s [(n, "true")] .running) := by
        exact if_pos ⟨hpending, fresh_single hchildren n "true"⟩
      have hlinked : (addJob s [(n, "true")] .running).children n ≠ .none := by
        rw [children_addJob, link_of_mem (List.mem_singleton_self n), if_pos (decide_eq_true hroom)]
        exact nofun
      have hexit : step (addJob s [(n, "true")] .running) (.table (.notify n .exited)) = some _ :=
        if_neg hlinked
      refine ⟨_, .next (.next hs trivial hlaunch) trivial hexit, ?_, hpending, ?_⟩
      · change (sigchldHandler (addJob s [(n, "true")] .running).jobs n .exited).1.length = n + 1
        rw [(touched_handler _ n .exited).length, (addJob_of_room hroom _ _).1]
        simp [hlen]
      · intro p
        by_cases hp : p = n
        · exact if_pos ⟨rfl, hp⟩
        · change reap _ n .exited p = .none
          rw [reap_of_not fun h => hp h.2]
          exact (link_of_not_mem fun hin => hp (List.mem_singleton.mp hin)).trans (hchildren p)

end ShellXv6.Shell.JobTracking
