import Mathlib.Data.List.Basic
import Mathlib.Logic.Function.Basic

/-!
# The job table

`jobs` only grows: entries are appended by the launches and by `add_stopped_job`
and never removed.  `sigchld_handler` looks for the pid that `waitpid` returned
from the first entry on and changes the `alive` field it finds.
-/

namespace ShellXv6.Shell

abbrev Pid := ℕ

/-- The field `alive`: 0, 1 or 2. -/
inductive Alive
  | exited
  | running
  | stopped
  deriving DecidableEq

structure JobProc where
  pid : Pid
  cmd : String
  alive : Alive
  deriving DecidableEq

structure Job where
  id : ℕ
  pgid : Pid
  procs : List JobProc
  deriving DecidableEq

def maxJobs : ℕ := 1024

/-- What `waitpid` reports about a child. -/
inductive WaitStatus
  | exited
  | signaled
  | stopped
  | continued
  deriving DecidableEq

def WaitStatus.alive : WaitStatus → Alive
  | .exited => .exited
  | .signaled => .exited
  | .stopped => .stopped
  | .continued => .running

namespace Jobs

/-- The indices of a job and of one of its processes. -/
abbrev Entry := ℕ × ℕ

def entryAt (jobs : List Job) (a : Entry) : Option JobProc :=
  jobs[a.1]?.bind fun job => job.procs[a.2]?

/-- The two nested loops of `sigchld_handler`. -/
def find (p : Pid) : List Job → Option Entry
  | [] => none
  | job :: rest =>
      match job.procs.findIdx? fun proc => proc.pid = p with
      | some j => some (0, j)
      | none => (find p rest).map fun a => (a.1 + 1, a.2)

def setAlive (jobs : List Job) (a : Entry) (v : Alive) : List Job :=
  jobs.modify a.1 fun job =>
    { job with procs := job.procs.modify a.2 fun proc => { proc with alive := v } }

/-- What the handler writes to standard output. -/
def exitMessage (proc : JobProc) : WaitStatus → Option String
  | .exited => some (proc.cmd ++ " with pid " ++ toString proc.pid ++ " exited normally\n")
  | .signaled => some (proc.cmd ++ " with pid " ++ toString proc.pid ++ " exited abnormally\n")
  | _ => none

/-- One round of the loop of `sigchld_handler`, for the pid and the status that
`waitpid` returned. -/
def sigchldHandler (jobs : List Job) (p : Pid) (status : WaitStatus) : List Job × Option String :=
  match find p jobs with
  | none => (jobs, none)
  | some a =>
      (setAlive jobs a status.alive, (entryAt jobs a).bind fun proc => exitMessage proc status)

/-- The registration of a job: in `launch_background_single` and `main` with its
processes running, in `add_stopped_job` with all of them stopped. -/
def register (jobs : List Job) (next_job_id : ℕ) (pgid : Pid) (procs : List (Pid × String))
    (v : Alive) : List Job × ℕ :=
  if jobs.length < maxJobs then
    (jobs ++ [⟨next_job_id, pgid, procs.map fun x => ⟨x.1, x.2, v⟩⟩], next_job_id + 1)
  else (jobs, next_job_id)

/-! ## Entries -/

theorem entryAt_cons_succ (job : Job) (jobs : List Job) (i j : ℕ) :
    entryAt (job :: jobs) (i + 1, j) = entryAt jobs (i, j) := rfl

theorem find_eq_some {p : Pid} {jobs : List Job} {a : Entry} (h : find p jobs = some a) :
    ∃ proc, entryAt jobs a = some proc ∧ proc.pid = p := by
  induction jobs generalizing a with
  | nil => cases h
  | cons job jobs ih =>
      rw [find] at h
      cases hj : job.procs.findIdx? fun proc => proc.pid = p with
      | some j =>
          rw [hj] at h
          obtain rfl := Option.some.inj h
          obtain ⟨hlt, hpid, -⟩ := List.findIdx?_eq_some_iff_getElem.mp hj
          exact ⟨job.procs[j], List.getElem?_eq_getElem hlt, by simpa using hpid⟩
      | none =>
          rw [hj] at h
          obtain ⟨b, hb, rfl⟩ := Option.map_eq_some_iff.mp h
          exact ih hb

theorem find_eq_none {p : Pid} {jobs : List Job} (h : find p jobs = none) {a : Entry}
    {proc : JobProc} (ha : entryAt jobs a = some proc) : proc.pid ≠ p := by
  induction jobs generalizing a with
  | nil => cases ha
  | cons job jobs ih =>
      rw [find] at h
      cases hj : job.procs.findIdx? fun proc => proc.pid = p with
      | some j =>
          rw [hj] at h
          cases h
      | none =>
          rw [hj] at h
          obtain ⟨i, j⟩ := a
          cases i with
          | zero =>
              have hmem := List.mem_of_getElem? ha
              simpa using List.findIdx?_eq_none_iff.mp hj proc hmem
          | succ i =>
              rw [entryAt_cons_succ] at ha
              exact ih (Option.map_eq_none_iff.mp h) ha

theorem entryAt_setAlive (jobs : List Job) (a b : Entry) (v : Alive) :
    entryAt (setAlive jobs a v) b =
      if b = a then (entryAt jobs b).map fun proc => { proc with alive := v }
      else entryAt jobs b := by
  obtain ⟨i, j⟩ := a
  obtain ⟨i', j'⟩ := b
  simp only [entryAt, setAlive, List.getElem?_modify, Prod.mk.injEq]
  by_cases hi : i = i'
  · subst hi
    cases jobs[i]? with
    | none => simp
    | some job =>
        by_cases hj : j = j'
        · subst hj
          simp
        · simp [hj, Ne.symm hj]
  · simp [hi, Ne.symm hi]

theorem entryAt_append (jobs : List Job) (job : Job) (i j : ℕ) :
    entryAt (jobs ++ [job]) (i, j) =
      if i < jobs.length then entryAt jobs (i, j)
      else if i = jobs.length then job.procs[j]? else none := by
  simp only [entryAt]
  split_ifs with hlt heq
  · rw [List.getElem?_append_left hlt]
  · subst heq
    simp
  · rw [List.getElem?_eq_none (by simp; omega)]
    rfl

theorem lt_of_entryAt {jobs : List Job} {i j : ℕ} {proc : JobProc}
    (h : entryAt jobs (i, j) = some proc) : i < jobs.length := by
  by_contra hge
  rw [entryAt, List.getElem?_eq_none (Nat.le_of_not_lt hge)] at h
  cases h

/-! ## Tables without a pid twice -/

def UniquePids (jobs : List Job) : Prop :=
  ∀ a b x y, entryAt jobs a = some x → entryAt jobs b = some y → x.pid = y.pid → a = b

theorem UniquePids.find_eq {jobs : List Job} (h : UniquePids jobs) {a : Entry} {x : JobProc}
    (hx : entryAt jobs a = some x) : find x.pid jobs = some a := by
  cases hfind : find x.pid jobs with
  | none => exact absurd rfl (find_eq_none hfind hx)
  | some b =>
      obtain ⟨y, hy, hpid⟩ := find_eq_some hfind
      rw [h b a y x hy hx hpid]

/-- Here the handler changes the entry with the pid and no other. -/
theorem UniquePids.entryAt_handler {jobs : List Job} (h : UniquePids jobs) (p : Pid)
    (status : WaitStatus) (a : Entry) :
    entryAt (sigchldHandler jobs p status).1 a =
      (entryAt jobs a).map fun x => if x.pid = p then { x with alive := status.alive } else x := by
  cases ha : entryAt jobs a with
  | none =>
      rw [sigchldHandler]
      cases find p jobs with
      | none => exact ha
      | some b => simp [entryAt_setAlive, ha]
  | some x =>
      rw [sigchldHandler]
      by_cases hpid : x.pid = p
      · subst hpid
        rw [h.find_eq ha]
        simp [entryAt_setAlive, ha]
      · cases hfind : find p jobs with
        | none => simp [ha, hpid]
        | some b =>
            obtain ⟨y, hy, rfl⟩ := find_eq_some hfind
            have hab : a ≠ b := by
              rintro rfl
              obtain rfl := Option.some.inj (ha.symm.trans hy)
              exact hpid rfl
            simp [entryAt_setAlive, ha, hab, hpid]

theorem UniquePids.of_pid {jobs jobs' : List Job} (h : UniquePids jobs)
    (hpid : ∀ a y, entryAt jobs' a = some y → ∃ x, entryAt jobs a = some x ∧ y.pid = x.pid) :
    UniquePids jobs' := by
  intro a b x y hx hy heq
  obtain ⟨x', hx', hpx⟩ := hpid a x hx
  obtain ⟨y', hy', hpy⟩ := hpid b y hy
  exact h a b x' y' hx' hy' (by rw [← hpx, ← hpy, heq])

theorem uniquePids_singleton {job : Job} (h : (job.procs.map JobProc.pid).Nodup) :
    UniquePids [job] := by
  have hentry : ∀ {a : Entry} {x},
      entryAt [job] a = some x → a.1 = 0 ∧ job.procs[a.2]? = some x := by
    rintro ⟨i, j⟩ x hx
    cases i with
    | zero => exact ⟨rfl, hx⟩
    | succ i => cases hx
  intro a b x y hx hy hpid
  obtain ⟨ha, hx⟩ := hentry hx
  obtain ⟨hb, hy⟩ := hentry hy
  refine Prod.ext (ha.trans hb.symm) ?_
  obtain ⟨hlt, -⟩ := List.getElem?_eq_some_iff.mp hx
  refine (List.getElem?_inj (by simpa using hlt) h).mp ?_
  rw [List.getElem?_map, List.getElem?_map, hx, hy]
  exact congrArg some hpid

theorem of_entryAt_setAlive {jobs : List Job} {a b : Entry} {v : Alive} {y : JobProc}
    (h : entryAt (setAlive jobs a v) b = some y) :
    ∃ x, entryAt jobs b = some x ∧ y.pid = x.pid ∧ (b = a ∧ y.alive = v ∨ b ≠ a ∧ y = x) := by
  rw [entryAt_setAlive] at h
  split_ifs at h with hab
  · obtain ⟨x, hx, rfl⟩ := Option.map_eq_some_iff.mp h
    exact ⟨x, hx, rfl, Or.inl ⟨hab, rfl⟩⟩
  · exact ⟨y, h, rfl, Or.inr ⟨hab, rfl⟩⟩

theorem UniquePids.of_handler {jobs : List Job} (h : UniquePids jobs) {p : Pid}
    {status : WaitStatus} {a : Entry} {y : JobProc}
    (hy : entryAt (sigchldHandler jobs p status).1 a = some y) :
    ∃ x, entryAt jobs a = some x ∧ y.pid = x.pid ∧
      (x.pid = p ∧ y.alive = status.alive ∨ x.pid ≠ p ∧ y = x) := by
  rw [h.entryAt_handler] at hy
  obtain ⟨x, hx, rfl⟩ := Option.map_eq_some_iff.mp hy
  refine ⟨x, hx, ?_⟩
  by_cases hpid : x.pid = p <;> simp [hpid]

end Jobs

end ShellXv6.Shell
