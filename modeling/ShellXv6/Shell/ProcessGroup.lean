import ShellXv6.Lib.Run
import ShellXv6.Shell.Jobs

/-!
# Process groups in a pipeline

`execute_pipeline` and `execute_pipeline_bg` fork one process for each stage and
put it into the group of the first one, whose id is recorded for the job.  A
stage with an external command runs `execute_external`, which forks once more:
the inner child makes itself the leader of a group of its own before it calls
`execv`.  The model interleaves the shell, the stages and the inner children.
Processes may die at any time; the shell reaps no stage before its loop is over,
as `SIGCHLD` is blocked there, and a stage does not reap its child before it
waits for it.
-/

namespace ShellXv6.Shell.ProcessGroup

/-- Where a process of the pipeline stands; `i` is its stage. -/
inductive Pc
  /-- A stage in front of `setpgid(0, i == 0 ? 0 : pids[0])`. -/
  | join (i : ℕ)
  /-- A stage in front of the `fork` of `execute_external`. -/
  | fork (i : ℕ)
  /-- A stage in front of `setpgid(pid, pid)` for its child. -/
  | adopt (i : ℕ) (child : Pid)
  /-- A stage that waits for its child. -/
  | wait (i : ℕ)
  /-- An inner child in front of `setpgid(0, 0)`. -/
  | lead (i : ℕ)
  /-- An inner child in front of `execv`. -/
  | execv (i : ℕ)
  /-- The program of the stage. -/
  | program (i : ℕ)
  | zombie
  deriving DecidableEq

/-- The child of a stage. -/
def Pc.child : Pc → Bool
  | .lead _ => true
  | .execv _ => true
  | .program _ => true
  | _ => false

def Pc.executed : Pc → Bool
  | .program _ => true
  | _ => false

structure Proc where
  pgid : Pid
  pc : Pc
  deriving DecidableEq

/-- The loop of the shell. -/
inductive ShellPc
  | fork (i : ℕ)
  | setpgid (i : ℕ)
  | done
  deriving DecidableEq

structure State where
  procs : Pid → Option Proc
  /-- The pids that have been given out. -/
  used : List Pid
  /-- The array `pids` of the shell. -/
  pids : List Pid
  shell : ShellPc

/-- The group of the shell, which is a process of its own. -/
def shellPgid : Pid := 1

/-- The system may give a new process any pid that is neither a pid nor a group. -/
def Fresh (s : State) (p : Pid) : Prop :=
  p ≠ shellPgid ∧ s.procs p = none ∧ ∀ q ∈ s.used, ∀ x ∈ s.procs q, x.pgid ≠ p

instance (s : State) (p : Pid) : Decidable (Fresh s p) := inferInstanceAs (Decidable (_ ∧ _ ∧ _))

def groupExists (s : State) (g : Pid) : Bool :=
  s.used.any fun q => (s.procs q).any fun x => x.pgid = g

/-- The group of process `p` after the call `setpgid(p, g)`, which fails if there
is no such group. -/
def setpgid (s : State) (p old g : Pid) : Pid := if g = p ∨ groupExists s g = true then g else old

def setProc (s : State) (p : Pid) (x : Proc) : State :=
  { s with procs := Function.update s.procs p (some x) }

def newProc (s : State) (p : Pid) (x : Proc) : State :=
  { s with procs := Function.update s.procs p (some x), used := p :: s.used }

def setShell (s : State) (pc : ShellPc) : State :=
  { s with shell := pc }

/-- Some stage has still to call `setpgid` for the child `q`. -/
def adopting (s : State) (q : Pid) : Bool :=
  s.used.any fun p =>
    match s.procs p with
    | some ⟨_, .adopt _ child⟩ => child = q
    | _ => false

inductive Event
  | shellFork (p : Pid)
  | shellForkFails
  | shellSetpgid
  | stageJoin (p : Pid)
  | stageFork (p child : Pid)
  | stageAdopt (p : Pid)
  | childLead (p : Pid)
  | childExecv (p : Pid)
  | die (p : Pid)
  | reap (p : Pid)

/-- A pipeline of `n` external commands. -/
def step (n : ℕ) (s : State) : Event → Option State
  | .shellFork p =>
      match s.shell with
      | .fork i =>
          if Fresh s p then
            some { s with
              procs := Function.update s.procs p (some ⟨shellPgid, .join i⟩)
              used := p :: s.used
              pids := s.pids ++ [p]
              shell := .setpgid i }
          else none
      | _ => none
  | .shellForkFails =>
      match s.shell with
      | .fork _ => some (setShell s .done)
      | _ => none
  | .shellSetpgid =>
      match s.shell, s.pids.getLast?, s.pids.head? with
      | .setpgid i, some p, some first =>
          (s.procs p).map fun x =>
            setShell (setProc s p ⟨setpgid s p x.pgid (if i = 0 then p else first), x.pc⟩)
              (if i + 1 < n then .fork (i + 1) else .done)
      | _, _, _ => none
  | .stageJoin p =>
      match s.procs p, s.pids.head? with
      | some ⟨g, .join i⟩, some first =>
          some (setProc s p ⟨setpgid s p g (if i = 0 then p else first), .fork i⟩)
      | _, _ => none
  | .stageFork p child =>
      match s.procs p with
      | some ⟨g, .fork i⟩ =>
          if Fresh s child then
            some (setProc (newProc s child ⟨g, .lead i⟩) p ⟨g, .adopt i child⟩)
          else none
      | _ => none
  | .stageAdopt p =>
      match s.procs p with
      | some ⟨g, .adopt i child⟩ =>
          -- The call fails for a child that has already called `execv`.
          (s.procs child).map fun y =>
            let pgid := if y.pc.executed then y.pgid else setpgid s child y.pgid child
            setProc (setProc s child ⟨pgid, y.pc⟩) p ⟨g, .wait i⟩
      | _ => none
  | .childLead p =>
      match s.procs p with
      | some ⟨g, .lead i⟩ => some (setProc s p ⟨setpgid s p g p, .execv i⟩)
      | _ => none
  | .childExecv p =>
      match s.procs p with
      | some ⟨g, .execv i⟩ => some (setProc s p ⟨g, .program i⟩)
      | _ => none
  | .die p => (s.procs p).map fun x => setProc s p ⟨x.pgid, .zombie⟩
  | .reap p =>
      match s.procs p with
      | some ⟨_, .zombie⟩ =>
          if (s.shell = .done ∨ p ∉ s.pids) ∧ adopting s p = false then
            some { s with procs := Function.update s.procs p none }
          else none
      | _ => none

def init (s : State) : Prop :=
  (∀ p, s.procs p = none) ∧ s.used = [] ∧ s.pids = [] ∧ s.shell = .fork 0

/-- Every process that is about to call `execv` belongs to the group that is
recorded for the job, so that a signal to the group reaches it. -/
def SignalsReachPrograms (n : ℕ) : Prop :=
  ∀ s, Run.Reach init (step n) Run.Any s → ∀ p x i, s.procs p = some x → x.pc = .execv i →
    s.pids.head? = some x.pgid

/-! ## The invariant -/

/-- A child of a stage, or what is left of it. -/
def Pc.inner (pc : Pc) : Prop := pc.child = true ∨ pc = .zombie

/-- The group of a process at its point of the code. -/
def Placed (s : State) (p : Pid) (x : Proc) : Prop :=
  match x.pc with
  | .join i =>
      if i = 0 then s.pids.head? = some p
      else s.shell = .setpgid i ∧ s.pids.getLast? = some p ∨ s.pids.head? = some x.pgid
  | .fork _ => s.pids.head? = some x.pgid
  | .adopt _ child => s.pids.head? ≠ some child ∧ ∃ y, s.procs child = some y ∧ y.pc.inner
  | .lead _ => s.pids.head? ≠ some p
  | .execv _ => x.pgid = p ∧ s.pids.head? ≠ some p
  | _ => True

/-- The shell has made as many stages as its index says. -/
def InLoop (s : State) : Prop :=
  match s.shell with
  | .fork i => s.pids.length = i
  | .setpgid i => s.pids.length = i + 1
  | .done => True

structure Inv (s : State) : Prop where
  used : ∀ p x, s.procs p = some x → p ∈ s.used
  placed : ∀ p x, s.procs p = some x → Placed s p x
  inLoop : InLoop s
  stages : s.shell ≠ .done → ∀ p ∈ s.pids, ∃ x, s.procs p = some x ∧ x.pc.child = false ∧
    (s.pids.head? = some p → s.shell = .setpgid 0 ∨ x.pgid = p)
  empty : s.pids = [] → ∀ p, s.procs p = none

theorem inv_init {s : State} (h : init s) : Inv s := by
  obtain ⟨hprocs, -, hpids, hshell⟩ := h
  refine ⟨?_, ?_, ?_, ?_, fun _ => hprocs⟩
  · intro p x hx
    rw [hprocs] at hx
    cases hx
  · intro p x hx
    rw [hprocs] at hx
    cases hx
  · rw [InLoop, hshell, hpids]
    rfl
  · intro _ p hp
    rw [hpids] at hp
    cases hp

section

variable {s t : State} {p : Pid} {x : Proc}

theorem Placed.congr (h : Placed s p x) (hhead : t.pids.head? = s.pids.head?)
    (hjoin : ∀ i, i ≠ 0 → x.pc = .join i → s.shell = .setpgid i → s.pids.getLast? = some p →
      t.shell = .setpgid i ∧ t.pids.getLast? = some p ∨ s.pids.head? = some x.pgid)
    (hadopt : ∀ i child y, x.pc = .adopt i child → s.procs child = some y → y.pc.inner →
      ∃ z, t.procs child = some z ∧ z.pc.inner) : Placed t p x := by
  obtain ⟨g, pc⟩ := x
  cases pc with
  | join i =>
      simp only [Placed, hhead] at h ⊢
      by_cases hi : i = 0
      · simpa only [hi, if_true] using h
      · simp only [hi, if_false] at h ⊢
        rcases h with ⟨hshell, hlast⟩ | hpgid
        · exact hjoin i hi rfl hshell hlast
        · exact Or.inr hpgid
  | adopt i child =>
      obtain ⟨hne, y, hy, hpc⟩ := h
      exact ⟨hhead ▸ hne, hadopt i child y rfl hy hpc⟩
  | fork | lead | execv =>
      simpa only [Placed, hhead] using h
  | wait | program | zombie =>
      trivial

theorem setProc_self : (setProc s p x).procs p = some x :=
  Function.update_self _ _ _

theorem setProc_of_ne {q : Pid} (h : q ≠ p) : (setProc s p x).procs q = s.procs q :=
  Function.update_of_ne h _ _

/-- One process goes on. -/
theorem Inv.set (h : Inv s) {x' : Proc} (hp : s.procs p = some x)
    (hchild : x.pc.child = false → x'.pc.child = false) (hinner : x.pc.inner → x'.pc.inner)
    (hplaced : Placed (setProc s p x') p x')
    (hfirst : s.pids.head? = some p → x'.pgid = x.pgid ∨ x'.pgid = p) : Inv (setProc s p x') := by
  refine ⟨?_, ?_, h.inLoop, ?_, ?_⟩
  · intro q y hy
    by_cases hq : q = p
    · exact hq ▸ h.used p x hp
    · rw [setProc_of_ne hq] at hy
      exact h.used q y hy
  · intro q y hy
    by_cases hq : q = p
    · subst hq
      rw [setProc_self] at hy
      obtain rfl := Option.some.inj hy
      exact hplaced
    · rw [setProc_of_ne hq] at hy
      refine (h.placed q y hy).congr rfl (fun i _ _ hshell hlast => Or.inl ⟨hshell, hlast⟩)
        fun i r z _ hz hpc => ?_
      by_cases hr : r = p
      · subst hr
        obtain rfl := Option.some.inj (hp.symm.trans hz)
        exact ⟨x', setProc_self, hinner hpc⟩
      · exact ⟨z, (setProc_of_ne hr).trans hz, hpc⟩
  · intro hshell q hq
    obtain ⟨y, hy, hpc, hpgid⟩ := h.stages hshell q hq
    by_cases hqp : q = p
    · subst hqp
      obtain rfl := Option.some.inj (hp.symm.trans hy)
      refine ⟨x', setProc_self, hchild hpc, fun hhead => (hpgid hhead).imp_right fun heq => ?_⟩
      rcases hfirst hhead with hx' | hx'
      · rw [hx', heq]
      · exact hx'
    · exact ⟨y, (setProc_of_ne hqp).trans hy, hpc, hpgid⟩
  · intro hpids
    rw [h.empty hpids p] at hp
    cases hp

theorem Inv.groupExists (h : Inv s) (hx : s.procs p = some x) :
    groupExists s x.pgid = true := by
  refine List.any_eq_true.mpr ⟨p, h.used p x hx, ?_⟩
  simp [hx]

/-- The group of the job is there as long as a stage may want to join it. -/
theorem Inv.groupExists_first (h : Inv s) {first : Pid} {i : ℕ} (hp : s.procs p = some x)
    (hpc : x.pc = .join i) (hi : i ≠ 0) (hfirst : s.pids.head? = some first) :
    ProcessGroup.groupExists s first = true := by
  have hplaced := h.placed p x hp
  simp only [Placed, hpc, hi, if_false] at hplaced
  rcases hplaced with ⟨hshell, -⟩ | hpgid
  · obtain ⟨y, hy, -, hgroup⟩ :=
      h.stages (by rw [hshell]; exact nofun) first (List.mem_of_mem_head? hfirst)
    rcases hgroup hfirst with hset | hgroup
    · rw [hshell] at hset
      cases hset
      exact absurd rfl hi
    · exact hgroup ▸ h.groupExists hy
  · obtain rfl := Option.some.inj (hfirst.symm.trans hpgid)
    exact h.groupExists hp

theorem setpgid_self (old : Pid) : setpgid s p old p = p :=
  if_pos (Or.inl rfl)

theorem setpgid_of_groupExists {g : Pid} (hg : groupExists s g = true) (old : Pid) :
    setpgid s p old g = g :=
  if_pos (Or.inr hg)

theorem setpgid_eq_self (g : Pid) : setpgid s p g g = g :=
  ite_self _

theorem Inv.ne_nil (h : Inv s) (hx : s.procs p = some x) : s.pids ≠ [] := by
  intro hpids
  rw [h.empty hpids p] at hx
  cases hx

/-! ## The shell -/

theorem Inv.shellFork (h : Inv s) {i : ℕ} (hshell : s.shell = .fork i) (hfresh : Fresh s p)
    (hself : t.procs p = some ⟨shellPgid, .join i⟩) (hother : ∀ q, q ≠ p → t.procs q = s.procs q)
    (hused : t.used = p :: s.used) (hpids : t.pids = s.pids ++ [p]) (hset : t.shell = .setpgid i) :
    Inv t := by
  have hlen : s.pids.length = i := by
    have hloop := h.inLoop
    rwa [InLoop, hshell] at hloop
  have hstages := h.stages (by rw [hshell]; exact nofun)
  have hold : ∀ {q y}, s.procs q = some y → q ≠ p := by
    rintro q y hy rfl
    rw [hfresh.2.1] at hy
    cases hy
  have hhead : s.pids ≠ [] → t.pids.head? = s.pids.head? := by
    intro hne
    rw [hpids, List.head?_append, Option.or_of_isSome (List.isSome_head?.mpr hne)]
  refine ⟨?_, ?_, ?_, ?_, ?_⟩
  · intro q y hy
    rw [hused]
    by_cases hq : q = p
    · exact List.mem_cons.mpr (Or.inl hq)
    · rw [hother q hq] at hy
      exact List.mem_cons_of_mem p (h.used q y hy)
  · intro q y hy
    by_cases hq : q = p
    · subst hq
      obtain rfl := Option.some.inj (hself.symm.trans hy)
      by_cases hi : i = 0
      · have hnil : s.pids = [] := List.eq_nil_of_length_eq_zero (hlen.trans hi)
        simp [Placed, hi, hpids, hnil]
      · simp [Placed, hi, hpids, hset]
    · rw [hother q hq] at hy
      refine (h.placed q y hy).congr (hhead (h.ne_nil hy)) ?_ fun j r z _ hz hpc => ?_
      · intro j _ _ hj
        rw [hshell] at hj
        cases hj
      · exact ⟨z, (hother r (hold hz)).trans hz, hpc⟩
  · simp [InLoop, hset, hpids, hlen]
  · intro _ q hq
    rw [hpids] at hq
    rcases List.mem_append.mp hq with hq | hq
    · obtain ⟨y, hy, hpc, hpgid⟩ := hstages q hq
      refine ⟨y, (hother q (hold hy)).trans hy, hpc, fun hfirst => ?_⟩
      rw [hhead (h.ne_nil hy)] at hfirst
      rcases hpgid hfirst with hset | hpgid
      · rw [hshell] at hset
        cases hset
      · exact Or.inr hpgid
    · obtain rfl := List.mem_singleton.mp hq
      refine ⟨_, hself, rfl, fun hfirst => Or.inl ?_⟩
      cases hnil : s.pids with
      | nil =>
          rw [hset, ← hlen, hnil]
          rfl
      | cons first rest =>
          -- The first stage is still there, so the new pid is not its pid.
          have hmem : q ∈ s.pids :=
            List.mem_of_mem_head? ((hhead (by simp [hnil])).symm.trans hfirst)
          obtain ⟨y, hy, -⟩ := hstages q hmem
          exact absurd rfl (hold hy)
  · intro hnil
    rw [hpids] at hnil
    exact absurd hnil (by simp)

theorem Inv.setShell (h : Inv s) {pc : ShellPc} (hloop : InLoop (setShell s pc))
    (hne : s.shell ≠ .done)
    (hjoin : ∀ p x i, i ≠ 0 → s.procs p = some x → x.pc = .join i → s.shell = .setpgid i →
      s.pids.getLast? = some p → s.pids.head? = some x.pgid)
    (hfirst : ∀ p x, s.shell = .setpgid 0 → s.procs p = some x → s.pids.head? = some p →
      x.pgid = p) : Inv (setShell s pc) := by
  refine ⟨h.used, ?_, hloop, ?_, h.empty⟩
  · intro p x hx
    exact (h.placed p x hx).congr rfl
      (fun i hi hpc hshell hlast => Or.inr (hjoin p x i hi hx hpc hshell hlast))
      fun i q y _ hy hpc => ⟨y, hy, hpc⟩
  · intro _ p hp
    obtain ⟨x, hx, hpc, hpgid⟩ := h.stages hne p hp
    refine ⟨x, hx, hpc, fun hhead => Or.inr ?_⟩
    rcases hpgid hhead with hset | hpgid
    · exact hfirst p x hset hx hhead
    · exact hpgid

theorem Inv.eq_first (h : Inv s) {first : Pid} (hshell : s.shell = .setpgid 0)
    (hlast : s.pids.getLast? = some p) (hhead : s.pids.head? = some first) : p = first := by
  have hlen : s.pids.length = 1 := by
    have hloop := h.inLoop
    rwa [InLoop, hshell] at hloop
  obtain ⟨q, hq⟩ := List.length_eq_one_iff.mp hlen
  rw [hq] at hlast hhead
  exact (Option.some.inj hlast).symm.trans (Option.some.inj hhead)

theorem Placed.setPgid (h : Placed s p x) (hp : s.procs p = some x) (hchild : x.pc.child = false)
    {g : Pid} (hg : s.pids.head? = some x.pgid → s.pids.head? = some g) :
    Placed (setProc s p ⟨g, x.pc⟩) p ⟨g, x.pc⟩ := by
  obtain ⟨old, pc⟩ := x
  cases pc with
  | join i =>
      by_cases hi : i = 0
      · simp only [Placed, hi, if_true] at h ⊢
        exact h
      · simp only [Placed, hi, if_false] at h ⊢
        exact h.imp_right hg
  | fork i =>
      exact hg h
  | adopt i child =>
      obtain ⟨hne, y, hy, hpc⟩ := h
      refine ⟨hne, y, (setProc_of_ne ?_).trans hy, hpc⟩
      rintro rfl
      obtain rfl := Option.some.inj (hp.symm.trans hy)
      rcases hpc with hpc | hpc <;> cases hpc
  | wait | zombie =>
      trivial
  | lead | execv | program =>
      cases hchild

/-- The call of the shell for the stage it has just made. -/
theorem Inv.shellSetpgid (h : Inv s) {i : ℕ} {first : Pid} {pc : ShellPc}
    (hshell : s.shell = .setpgid i) (hlast : s.pids.getLast? = some p)
    (hhead : s.pids.head? = some first) (hp : s.procs p = some x)
    (hloop : InLoop (ProcessGroup.setShell s pc)) :
    Inv (ProcessGroup.setShell
      (setProc s p ⟨setpgid s p x.pgid (if i = 0 then p else first), x.pc⟩) pc) := by
  have hne : s.shell ≠ .done := by
    rw [hshell]
    exact nofun
  obtain ⟨y, hy, hchild, -⟩ := h.stages hne p (List.mem_of_getLast? hlast)
  obtain rfl := Option.some.inj (hp.symm.trans hy)
  generalize hg : setpgid s p x.pgid (if i = 0 then p else first) = g
  have hzero : i = 0 → g = first := by
    rintro rfl
    rw [← hg, if_pos rfl, setpgid_self, h.eq_first hshell hlast hhead]
  have hset : Inv (setProc s p ⟨g, x.pc⟩) := by
    refine h.set hp id id ((h.placed p x hp).setPgid hp hchild fun hx => ?_) fun hhead' => ?_
    · obtain rfl := Option.some.inj (hhead.symm.trans hx)
      by_cases hi : i = 0
      · rw [hhead, hzero hi]
      · rw [hhead, ← hg, if_neg hi, setpgid_eq_self]
    · obtain rfl := Option.some.inj (hhead.symm.trans hhead')
      rw [← hg, ite_self, setpgid_self]
      exact Or.inr rfl
  refine hset.setShell hloop hne ?_ ?_
  · intro q y j hj hy hpc hshell' hlast'
    obtain rfl := Option.some.inj (hlast.symm.trans hlast')
    obtain rfl := Option.some.inj (setProc_self.symm.trans hy)
    cases hshell.symm.trans hshell'
    change s.pids.head? = some g
    rw [hhead, ← hg, if_neg hj, setpgid_of_groupExists (h.groupExists_first hp hpc hj hhead)]
  · intro q y hshell' hy hhead'
    cases hshell.symm.trans hshell'
    obtain rfl := Option.some.inj (hhead.symm.trans hhead')
    obtain rfl := h.eq_first hshell hlast hhead
    obtain rfl := Option.some.inj (setProc_self.symm.trans hy)
    exact hzero rfl

/-! ## The stages and their children -/

theorem Inv.stageJoin (h : Inv s) {i : ℕ} {g first : Pid} (hp : s.procs p = some ⟨g, .join i⟩)
    (hhead : s.pids.head? = some first) :
    Inv (setProc s p ⟨setpgid s p g (if i = 0 then p else first), .fork i⟩) := by
  have hjoined : setpgid s p g (if i = 0 then p else first) = first := by
    by_cases hi : i = 0
    · have hplaced := h.placed p _ hp
      simp only [Placed, hi, if_true] at hplaced
      rw [if_pos hi, setpgid_self]
      exact Option.some.inj (hplaced.symm.trans hhead)
    · rw [if_neg hi, setpgid_of_groupExists (h.groupExists_first hp rfl hi hhead)]
  rw [hjoined]
  refine h.set hp (fun _ => rfl) ?_ hhead fun hhead' => Or.inr ?_
  · rintro (hpc | hpc) <;> cases hpc
  · exact Option.some.inj (hhead.symm.trans hhead')

theorem Inv.newProc (h : Inv s) {i : ℕ} {g child : Pid} (hpids : s.pids ≠ [])
    (hfresh : s.procs child = none) (hchild : s.pids.head? ≠ some child) :
    Inv (newProc s child ⟨g, .lead i⟩) := by
  have hself : (ProcessGroup.newProc s child ⟨g, .lead i⟩).procs child = some ⟨g, .lead i⟩ :=
    Function.update_self _ _ _
  have hold : ∀ {q y}, s.procs q = some y →
      (ProcessGroup.newProc s child ⟨g, .lead i⟩).procs q = some y := by
    intro q y hy
    refine (Function.update_of_ne ?_ _ _).trans hy
    rintro rfl
    rw [hfresh] at hy
    cases hy
  have hcases : ∀ {q y}, (ProcessGroup.newProc s child ⟨g, .lead i⟩).procs q = some y →
      q = child ∧ y = ⟨g, .lead i⟩ ∨ s.procs q = some y := by
    intro q y hy
    by_cases hq : q = child
    · subst hq
      rw [hself] at hy
      exact Or.inl ⟨rfl, (Option.some.inj hy).symm⟩
    · exact Or.inr ((Function.update_of_ne hq _ _).symm.trans hy)
  refine ⟨?_, ?_, h.inLoop, ?_, fun hnil => absurd hnil hpids⟩
  · intro q y hy
    rcases hcases hy with ⟨rfl, -⟩ | hy
    · exact List.mem_cons_self
    · exact List.mem_cons_of_mem child (h.used q y hy)
  · intro q y hy
    rcases hcases hy with ⟨rfl, rfl⟩ | hy
    · exact hchild
    · exact (h.placed q y hy).congr rfl (fun i _ _ hshell hlast => Or.inl ⟨hshell, hlast⟩)
        fun i r z _ hz hpc => ⟨z, hold hz, hpc⟩
  · intro hshell q hq
    obtain ⟨y, hy, hpc, hpgid⟩ := h.stages hshell q hq
    exact ⟨y, hold hy, hpc, hpgid⟩

theorem Inv.stageFork (h : Inv s) {i : ℕ} {g child : Pid} (hp : s.procs p = some ⟨g, .fork i⟩)
    (hfresh : Fresh s child) :
    Inv (setProc (ProcessGroup.newProc s child ⟨g, .lead i⟩) p ⟨g, .adopt i child⟩) := by
  have hg : s.pids.head? = some g := h.placed p _ hp
  have hchild : s.pids.head? ≠ some child := by
    rw [hg]
    exact fun heq => hfresh.2.2 p (h.used p _ hp) _ hp (Option.some.inj heq)
  have hne : child ≠ p := by
    rintro rfl
    rw [hfresh.2.1] at hp
    cases hp
  have hnew := h.newProc (i := i) (g := g) (h.ne_nil hp) hfresh.2.1 hchild
  refine hnew.set ((Function.update_of_ne hne.symm _ _).trans hp) (fun _ => rfl) ?_ ?_
    fun _ => Or.inl rfl
  · rintro (hpc | hpc) <;> cases hpc
  · exact ⟨hchild, _, (setProc_of_ne hne).trans (Function.update_self _ _ _), Or.inl rfl⟩

theorem Inv.stageAdopt (h : Inv s) {i : ℕ} {g g' child : Pid} {y : Proc}
    (hp : s.procs p = some ⟨g, .adopt i child⟩) (hy : s.procs child = some y)
    (hg' : g' = y.pgid ∨ g' = child) :
    Inv (setProc (setProc s child ⟨g', y.pc⟩) p ⟨g, .wait i⟩) := by
  obtain ⟨hchild, z, hz, hinner⟩ := h.placed p _ hp
  obtain rfl := Option.some.inj (hz.symm.trans hy)
  have hne : p ≠ child := by
    rintro rfl
    obtain rfl := Option.some.inj (hp.symm.trans hy)
    rcases hinner with hpc | hpc <;> cases hpc
  have hset : Inv (setProc s child ⟨g', z.pc⟩) := by
    refine h.set hy id id ?_ fun hhead => absurd hhead hchild
    have hplaced := h.placed child z hy
    obtain ⟨old, pc⟩ := z
    cases pc with
    | lead =>
        exact hchild
    | execv =>
        refine ⟨?_, hchild⟩
        rcases hg' with rfl | rfl
        · exact hplaced.1
        · rfl
    | program | zombie =>
        trivial
    | join | fork | adopt | wait =>
        rcases hinner with hpc | hpc <;> cases hpc
  refine hset.set ((setProc_of_ne hne).trans hp) (fun _ => rfl) ?_ trivial fun _ => Or.inl rfl
  rintro (hpc | hpc) <;> cases hpc

theorem Inv.childLead (h : Inv s) {i : ℕ} {g : Pid} (hp : s.procs p = some ⟨g, .lead i⟩) :
    Inv (setProc s p ⟨setpgid s p g p, .execv i⟩) := by
  rw [setpgid_self]
  exact h.set hp nofun (fun _ => Or.inl rfl) ⟨rfl, h.placed p _ hp⟩ fun _ => Or.inr rfl

theorem Inv.childExecv (h : Inv s) {i : ℕ} {g : Pid} (hp : s.procs p = some ⟨g, .execv i⟩) :
    Inv (setProc s p ⟨g, .program i⟩) :=
  h.set hp nofun (fun _ => Or.inl rfl) trivial fun _ => Or.inl rfl

theorem Inv.reap (h : Inv s) (hp : s.procs p = some x) (hreap : s.shell = .done ∨ p ∉ s.pids)
    (hadopt : adopting s p = false) (hself : t.procs p = none)
    (hother : ∀ q, q ≠ p → t.procs q = s.procs q) (hused : t.used = s.used)
    (hpids : t.pids = s.pids) (hshell : t.shell = s.shell) : Inv t := by
  have hcases : ∀ {q y}, t.procs q = some y → s.procs q = some y := by
    intro q y hy
    by_cases hq : q = p
    · rw [hq, hself] at hy
      cases hy
    · exact (hother q hq).symm.trans hy
  refine ⟨?_, ?_, ?_, ?_, ?_⟩
  · intro q y hy
    exact hused ▸ h.used q y (hcases hy)
  · intro q y hy
    refine (h.placed q y (hcases hy)).congr (congrArg List.head? hpids)
      (fun i _ _ hset hlast => Or.inl ⟨hshell.trans hset, hpids ▸ hlast⟩)
      fun i r z hpc hz hinner => ?_
    refine ⟨z, (hother r ?_).trans hz, hinner⟩
    rintro rfl
    have hadopting : adopting s r = true := by
      refine List.any_eq_true.mpr ⟨q, h.used q y (hcases hy), ?_⟩
      obtain ⟨g, pc⟩ := y
      obtain rfl : pc = .adopt i r := hpc
      simp [hcases hy]
    rw [hadopt] at hadopting
    cases hadopting
  · have hloop := h.inLoop
    rw [InLoop, hshell, hpids]
    exact hloop
  · intro hne q hq
    rw [hshell] at hne
    rw [hpids] at hq
    obtain ⟨y, hy, hpc, hpgid⟩ := h.stages hne q hq
    rw [hpids, hshell]
    refine ⟨y, (hother q ?_).trans hy, hpc, hpgid⟩
    rintro rfl
    exact (hreap.resolve_left hne) hq
  · intro hnil
    exact absurd (hpids ▸ hnil) (h.ne_nil hp)

end

theorem inv_step {n : ℕ} {s t : State} {e : Event} (h : Inv s) (ht : step n s e = some t) :
    Inv t := by
  cases e with
  | shellFork p =>
      cases hshell : s.shell with
      | fork i =>
          simp only [step, hshell, Option.ite_none_right_eq_some, Option.some.injEq] at ht
          obtain ⟨hfresh, rfl⟩ := ht
          exact h.shellFork hshell hfresh (Function.update_self _ _ _)
            (fun q hq => Function.update_of_ne hq _ _) rfl rfl rfl
      | setpgid | done =>
          simp only [step, hshell] at ht
          cases ht
  | shellForkFails =>
      cases hshell : s.shell with
      | fork i =>
          simp only [step, hshell, Option.some.injEq] at ht
          subst ht
          refine h.setShell trivial ?_ ?_ ?_ <;> rw [hshell] <;> exact nofun
      | setpgid | done =>
          simp only [step, hshell] at ht
          cases ht
  | shellSetpgid =>
      cases hshell : s.shell with
      | setpgid i =>
          cases hlast : s.pids.getLast? with
          | none =>
              simp only [step, hshell, hlast] at ht
              cases ht
          | some p =>
              cases hhead : s.pids.head? with
              | none =>
                  simp only [step, hshell, hlast, hhead] at ht
                  cases ht
              | some first =>
                  simp only [step, hshell, hlast, hhead, Option.map_eq_some_iff] at ht
                  obtain ⟨x, hp, rfl⟩ := ht
                  refine h.shellSetpgid hshell hlast hhead hp ?_
                  have hloop := h.inLoop
                  rw [InLoop, hshell] at hloop
                  by_cases hi : i + 1 < n
                  · rw [if_pos hi]
                    exact hloop
                  · rw [if_neg hi]
                    trivial
      | fork | done =>
          simp only [step, hshell] at ht
          cases ht
  | stageJoin p =>
      simp only [step] at ht
      split at ht
      · cases ht
        exact h.stageJoin ‹_› ‹_›
      · cases ht
  | stageFork p child =>
      simp only [step] at ht
      split at ht
      · simp only [Option.ite_none_right_eq_some, Option.some.injEq] at ht
        obtain ⟨hfresh, rfl⟩ := ht
        exact h.stageFork ‹_› hfresh
      · cases ht
  | stageAdopt p =>
      simp only [step] at ht
      split at ht
      · obtain ⟨y, hy, rfl⟩ := Option.map_eq_some_iff.mp ht
        refine h.stageAdopt ‹_› hy ?_
        rw [setpgid_self]
        cases y.pc.executed <;> simp
      · cases ht
  | childLead p =>
      simp only [step] at ht
      split at ht
      · cases ht
        exact h.childLead ‹_›
      · cases ht
  | childExecv p =>
      simp only [step] at ht
      split at ht
      · cases ht
        exact h.childExecv ‹_›
      · cases ht
  | die p =>
      obtain ⟨x, hp, rfl⟩ := Option.map_eq_some_iff.mp ht
      exact h.set hp (fun _ => rfl) (fun _ => Or.inr rfl) trivial fun _ => Or.inl rfl
  | reap p =>
      simp only [step] at ht
      split at ht
      · simp only [Option.ite_none_right_eq_some, Option.some.injEq] at ht
        obtain ⟨⟨hreap, hadopt⟩, rfl⟩ := ht
        exact h.reap ‹_› hreap hadopt (Function.update_self _ _ _)
          (fun q hq => Function.update_of_ne hq _ _) rfl rfl rfl
      · cases ht

theorem inv_of_reach {n : ℕ} {s : State} (h : Run.Reach init (step n) Run.Any s) : Inv s :=
  h.invariant (fun _ => inv_init) fun _ _ _ _ hs _ ht => inv_step hs ht

def start : State := ⟨fun _ => none, [], [], .fork 0⟩

theorem reach_start (n : ℕ) : Run.Reach init (step n) Run.Any start :=
  .start ⟨fun _ => rfl, rfl, rfl, rfl⟩

/-- In no pipeline does a process call `execv` in the group of its job. -/
theorem execv_outside_job (n : ℕ) :
    ¬SignalsReachPrograms (n + 2) ∧
      ∀ s, Run.Reach init (step (n + 2)) Run.Any s → ∀ p x i, s.procs p = some x →
        x.pc = .execv i → s.pids.head? ≠ some x.pgid := by
  have houtside : ∀ s, Run.Reach init (step (n + 2)) Run.Any s → ∀ p x i, s.procs p = some x →
      x.pc = .execv i → s.pids.head? ≠ some x.pgid := by
    intro s hs p x i hx hpc
    have hplaced := (inv_of_reach hs).placed p x hx
    rw [Placed, hpc] at hplaced
    rw [hplaced.1]
    exact hplaced.2
  refine ⟨fun hgroup => ?_, houtside⟩
  have hreach := (reach_start (n + 2)).exec
    [.shellFork 2, .stageJoin 2, .stageFork 2 3, .childLead 3] rfl
  exact houtside _ hreach 3 ⟨3, .execv 0⟩ 0 rfl rfl (hgroup _ hreach 3 ⟨3, .execv 0⟩ 0 rfl rfl)

/-- The second stage has pid 3 and joins the group 2 of the job; its program runs
as process 4 in a group of its own. -/
theorem not_signalsReachPrograms_second_stage : ¬SignalsReachPrograms 2 := by
  intro hgroup
  have hreach := (reach_start 2).exec
    [.shellFork 2, .shellSetpgid, .shellFork 3, .shellSetpgid, .stageJoin 3, .stageFork 3 4,
      .childLead 4] rfl
  exact absurd (hgroup _ hreach 4 ⟨4, .execv 1⟩ 1 rfl rfl) (by decide)

end ShellXv6.Shell.ProcessGroup
