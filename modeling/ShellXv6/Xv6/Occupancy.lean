import ShellXv6.Xv6.Smp

/-!
# Who accounts for a process

Every slot in state `RUNNABLE` is accounted for exactly once: by an entry of
the four queues, or by a CPU that has dequeued it, or by a CPU that is about to
enqueue it.  In the same way one CPU accounts for a `RUNNING` slot and one
`kfork` for a `USED` slot.  Each step moves these tokens, and the invariant
needs no more than the balance of the CPU that moved.
-/

namespace ShellXv6.Xv6.Smp

variable {n : ℕ}

/-! ## Tokens -/

/-- The slot whose lock a control point holds. -/
def Ctl.holds : Ctl → Option Slot
  | .run _ => none
  | .found _ _ => none
  | .crit p _ _ => some p
  | .enqueue p _ => some p
  | .enqueueYield p => some p
  | .release p _ => some p
  | .swtch p => some p
  | .resume p => some p

/-- A runnable slot that is in no queue: just dequeued, or about to be enqueued. -/
def Ctl.readyTok : Ctl → Slot → ℕ
  | .found _ p, x => if p = x then 1 else 0
  | .crit p (.schedule _) _, x => if p = x then 1 else 0
  | .enqueue p _, x => if p = x then 1 else 0
  | .enqueueYield p, x => if p = x then 1 else 0
  | _, _ => 0

/-- A `USED` slot in the hands of `kfork` on this CPU. -/
def Ctl.usedTok : Ctl → Slot → ℕ
  | .crit p .kfork _, x => if p = x then 1 else 0
  | .crit p .kforkWake _, x => if p = x then 1 else 0
  | _, _ => 0

/-- The current process has given up its state `RUNNING`. -/
def Ctl.leaving : Ctl → Bool
  | .enqueueYield _ => true
  | .swtch _ => true
  | _ => false

def Cpu.runTok (c : Cpu) (x : Slot) : ℕ :=
  if c.proc = some x ∧ c.ctl.leaving = false then 1 else 0

/-- A `USED` slot between the two sections of `kfork`. -/
def forkTok (f : Option (Slot × Bool)) (x : Slot) : ℕ :=
  if f.map Prod.fst = some x then 1 else 0

/-- `kfork` is about to obtain a child slot. -/
def Ctl.allocating : Ctl → Bool
  | .crit _ .allocproc _ => true
  | .crit _ .kfork _ => true
  | _ => false

/-- Code of the current process, as opposed to code of the scheduler. -/
def Cont.inThread : Cont → Bool
  | .thread => true
  | .updateTime _ ft => ft
  | .wakeupTicks _ ft => ft
  | .boost _ ft => ft
  | _ => false

/-- Sections that a process runs on its own slot. -/
def Section.own : Section → Bool
  | .yield => true
  | .yieldScan => true
  | .yieldDecide _ => true
  | .sleep _ => true
  | .kexit _ => true
  | _ => false

/-- `c->proc` agrees with the control point. -/
def Cpu.Wf (c : Cpu) : Prop :=
  match c.ctl with
  | .run k => c.proc.isSome = k.inThread
  | .found _ _ => c.proc = none
  | .crit _ (.schedule i) k => c.proc = none ∧ k = .scan i
  | .crit p sec k => c.proc.isSome = k.inThread ∧ (sec.own = true → c.proc = some p)
  | .enqueue _ k => c.proc.isSome = k.inThread
  | .release _ k => c.proc.isSome = k.inThread
  | .enqueueYield p => c.proc = some p
  | .swtch p => c.proc = some p
  | .resume p => c.proc = some p

def tok (a b : ProcState) : ℕ := if a = b then 1 else 0

@[simp] theorem tok_self (a : ProcState) : tok a a = 1 := if_pos rfl

@[simp] theorem tok_of_ne {a b : ProcState} (h : a ≠ b) : tok a b = 0 := if_neg h

/-- One token for a slot in state `st`, none otherwise. -/
def State.ind (s : State n) (st : ProcState) (x : Slot) : ℕ := tok (s.proc x).state st

structure Inv (s : State n) : Prop where
  ready : ∀ x, s.mlfq.occ x + ∑ c, (s.cpu c).ctl.readyTok x = s.ind .RUNNABLE x
  running : ∀ x, ∑ c, (s.cpu c).runTok x = s.ind .RUNNING x
  used : ∀ x, ∑ p, forkTok (s.forking p) x + ∑ c, (s.cpu c).ctl.usedTok x = s.ind .USED x
  level : ∀ x, 0 ≤ (s.proc x).queue ∧ (s.proc x).queue ≤ 3
  nonnull : ∀ q, none ∉ s.mlfq.list q
  wf : ∀ c, (s.cpu c).Wf
  locked : ∀ c p, (s.cpu c).ctl.holds = some p → s.lock p = some c

/-! ## Reading the ledger -/

theorem Ctl.readyTok_of_ne {ctl : Ctl} {p x : Slot} (h : ctl.holds = some p) (hx : x ≠ p) :
    ctl.readyTok x = 0 := by
  unfold Ctl.readyTok
  split <;> simp_all [Ctl.holds, eq_comm]

theorem Ctl.usedTok_of_ne {ctl : Ctl} {p x : Slot} (h : ctl.holds = some p) (hx : x ≠ p) :
    ctl.usedTok x = 0 := by
  unfold Ctl.usedTok
  split <;> simp_all [Ctl.holds, eq_comm]

theorem State.ind_le_one (s : State n) (st : ProcState) (x : Slot) : s.ind st x ≤ 1 := by
  by_cases hst : (s.proc x).state = st <;> simp [State.ind, hst]

theorem State.eq_of_ind_pos {s : State n} {st : ProcState} {x : Slot} (h : 0 < s.ind st x) :
    (s.proc x).state = st := by
  by_contra hne
  simp [State.ind, hne] at h

theorem Inv.state_runnable {s : State n} (h : Inv s) {c : Fin n} {x : Slot}
    (ht : 0 < (s.cpu c).ctl.readyTok x) : (s.proc x).state = .RUNNABLE := by
  have hle := Finset.single_le_sum (f := fun c => (s.cpu c).ctl.readyTok x)
    (fun _ _ => Nat.zero_le _) (Finset.mem_univ c)
  have hsum := h.ready x
  exact State.eq_of_ind_pos (by omega)

theorem Inv.state_running {s : State n} (h : Inv s) {c : Fin n} {x : Slot}
    (hp : (s.cpu c).proc = some x) (hl : (s.cpu c).ctl.leaving = false) :
    (s.proc x).state = .RUNNING := by
  have hle := Finset.single_le_sum (f := fun c => (s.cpu c).runTok x)
    (fun _ _ => Nat.zero_le _) (Finset.mem_univ c)
  have hsum := h.running x
  have hone : (s.cpu c).runTok x = 1 := by simp [Cpu.runTok, hp, hl]
  exact State.eq_of_ind_pos (by omega)

theorem Inv.runs_unique {s : State n} (h : Inv s) {c c' : Fin n} {x : Slot}
    (hp : (s.cpu c).proc = some x) (hl : (s.cpu c).ctl.leaving = false)
    (hp' : (s.cpu c').proc = some x) (hl' : (s.cpu c').ctl.leaving = false) : c = c' := by
  by_contra hne
  have htwo := Finset.add_le_sum (f := fun c => (s.cpu c).runTok x)
    (fun _ _ => Nat.zero_le _) (Finset.mem_univ c) (Finset.mem_univ c') hne
  have hc : (s.cpu c).runTok x = 1 := by simp [Cpu.runTok, hp, hl]
  have hc' : (s.cpu c').runTok x = 1 := by simp [Cpu.runTok, hp', hl']
  have hsum := h.running x
  have hone := s.ind_le_one .RUNNING x
  omega

theorem Inv.state_used {s : State n} (h : Inv s) {c : Fin n} {x : Slot}
    (ht : 0 < (s.cpu c).ctl.usedTok x) : (s.proc x).state = .USED := by
  have hle := Finset.single_le_sum (f := fun c => (s.cpu c).ctl.usedTok x)
    (fun _ _ => Nat.zero_le _) (Finset.mem_univ c)
  have hsum := h.used x
  exact State.eq_of_ind_pos (by omega)

/-- A slot is stored only while it is runnable, and then at most once. -/
theorem Inv.occ_le {s : State n} (h : Inv s) (x : Slot) : s.mlfq.occ x ≤ s.ind .RUNNABLE x := by
  have := h.ready x
  omega

theorem Inv.length_all {s : State n} (h : Inv s) : s.mlfq.all.length = ∑ x, s.mlfq.occ x := by
  have hnull : none ∉ s.mlfq.all := by
    intro hmem
    obtain ⟨q, hq⟩ := (Queues.mem_all _ _).mp hmem
    exact h.nonnull q hq
  rw [Ledger.length_eq_sum_count _ hnull]
  simp only [Queues.count_all]

theorem Inv.total_le {s : State n} (h : Inv s) :
    s.mlfq.all.length + ∑ x, ∑ c, (s.cpu c).ctl.readyTok x ≤ NPROC := by
  calc s.mlfq.all.length + ∑ x, ∑ c, (s.cpu c).ctl.readyTok x
      = ∑ x, s.ind .RUNNABLE x := by
        rw [h.length_all, ← Finset.sum_add_distrib]
        exact Finset.sum_congr rfl fun x _ => h.ready x
    _ ≤ ∑ _x : Slot, 1 := Finset.sum_le_sum fun x _ => s.ind_le_one _ x
    _ = NPROC := by simp

theorem Inv.length_all_le {s : State n} (h : Inv s) : s.mlfq.all.length ≤ NPROC :=
  (Nat.le_add_right _ _).trans h.total_le

/-! ## Balanced steps -/

/-- A step of CPU `c` preserves the invariant when it moves tokens in balance. -/
theorem Inv.move {s t : State n} (h : Inv s) (c : Fin n) (y : Cpu)
    (hcpu : t.cpu = Function.update s.cpu c y)
    (hready : ∀ x, t.mlfq.occ x + y.ctl.readyTok x + s.ind .RUNNABLE x =
      s.mlfq.occ x + (s.cpu c).ctl.readyTok x + t.ind .RUNNABLE x)
    (hrun : ∀ x, y.runTok x + s.ind .RUNNING x = (s.cpu c).runTok x + t.ind .RUNNING x)
    (hused : ∀ x, ∑ p, forkTok (t.forking p) x + y.ctl.usedTok x + s.ind .USED x =
      ∑ p, forkTok (s.forking p) x + (s.cpu c).ctl.usedTok x + t.ind .USED x)
    (hlevel : ∀ x, 0 ≤ (t.proc x).queue ∧ (t.proc x).queue ≤ 3)
    (hnull : ∀ q, none ∉ t.mlfq.list q)
    (hwf : y.Wf)
    (hlock : ∀ c' p, (t.cpu c').ctl.holds = some p → t.lock p = some c') : Inv t where
  ready x := by
    have hs := h.ready x
    have hup := Ledger.sum_update_add (fun z : Cpu => z.ctl.readyTok x) s.cpu c y
    have := hready x
    rw [hcpu]
    omega
  running x := by
    have hs := h.running x
    have hup := Ledger.sum_update_add (fun z : Cpu => z.runTok x) s.cpu c y
    have := hrun x
    rw [hcpu]
    omega
  used x := by
    have hs := h.used x
    have hup := Ledger.sum_update_add (fun z : Cpu => z.ctl.usedTok x) s.cpu c y
    have := hused x
    rw [hcpu]
    omega
  level := hlevel
  nonnull := hnull
  wf c' := by
    rw [hcpu]
    by_cases hc : c' = c
    · subst hc
      simpa using hwf
    · simpa [Function.update_of_ne hc] using h.wf c'
  locked := hlock

/-- A step that leaves processes, queues and forks alone only has to keep the
tokens of its own control point. -/
theorem Inv.moveCtl {s t : State n} (h : Inv s) (c : Fin n) (y : Cpu)
    (hcpu : t.cpu = Function.update s.cpu c y) (hproc : t.proc = s.proc)
    (hmlfq : t.mlfq = s.mlfq) (hfork : t.forking = s.forking)
    (hready : ∀ x, y.ctl.readyTok x = (s.cpu c).ctl.readyTok x)
    (hrun : ∀ x, y.runTok x = (s.cpu c).runTok x)
    (hused : ∀ x, y.ctl.usedTok x = (s.cpu c).ctl.usedTok x)
    (hwf : y.Wf)
    (hlock : ∀ c' p, (t.cpu c').ctl.holds = some p → t.lock p = some c') : Inv t := by
  have hind : ∀ st x, t.ind st x = s.ind st x := by
    intro st x
    simp [State.ind, hproc]
  refine h.move c y hcpu ?_ ?_ ?_ ?_ ?_ hwf hlock
  · intro x
    rw [hmlfq, hready x, hind]
  · intro x
    rw [hrun x, hind]
  · intro x
    rw [hfork, hused x, hind]
  · simpa [hproc] using h.level
  · simpa [hmlfq] using h.nonnull

theorem Inv.acquire {s t : State n} (h : Inv s) {c : Fin n} {p : Slot} {sec : Section} {k : Cont}
    (ht : s.acquire c p sec k = some t)
    (hholds : (s.cpu c).ctl.holds = none)
    (hleave : (s.cpu c).ctl.leaving = false)
    (hready : ∀ x, (Ctl.crit p sec k).readyTok x = (s.cpu c).ctl.readyTok x)
    (hused : ∀ x, (Ctl.crit p sec k).usedTok x = (s.cpu c).ctl.usedTok x)
    (hwf : Cpu.Wf { s.cpu c with ctl := .crit p sec k }) : Inv t := by
  unfold State.acquire at ht
  by_cases hfree : s.lock p = none
  · rw [if_pos hfree] at ht
    cases ht
    refine h.moveCtl c { s.cpu c with ctl := .crit p sec k } rfl rfl rfl rfl hready ?_ hused hwf ?_
    · intro x
      have hnew : (Ctl.crit p sec k).leaving = false := rfl
      simp [Cpu.runTok, hleave, hnew]
    · intro c' q hq
      by_cases hc : c' = c
      · subst hc
        have hpq : p = q := by simpa [State.setCtl, State.setCpu, State.setLock, Ctl.holds] using hq
        subst hpq
        simp [State.setCtl, State.setCpu, State.setLock]
      · have hold : (s.cpu c').ctl.holds = some q := by
          simpa [State.setCtl, State.setCpu, State.setLock, Function.update_of_ne hc] using hq
        have hlock := h.locked c' q hold
        have hqp : q ≠ p := by
          intro heq
          rw [heq, hfree] at hlock
          cases hlock
        simpa [State.setCtl, State.setCpu, State.setLock, Function.update_of_ne hqp] using hlock
  · rw [if_neg hfree] at ht
    cases ht

/-- A step of a CPU that keeps holding the lock of `p`, or keeps holding none,
does not disturb the lock table. -/
theorem Inv.locked_setCtl {s t : State n} (h : Inv s) {c : Fin n} {y : Cpu}
    (hcpu : t.cpu = Function.update s.cpu c y) (hlock : t.lock = s.lock)
    (hholds : y.ctl.holds = (s.cpu c).ctl.holds) :
    ∀ c' p, (t.cpu c').ctl.holds = some p → t.lock p = some c' := by
  intro c' q hq
  rw [hlock]
  apply h.locked
  by_cases hc : c' = c
  · subst hc
    rw [← hholds]
    simpa [hcpu] using hq
  · simpa [hcpu, Function.update_of_ne hc] using hq

/-- The body of a section changes one slot, the one it has locked. -/
theorem Inv.body {s t : State n} (h : Inv s) {c : Fin n} {p : Slot} {x : Proc} {y : Cpu}
    (hcpu : t.cpu = Function.update s.cpu c y)
    (hproc : t.proc = Function.update s.proc p x)
    (hmlfq : t.mlfq = s.mlfq) (hfork : t.forking = s.forking) (hlocks : t.lock = s.lock)
    (hold : (s.cpu c).ctl.holds = some p) (hnew : y.ctl.holds = some p)
    (hready : y.ctl.readyTok p + s.ind .RUNNABLE p =
      (s.cpu c).ctl.readyTok p + tok x.state .RUNNABLE)
    (hrun : ∀ z, y.runTok z + s.ind .RUNNING z = (s.cpu c).runTok z + t.ind .RUNNING z)
    (hused : y.ctl.usedTok p + s.ind .USED p =
      (s.cpu c).ctl.usedTok p + tok x.state .USED)
    (hlevel : 0 ≤ x.queue ∧ x.queue ≤ 3) (hwf : y.Wf) : Inv t := by
  have hself : ∀ st, t.ind st p = tok x.state st := by
    intro st
    simp [State.ind, hproc]
  have hother : ∀ st z, z ≠ p → t.ind st z = s.ind st z := by
    intro st z hz
    simp [State.ind, hproc, Function.update_of_ne hz]
  refine h.move c y hcpu ?_ hrun ?_ ?_ ?_ hwf (h.locked_setCtl hcpu hlocks (hnew.trans hold.symm))
  · intro z
    rw [hmlfq]
    by_cases hz : z = p
    · subst hz
      rw [hself]
      omega
    · rw [hother _ z hz, Ctl.readyTok_of_ne hnew hz, Ctl.readyTok_of_ne hold hz]
  · intro z
    rw [hfork]
    by_cases hz : z = p
    · subst hz
      rw [hself]
      omega
    · rw [hother _ z hz, Ctl.usedTok_of_ne hnew hz, Ctl.usedTok_of_ne hold hz]
  · intro z
    by_cases hz : z = p
    · subst hz
      simpa [hproc] using hlevel
    · simpa [hproc, Function.update_of_ne hz] using h.level z
  · simpa [hmlfq] using h.nonnull

/-- The body of a section that the current process survives. -/
theorem Inv.bodyStay {s t : State n} (h : Inv s) {c : Fin n} {p : Slot} {x : Proc} (ctl : Ctl)
    (hcpu : t.cpu = Function.update s.cpu c { s.cpu c with ctl := ctl })
    (hproc : t.proc = Function.update s.proc p x)
    (hmlfq : t.mlfq = s.mlfq) (hfork : t.forking = s.forking) (hlocks : t.lock = s.lock)
    (hold : (s.cpu c).ctl.holds = some p) (hnew : ctl.holds = some p)
    (hleave : (s.cpu c).ctl.leaving = false) (hleave' : ctl.leaving = false)
    (hrun : x.state = .RUNNING ↔ (s.proc p).state = .RUNNING)
    (hready : ctl.readyTok p + s.ind .RUNNABLE p =
      (s.cpu c).ctl.readyTok p + tok x.state .RUNNABLE)
    (hused : ctl.usedTok p + s.ind .USED p =
      (s.cpu c).ctl.usedTok p + tok x.state .USED)
    (hlevel : 0 ≤ x.queue ∧ x.queue ≤ 3)
    (hwf : Cpu.Wf { s.cpu c with ctl := ctl }) : Inv t := by
  refine h.body hcpu hproc hmlfq hfork hlocks hold hnew hready ?_ hused hlevel hwf
  intro z
  have hind : t.ind .RUNNING z = s.ind .RUNNING z := by
    by_cases hz : z = p
    · subst hz
      simp [State.ind, hproc, tok, hrun]
    · simp [State.ind, hproc, Function.update_of_ne hz]
  simp [Cpu.runTok, hleave, hleave', hind, add_comm]

/-- The body of a section in which the current process gives up its CPU. -/
theorem Inv.bodyLeave {s t : State n} (h : Inv s) {c : Fin n} {p : Slot} {x : Proc} (ctl : Ctl)
    (hcpu : t.cpu = Function.update s.cpu c { s.cpu c with ctl := ctl })
    (hproc : t.proc = Function.update s.proc p x)
    (hmlfq : t.mlfq = s.mlfq) (hfork : t.forking = s.forking) (hlocks : t.lock = s.lock)
    (hme : (s.cpu c).proc = some p)
    (hold : (s.cpu c).ctl.holds = some p) (hnew : ctl.holds = some p)
    (hleave : (s.cpu c).ctl.leaving = false) (hleave' : ctl.leaving = true)
    (hstate : x.state ≠ .RUNNING) (hstateUsed : x.state ≠ .USED)
    (htok : (s.cpu c).ctl.readyTok p = 0) (htokUsed : (s.cpu c).ctl.usedTok p = 0)
    (hready : ctl.readyTok p = tok x.state .RUNNABLE)
    (hused : ctl.usedTok p = 0)
    (hlevel : 0 ≤ x.queue ∧ x.queue ≤ 3)
    (hwf : Cpu.Wf { s.cpu c with ctl := ctl }) : Inv t := by
  have hrunning := h.state_running hme hleave
  refine h.body hcpu hproc hmlfq hfork hlocks hold hnew ?_ ?_ ?_ hlevel hwf
  · simp [State.ind, hrunning, htok, hready]
  · intro z
    by_cases hz : z = p
    · subst hz
      simp [Cpu.runTok, hleave', hleave, hme, State.ind, hproc, hrunning, hstate]
    · have hne : p ≠ z := Ne.symm hz
      simp [Cpu.runTok, hme, hne, State.ind, hproc, Function.update_of_ne hz]
  · simp [State.ind, hrunning, htokUsed, hused, hstateUsed]

/-- The invariant reads only the states and levels of the slots, the locks, the
queues, the CPUs and the pending forks. -/
theorem Inv.congr {s t : State n} (h : Inv s)
    (hproc : ∀ x, (t.proc x).state = (s.proc x).state ∧ (t.proc x).queue = (s.proc x).queue)
    (hlock : t.lock = s.lock) (hmlfq : t.mlfq = s.mlfq) (hcpu : t.cpu = s.cpu)
    (hfork : t.forking = s.forking) : Inv t where
  ready x := by simpa [hmlfq, hcpu, State.ind, (hproc x).1] using h.ready x
  running x := by simpa [hcpu, State.ind, (hproc x).1] using h.running x
  used x := by simpa [hfork, hcpu, State.ind, (hproc x).1] using h.used x
  level x := by simpa [(hproc x).2] using h.level x
  nonnull := by simpa [hmlfq] using h.nonnull
  wf := by simpa [hcpu] using h.wf
  locked := by simpa [hcpu, hlock] using h.locked

theorem Inv.toRelease {s : State n} (h : Inv s) {c : Fin n} {p : Slot} {sec : Section} {k : Cont}
    (hctl : (s.cpu c).ctl = .crit p sec k) (hsec : ∀ i, sec ≠ .schedule i)
    (hkfork : sec ≠ .kfork) (hwake : sec ≠ .kforkWake) : Inv (s.setCtl c (.release p k)) := by
  have hwf := h.wf c
  refine h.moveCtl c { s.cpu c with ctl := .release p k } rfl rfl rfl rfl ?_ ?_ ?_ ?_
    (h.locked_setCtl rfl rfl (by simp [hctl, Ctl.holds]))
  · intro x
    cases sec <;> simp_all [Ctl.readyTok]
  · intro x
    simp [Cpu.runTok, hctl, Ctl.leaving]
  · intro x
    cases sec <;> simp_all [Ctl.usedTok]
  · cases sec <;> simp_all [Cpu.Wf]

/-! ## Critical sections -/

theorem demote_queue {x : Proc} (h : 0 ≤ x.queue ∧ x.queue ≤ 3) :
    0 ≤ x.demote.queue ∧ x.demote.queue ≤ 3 := by
  unfold Proc.demote
  by_cases hslice : Proc.slice x.queue ≤ x.ticks
  · simp only [if_pos hslice]
    by_cases hlt : x.queue < 3
    · simp only [if_pos hlt]
      omega
    · simpa only [if_neg hlt] using h
  · simpa only [if_neg hslice] using h

attribute [local simp] Cpu.Wf Ctl.holds Ctl.leaving Ctl.readyTok Ctl.usedTok Section.own
  State.ind Proc.makeRunnable

theorem inv_allocproc {s t : State n} (h : Inv s) {c : Fin n} {p : Slot} {k : Cont} {sec : Section}
    {ch : Choice} (hctl : (s.cpu c).ctl = .crit p sec k) (hsec : sec = .userinit ∨ sec = .allocproc)
    (ht : critStep s c p k sec ch = some t) : Inv t := by
  have hwf := h.wf c
  by_cases hun : (s.proc p).state = .UNUSED
  · rcases hsec with rfl | rfl
    · cases ch with
      | go =>
          simp only [critStep, if_pos hun, Option.some.injEq] at ht
          subst ht
          refine h.bodyStay (.enqueue p k) rfl rfl rfl rfl rfl ?_ rfl ?_ rfl ?_ ?_ ?_ ?_ ?_
          all_goals simp_all [Proc.setContext, Proc.allocproc]
      | fail =>
          simp only [critStep, if_pos hun, Option.some.injEq] at ht
          subst ht
          exact h.congr (fun _ => ⟨rfl, rfl⟩) rfl rfl rfl rfl
      | _ => simp [critStep] at ht
    · cases ch with
      | go =>
          simp only [critStep, if_pos hun, Option.some.injEq] at ht
          subst ht
          refine h.bodyStay (.crit p .kfork k) rfl rfl rfl rfl rfl ?_ rfl ?_ rfl ?_ ?_ ?_ ?_ ?_
          all_goals simp_all [Proc.setContext, Proc.allocproc]
      | fail =>
          simp only [critStep, if_pos hun, Option.some.injEq] at ht
          subst ht
          refine h.bodyStay (.release p k) rfl rfl rfl rfl rfl ?_ rfl ?_ rfl ?_ ?_ ?_ ?_ ?_
          all_goals simp_all [Proc.freeproc, Proc.allocproc]
      | _ => simp [critStep] at ht
  · have hrel : t = s.setCtl c (.release p k) := by
      rcases hsec with rfl | rfl <;> cases ch <;> simp_all [critStep]
    subst hrel
    rcases hsec with rfl | rfl <;> exact h.toRelease hctl (by simp) (by simp) (by simp)

/-- While a process allocates the slot of a child, it has no other child pending. -/
def Fresh (s : State n) : Prop :=
  ∀ c me, (s.cpu c).proc = some me → (s.cpu c).ctl.allocating = true → s.forking me = none

theorem inv_kfork {s t : State n} (h : Inv s) (hfresh : Fresh s) {c : Fin n} {p : Slot} {k : Cont}
    {ch : Choice} (hctl : (s.cpu c).ctl = .crit p .kfork k)
    (ht : critStep s c p k .kfork ch = some t) : Inv t := by
  have hwf := h.wf c
  have hstate := h.state_used (c := c) (x := p) (by simp [hctl])
  cases ch with
  | go =>
      cases hme : (s.cpu c).proc with
      | none => simp [critStep, hme] at ht
      | some me =>
          simp only [critStep, hme, Option.some.injEq] at ht
          subst ht
          have hnone : s.forking me = none := hfresh c me hme (by simp [hctl, Ctl.allocating])
          refine h.move c { s.cpu c with ctl := .release p k } rfl ?_ ?_ ?_ h.level h.nonnull ?_
            (h.locked_setCtl rfl rfl (by simp [hctl]))
          · intro x
            change s.mlfq.occ x + 0 + s.ind .RUNNABLE x =
              s.mlfq.occ x + (s.cpu c).ctl.readyTok x + s.ind .RUNNABLE x
            rw [hctl]
            rfl
          · intro x
            change Cpu.runTok ⟨(s.cpu c).proc, .release p k⟩ x + s.ind .RUNNING x =
              (s.cpu c).runTok x + s.ind .RUNNING x
            simp [Cpu.runTok, hctl]
          · intro x
            have hmove :=
              Ledger.sum_update_add (fun f => forkTok f x) s.forking me (some (p, false))
            have hold : forkTok (s.forking me) x = 0 := by simp [forkTok, hnone]
            have hnew : forkTok (some (p, false)) x = if p = x then 1 else 0 := by simp [forkTok]
            change ∑ q, forkTok (Function.update s.forking me (some (p, false)) q) x + 0 +
              s.ind .USED x = ∑ q, forkTok (s.forking q) x + (s.cpu c).ctl.usedTok x + s.ind .USED x
            rw [hctl]
            simp only [Ctl.usedTok]
            omega
          · simp_all
  | fail =>
      simp only [critStep, Option.some.injEq] at ht
      subst ht
      refine h.bodyStay (.release p k) rfl rfl rfl rfl rfl ?_ rfl ?_ rfl ?_ ?_ ?_ ?_ ?_
      all_goals simp_all [Proc.freeproc]
      exact h.level p
  | _ => simp [critStep] at ht

/-- The sections that may turn a slot runnable: `kfork`, `wakeup` and `kkill`. -/
theorem inv_wake {s t : State n} (h : Inv s) {c : Fin n} {p : Slot} {k : Cont} {sec : Section}
    {ch : Choice} (hctl : (s.cpu c).ctl = .crit p sec k)
    (hsec : sec = .kforkWake ∨ (∃ chan, sec = .wakeup chan) ∨ ∃ pid, sec = .kkill pid)
    (ht : critStep s c p k sec ch = some t) : Inv t := by
  have hwf := h.wf c
  have hlevel := h.level p
  rcases hsec with rfl | ⟨chan, rfl⟩ | ⟨pid, rfl⟩
  · have hstate := h.state_used (c := c) (x := p) (by simp [hctl])
    cases ch with
    | go =>
        simp only [critStep, Option.some.injEq] at ht
        subst ht
        refine h.bodyStay (.enqueue p k) rfl rfl rfl rfl rfl ?_ rfl ?_ rfl ?_ ?_ ?_ ?_ ?_
        all_goals simp_all
    | _ => simp [critStep] at ht
  · cases ch with
    | go =>
        by_cases hsleep : (s.proc p).sleepsOn chan = true
        · have hstate : (s.proc p).state = .SLEEPING := by
            simp only [Proc.sleepsOn, Bool.and_eq_true, decide_eq_true_eq] at hsleep
            exact hsleep.1
          simp only [critStep, if_pos hsleep, Option.some.injEq] at ht
          subst ht
          refine h.bodyStay (.enqueue p k) rfl rfl rfl rfl rfl ?_ rfl ?_ rfl ?_ ?_ ?_ ?_ ?_
          all_goals simp_all
        · simp only [critStep, if_neg hsleep, Option.some.injEq] at ht
          subst ht
          exact h.toRelease hctl (by simp) (by simp) (by simp)
    | _ => simp [critStep] at ht
  · cases ch with
    | go =>
        by_cases hpid : (s.proc p).pid = pid
        · by_cases hstate : (s.proc p).state = .SLEEPING
          · simp only [critStep, if_pos hpid, if_pos hstate, Option.some.injEq] at ht
            subst ht
            refine h.bodyStay (.enqueue p k) rfl rfl rfl rfl rfl ?_ rfl ?_ rfl ?_ ?_ ?_ ?_ ?_
            all_goals simp_all [Proc.setkilled]
          · simp only [critStep, if_pos hpid, if_neg hstate, Option.some.injEq] at ht
            subst ht
            refine h.bodyStay (.release p k) rfl rfl rfl rfl rfl ?_ rfl ?_ rfl ?_ ?_ ?_ ?_ ?_
            all_goals simp_all [Proc.setkilled]
        · simp only [critStep, if_neg hpid, Option.some.injEq] at ht
          subst ht
          exact h.toRelease hctl (by simp) (by simp) (by simp)
    | _ => simp [critStep] at ht

theorem Cpu.Wf.own {c : Cpu} (h : c.Wf) {p : Slot} {sec : Section} {k : Cont}
    (hctl : c.ctl = .crit p sec k) (hsec : sec.own = true) :
    c.proc.isSome = k.inThread ∧ c.proc = some p := by
  unfold Cpu.Wf at h
  rw [hctl] at h
  cases sec <;> first
    | exact ⟨h.1, h.2 rfl⟩
    | simp at hsec

/-- The sections in which the current process may give up its CPU. -/
theorem inv_own {s t : State n} (h : Inv s) {c : Fin n} {p : Slot} {k : Cont} {sec : Section}
    {ch : Choice} (hctl : (s.cpu c).ctl = .crit p sec k) (hsec : sec.own = true)
    (ht : critStep s c p k sec ch = some t) : Inv t := by
  have hlevel := h.level p
  obtain ⟨hk, hme⟩ := (h.wf c).own hctl hsec
  have hstate := h.state_running hme (by simp [hctl])
  cases ch with
  | go =>
      cases sec with
      | yield =>
          simp only [critStep, Option.some.injEq] at ht
          subst ht
          refine h.bodyStay (.crit p .yieldScan k) rfl rfl rfl rfl rfl ?_ rfl ?_ rfl
            ?_ ?_ ?_ ?_ ?_
          all_goals simp_all [Proc.yieldTick]
      | yieldScan =>
          simp only [critStep, Option.some.injEq] at ht
          subst ht
          refine h.moveCtl c _ rfl rfl rfl rfl ?_ ?_ ?_ ?_
            (h.locked_setCtl rfl rfl (by simp [hctl]))
          all_goals simp_all [Cpu.runTok]
      | yieldDecide preempt =>
          by_cases hgive : (s.proc p).givesUp preempt = true
          · simp only [critStep, if_pos hgive, Option.some.injEq] at ht
            subst ht
            have hdemote := demote_queue hlevel
            refine h.bodyLeave (.enqueueYield p) rfl rfl rfl rfl rfl hme ?_ rfl ?_ rfl
              ?_ ?_ ?_ ?_ ?_ ?_ ?_ ?_
            all_goals simp_all
          · simp only [critStep, if_neg hgive, Option.some.injEq] at ht
            subst ht
            exact h.toRelease hctl (by simp) (by simp) (by simp)
      | sleep chan =>
          simp only [critStep, Option.some.injEq] at ht
          subst ht
          refine h.bodyLeave (.swtch p) rfl rfl rfl rfl rfl hme ?_ rfl ?_ rfl
            ?_ ?_ ?_ ?_ ?_ ?_ ?_ ?_
          all_goals simp_all [Proc.sleep]
      | kexit status =>
          simp only [critStep, Option.some.injEq] at ht
          subst ht
          refine h.bodyLeave (.swtch p) rfl rfl rfl rfl rfl hme ?_ rfl ?_ rfl
            ?_ ?_ ?_ ?_ ?_ ?_ ?_ ?_
          all_goals simp_all [Proc.kexit]
      | _ => simp at hsec
  | _ => cases sec <;> simp [critStep] at ht hsec

/-- The sections that change no state except that `kwait` frees a zombie. -/
theorem inv_quiet {s t : State n} (h : Inv s) {c : Fin n} {p : Slot} {k : Cont} {sec : Section}
    {ch : Choice} (hctl : (s.cpu c).ctl = .crit p sec k)
    (hsec : sec = .setkilled ∨ sec = .killed ∨ sec = .kwait ∨ sec = .updateTime ∨ sec = .boost)
    (ht : critStep s c p k sec ch = some t) : Inv t := by
  have hlevel := h.level p
  have hwf := h.wf c
  rcases hsec with rfl | rfl | rfl | rfl | rfl
  · cases ch with
    | go =>
        simp only [critStep, Option.some.injEq] at ht
        subst ht
        refine h.bodyStay (.release p k) rfl rfl rfl rfl rfl ?_ rfl ?_ rfl ?_ ?_ ?_ ?_ ?_
        all_goals simp_all [Proc.setkilled]
    | _ => simp [critStep] at ht
  · cases ch with
    | go =>
        simp only [critStep, Option.some.injEq] at ht
        subst ht
        exact h.toRelease hctl (by simp) (by simp) (by simp)
    | _ => simp [critStep] at ht
  · cases ch with
    | go =>
        by_cases hz : (s.proc p).state = .ZOMBIE
        · simp only [critStep, if_pos hz, Option.some.injEq] at ht
          subst ht
          refine h.bodyStay (.release p k) rfl rfl rfl rfl rfl ?_ rfl ?_ rfl ?_ ?_ ?_ ?_ ?_
          all_goals simp_all [Proc.freeproc, Proc.setParent]
        · simp only [critStep, if_neg hz, Option.some.injEq] at ht
          subst ht
          exact h.toRelease hctl (by simp) (by simp) (by simp)
    | fail =>
        simp only [critStep, Option.some.injEq] at ht
        subst ht
        exact h.toRelease hctl (by simp) (by simp) (by simp)
    | _ => simp [critStep] at ht
  · cases ch with
    | go =>
        simp only [critStep, Option.some.injEq] at ht
        subst ht
        refine h.bodyStay (.release p k) rfl rfl rfl rfl rfl ?_ rfl ?_ rfl ?_ ?_ ?_ ?_ ?_
        all_goals simp_all [Proc.updateTime_state, Proc.updateTime_queue]
    | _ => simp [critStep] at ht
  · cases ch with
    | go =>
        simp only [critStep, Option.some.injEq] at ht
        subst ht
        refine h.bodyStay (.release p k) rfl rfl rfl rfl rfl ?_ rfl ?_ rfl ?_ ?_ ?_ ?_ ?_
        all_goals simp_all [Proc.boost]
    | _ => simp [critStep] at ht

theorem inv_schedule {s t : State n} (h : Inv s) {c : Fin n} {p : Slot} {k : Cont} {i : Level}
    {ch : Choice} (hctl : (s.cpu c).ctl = .crit p (.schedule i) k)
    (ht : critStep s c p k (.schedule i) ch = some t) : Inv t := by
  have hlevel := h.level p
  have hstate := h.state_runnable (c := c) (x := p) (by simp [hctl])
  have hwf : (s.cpu c).proc = none ∧ k = .scan i := by
    have hwf := h.wf c
    simpa [hctl] using hwf
  cases ch with
  | go =>
      simp only [critStep, if_pos hstate, Option.some.injEq] at ht
      subst ht
      refine h.body (p := p) (x := (s.proc p).dispatch s.ticks) (y := ⟨some p, .resume p⟩)
        rfl rfl rfl rfl rfl (by simp [hctl]) rfl ?_ ?_ ?_ hlevel rfl
      · simp [hctl, hstate, Proc.dispatch]
      · intro z
        by_cases hz : z = p
        · subst hz
          simp [Cpu.runTok, hwf.1, hstate, State.setProc, State.setCpu, Proc.dispatch]
        · have hne : p ≠ z := Ne.symm hz
          simp [Cpu.runTok, hwf.1, hne, State.setProc, State.setCpu, Function.update_of_ne hz]
      · simp [hctl, hstate, Proc.dispatch]
  | _ => simp [critStep] at ht

theorem inv_critStep {s t : State n} (h : Inv s) (hfresh : Fresh s) {c : Fin n} {p : Slot}
    {k : Cont} {sec : Section} {ch : Choice} (hctl : (s.cpu c).ctl = .crit p sec k)
    (ht : critStep s c p k sec ch = some t) : Inv t := by
  cases sec with
  | userinit => exact inv_allocproc h hctl (.inl rfl) ht
  | allocproc => exact inv_allocproc h hctl (.inr rfl) ht
  | kfork => exact inv_kfork h hfresh hctl ht
  | kforkWake => exact inv_wake h hctl (.inl rfl) ht
  | yield => exact inv_own h hctl rfl ht
  | yieldScan => exact inv_own h hctl rfl ht
  | yieldDecide preempt => exact inv_own h hctl rfl ht
  | sleep chan => exact inv_own h hctl rfl ht
  | kexit status => exact inv_own h hctl rfl ht
  | wakeup chan => exact inv_wake h hctl (.inr (.inl ⟨chan, rfl⟩)) ht
  | kkill pid => exact inv_wake h hctl (.inr (.inr ⟨pid, rfl⟩)) ht
  | setkilled => exact inv_quiet h hctl (by simp) ht
  | killed => exact inv_quiet h hctl (by simp) ht
  | kwait => exact inv_quiet h hctl (by simp) ht
  | updateTime => exact inv_quiet h hctl (by simp) ht
  | boost => exact inv_quiet h hctl (by simp) ht
  | schedule i => exact inv_schedule h hctl ht

/-! ## Code without a process lock -/

theorem Inv.acquireRun {s t : State n} (h : Inv s) {c : Fin n} {p : Slot} {sec : Section}
    {k j : Cont} (hctl : (s.cpu c).ctl = .run k) (hk : j.inThread = k.inThread)
    (hsec : ∀ i, sec ≠ .schedule i) (hkfork : sec ≠ .kfork) (hwake : sec ≠ .kforkWake)
    (hown : sec.own = true → (s.cpu c).proc = some p)
    (ht : s.acquire c p sec j = some t) : Inv t := by
  have hwf := h.wf c
  refine h.acquire ht (by simp [hctl]) (by simp [hctl]) ?_ ?_ ?_
  · intro x
    cases sec <;> simp_all
  · intro x
    cases sec <;> simp_all
  · have hwf' : (s.cpu c).proc.isSome = j.inThread := by
      rw [hk]
      simpa [hctl] using hwf
    cases sec <;> first
      | exact ⟨hwf', hown⟩
      | simp at hsec

theorem Inv.jump {s t : State n} (h : Inv s) {c : Fin n} {k j : Cont}
    (hctl : (s.cpu c).ctl = .run k) (hk : j.inThread = k.inThread)
    (hcpu : t.cpu = Function.update s.cpu c { s.cpu c with ctl := .run j })
    (hproc : t.proc = s.proc) (hlock : t.lock = s.lock) (hmlfq : t.mlfq = s.mlfq)
    (hfork : t.forking = s.forking) : Inv t := by
  have hwf := h.wf c
  refine h.moveCtl c _ hcpu hproc hmlfq hfork ?_ ?_ ?_ ?_ (h.locked_setCtl hcpu hlock ?_)
  all_goals simp_all [Cpu.runTok]

theorem back_inThread (ft : Bool) : (back ft).inThread = ft := by
  cases ft <;> rfl

theorem Inv.jumpQueues {s t : State n} (h : Inv s) {c : Fin n} {y : Cpu}
    (hcpu : t.cpu = Function.update s.cpu c y) (hproc : t.proc = s.proc)
    (hlock : t.lock = s.lock) (hfork : t.forking = s.forking)
    (hready : ∀ x, t.mlfq.occ x + y.ctl.readyTok x = s.mlfq.occ x + (s.cpu c).ctl.readyTok x)
    (hrun : ∀ x, y.runTok x = (s.cpu c).runTok x)
    (hused : ∀ x, y.ctl.usedTok x = (s.cpu c).ctl.usedTok x)
    (hnull : ∀ q, none ∉ t.mlfq.list q) (hwf : y.Wf)
    (hholds : y.ctl.holds = (s.cpu c).ctl.holds) : Inv t := by
  have hind : ∀ st x, t.ind st x = s.ind st x := by
    intro st x
    simp [hproc]
  refine h.move c y hcpu ?_ ?_ ?_ ?_ hnull hwf (h.locked_setCtl hcpu hlock hholds)
  · intro x
    rw [hready x, hind]
  · intro x
    rw [hrun x, hind]
  · intro x
    rw [hfork, hused x, hind]
  · simpa [hproc] using h.level

theorem inv_scan {s t : State n} (h : Inv s) {c : Fin n} {i : ℕ} {ch : Choice}
    (hctl : (s.cpu c).ctl = .run (.scan i)) (ht : runStep s c (.scan i) ch = some t) : Inv t := by
  have hwf := h.wf c
  have hnone : (s.cpu c).proc = none := by simpa [hctl, Cont.inThread] using hwf
  cases ch with
  | go =>
      by_cases hi : i < 4
      · simp only [runStep, dif_pos hi] at ht
        by_cases hempty : s.mlfq.list ⟨i, hi⟩ = []
        · rw [Queues.dequeue_nil hempty] at ht
          cases ht
          exact h.jump (j := .scan (i + 1)) hctl rfl rfl rfl rfl rfl rfl
        · obtain ⟨x, r, hdeq, hlist⟩ := Queues.dequeue_cons hempty
          rw [hdeq] at ht
          have hkeep : ∀ q, none ∉ Queues.list (Function.update s.mlfq ⟨i, hi⟩ r) q := by
            intro q hmem
            by_cases hq : q = ⟨i, hi⟩
            · subst hq
              rw [Queues.list_update_self] at hmem
              exact h.nonnull ⟨i, hi⟩ (hlist ▸ List.mem_cons_of_mem _ hmem)
            · rw [Queues.list_update_of_ne _ _ hq] at hmem
              exact h.nonnull q hmem
          cases x with
          | none => exact absurd (hlist ▸ List.mem_cons_self) (h.nonnull ⟨i, hi⟩)
          | some p =>
              cases ht
              refine h.jumpQueues (y := { s.cpu c with ctl := .found ⟨i, hi⟩ p })
                rfl rfl rfl rfl ?_ ?_ ?_ hkeep ?_ ?_
              · intro x
                have hocc := Queues.occ_update s.mlfq ⟨i, hi⟩ r x
                rw [hlist, List.count_cons] at hocc
                simp only [beq_iff_eq, Option.some.injEq] at hocc
                simp only [hctl, Ctl.readyTok, State.setCtl, State.setCpu]
                omega
              · simp [Cpu.runTok, hctl]
              · simp [hctl]
              · simpa using hnone
              · simp [hctl]
      · simp only [runStep, dif_neg hi, Option.some.injEq] at ht
        subst ht
        exact h.jump (j := .window) hctl rfl rfl rfl rfl rfl rfl
  | _ => simp [runStep] at ht

theorem inv_rebuild {s : State n} (h : Inv s) {c : Fin n} {k j : Cont} {m : Queues}
    (hctl : (s.cpu c).ctl = .run k) (hk : j.inThread = k.inThread)
    (hm : s.mlfq.rebuild = .ok m) : Inv ({ s with mlfq := m }.setCtl c (.run j)) := by
  have hwf := h.wf c
  obtain ⟨hzero, hrest⟩ := Queues.rebuild_ok hm
  refine h.jumpQueues (c := c) (y := { s.cpu c with ctl := .run j }) rfl rfl rfl rfl ?_ ?_ ?_ ?_
    ?_ ?_
  · intro x
    simp [State.setCtl, State.setCpu, hctl, Queues.occ_rebuild hm]
  · simp [Cpu.runTok, hctl]
  · simp [hctl]
  · intro q hmem
    change none ∈ m.list q at hmem
    by_cases hq : q = 0
    · subst hq
      rw [hzero] at hmem
      obtain ⟨q, hq⟩ := (Queues.mem_all _ _).mp hmem
      exact h.nonnull q hq
    · rw [hrest q hq] at hmem
      cases hmem
  · simp_all
  · simp [hctl]

theorem Inv.setForking {s : State n} (h : Inv s) {me : Slot} {f : Option (Slot × Bool)}
    (hf : ∀ x, forkTok f x = forkTok (s.forking me) x) : Inv (s.setForking me f) where
  ready := h.ready
  running := h.running
  used x := by
    have hmove := Ledger.sum_update_add (fun f => forkTok f x) s.forking me f
    have hused := h.used x
    have hsame := hf x
    change ∑ p, forkTok (Function.update s.forking me f p) x + ∑ c, (s.cpu c).ctl.usedTok x =
      s.ind .USED x
    omega
  level := h.level
  nonnull := h.nonnull
  wf := h.wf
  locked := h.locked

theorem inv_kforkParent {s : State n} (h : Inv s) {me np : Slot}
    (hf : s.forking me = some (np, false)) :
    Inv ((s.setProc np ((s.proc np).setParent (some me))).setForking me (some (np, true))) := by
  have hs : Inv (s.setProc np ((s.proc np).setParent (some me))) := by
    refine h.congr ?_ rfl rfl rfl rfl
    intro x
    by_cases hx : x = np
    · subst hx
      simp [State.setProc, Proc.setParent]
    · simp [State.setProc, Function.update_of_ne hx]
  apply hs.setForking
  intro x
  simp [State.setProc, hf, forkTok]

theorem inv_kforkWake {s t : State n} (h : Inv s) {c : Fin n} {me np : Slot}
    (hctl : (s.cpu c).ctl = .run .thread) (hf : s.forking me = some (np, true))
    (ht : (s.setForking me none).acquire c np .kforkWake .thread = some t) : Inv t := by
  have hwf := h.wf c
  by_cases hfree : s.lock np = none
  · have hacq : t = ((s.setForking me none).setLock np (some c)).setCtl c
        (.crit np .kforkWake .thread) := by
      simpa [State.acquire, State.setForking, hfree] using ht.symm
    -- acquire without the fork entry moved, to reuse the lock argument
    have hlocks : Inv ((s.setLock np (some c)).setCtl c (.crit np .killed .thread)) := by
      have hkilled : s.acquire c np .killed .thread =
          some ((s.setLock np (some c)).setCtl c (.crit np .killed .thread)) := if_pos hfree
      exact h.acquireRun hctl rfl (by simp) (by simp) (by simp) (by simp) hkilled
    subst hacq
    refine hlocks.move c { s.cpu c with ctl := .crit np .kforkWake .thread } ?_ ?_ ?_ ?_
      hlocks.level hlocks.nonnull ?_ ?_
    · simp [State.setCtl, State.setCpu, State.setLock, State.setForking]
    · intro x
      simp [State.setCtl, State.setCpu, State.setLock, State.setForking]
    · intro x
      simp [State.setCtl, State.setCpu, State.setLock, State.setForking, Cpu.runTok]
    · intro x
      have hmove := Ledger.sum_update_add (fun f => forkTok f x) s.forking me none
      have hold : forkTok (s.forking me) x = if np = x then 1 else 0 := by simp [hf, forkTok]
      have hnew : forkTok none x = 0 := by simp [forkTok]
      simp only [State.setCtl, State.setCpu, State.setLock, State.setForking, Ctl.usedTok,
        Function.update_self, State.ind]
      omega
    · simp_all
    · intro c' q hq
      have := hlocks.locked c' q
      by_cases hc : c' = c
      · subst hc
        simp_all [State.setCtl, State.setCpu, State.setLock, State.setForking]
      · simp_all [State.setCtl, State.setCpu, State.setLock, State.setForking]
  · simp [State.acquire, State.setForking, hfree] at ht

theorem inv_thread {s t : State n} (h : Inv s) {c : Fin n} {ch : Choice}
    (hctl : (s.cpu c).ctl = .run .thread) (ht : runStep s c .thread ch = some t) : Inv t := by
  cases hme : (s.cpu c).proc with
  | none => simp [runStep, hme] at ht
  | some me =>
      cases ch with
      | allocproc p =>
          by_cases hf : s.forking me = none
          · simp only [runStep, hme, if_pos hf] at ht
            exact h.acquireRun hctl rfl (by simp) (by simp) (by simp) (by simp) ht
          · simp [runStep, hme, hf] at ht
      | kforkParent =>
          rcases hf : s.forking me with _ | ⟨np, _ | _⟩
          · simp [runStep, hme, hf] at ht
          · simp only [runStep, hme, hf, Option.some.injEq] at ht
            subst ht
            exact inv_kforkParent h hf
          · simp [runStep, hme, hf] at ht
      | kforkWake =>
          rcases hf : s.forking me with _ | ⟨np, _ | _⟩
          · simp [runStep, hme, hf] at ht
          · simp [runStep, hme, hf] at ht
          · simp only [runStep, hme, hf] at ht
            exact inv_kforkWake h hctl hf ht
      | yield =>
          simp only [runStep, hme] at ht
          exact h.acquireRun hctl rfl (by simp) (by simp) (by simp) (fun _ => hme) ht
      | sleep chan =>
          by_cases hf : s.forking me = none
          · simp only [runStep, hme, if_pos hf] at ht
            exact h.acquireRun hctl rfl (by simp) (by simp) (by simp) (fun _ => hme) ht
          · simp [runStep, hme, hf] at ht
      | kexit status =>
          by_cases hf : s.forking me = none ∧ s.initproc ≠ some me
          · simp only [runStep, hme, if_pos hf] at ht
            have hrep : Inv (s.reparent me) := by
              refine h.congr ?_ rfl rfl rfl rfl
              intro x
              by_cases hx : (s.proc x).parent = some me <;>
                simp [State.reparent, Proc.setParent, hx]
            exact hrep.acquireRun hctl rfl (by simp) (by simp) (by simp) (fun _ => hme) ht
          · simp [runStep, hme, hf] at ht
      | wakeup p chan =>
          by_cases hp : p = me
          · simp [runStep, hme, hp] at ht
          · simp only [runStep, hme, if_neg hp] at ht
            exact h.acquireRun hctl rfl (by simp) (by simp) (by simp) (by simp) ht
      | kkill p pid =>
          by_cases hf : s.forking me = none
          · simp only [runStep, hme, if_pos hf] at ht
            exact h.acquireRun hctl rfl (by simp) (by simp) (by simp) (by simp) ht
          · simp [runStep, hme, hf] at ht
      | setkilled =>
          simp only [runStep, hme] at ht
          exact h.acquireRun hctl rfl (by simp) (by simp) (by simp) (by simp) ht
      | killed =>
          simp only [runStep, hme] at ht
          exact h.acquireRun hctl rfl (by simp) (by simp) (by simp) (by simp) ht
      | kwait p =>
          by_cases hf : s.forking me = none ∧ (s.proc p).parent = some me
          · simp only [runStep, hme, if_pos hf] at ht
            exact h.acquireRun hctl rfl (by simp) (by simp) (by simp) (by simp) ht
          · simp [runStep, hme, hf] at ht
      | tick =>
          by_cases hc : c.val = 0
          · simp only [runStep, hme, if_pos hc, Option.some.injEq] at ht
            subst ht
            exact h.jump (j := .updateTime 0 true) hctl rfl rfl rfl rfl rfl rfl
          · simp [runStep, hme, hc] at ht
      | _ => simp [runStep, hme] at ht

theorem inv_runStep {s t : State n} (h : Inv s) {c : Fin n} {k : Cont} {ch : Choice}
    (hctl : (s.cpu c).ctl = .run k) (ht : runStep s c k ch = some t) : Inv t := by
  cases k with
  | boot =>
      cases ch with
      | allocproc p =>
          by_cases hc : c.val = 0 ∧ s.initproc = none
          · simp only [runStep, if_pos hc] at ht
            exact h.acquireRun hctl rfl (by simp) (by simp) (by simp) (by simp) ht
          · simp [runStep, hc] at ht
      | go =>
          have hcpu : t.cpu = Function.update s.cpu c { s.cpu c with ctl := .run .window } ∧
              t.proc = s.proc ∧ t.lock = s.lock ∧ t.mlfq = s.mlfq ∧ t.forking = s.forking := by
            by_cases hc : c.val = 0
            · by_cases hi : s.initproc = none
              · simp [runStep, hc, hi] at ht
              · simp only [runStep, if_pos hc, if_neg hi, Option.some.injEq] at ht
                subst ht
                exact ⟨rfl, rfl, rfl, rfl, rfl⟩
            · by_cases hst : s.started = true
              · simp only [runStep, if_neg hc, if_pos hst, Option.some.injEq] at ht
                subst ht
                exact ⟨rfl, rfl, rfl, rfl, rfl⟩
              · simp [runStep, hc, hst] at ht
          obtain ⟨hcpu, hproc, hlock, hmlfq, hfork⟩ := hcpu
          exact h.jump (j := .window) hctl rfl hcpu hproc hlock hmlfq hfork
      | _ => simp [runStep] at ht
  | thread => exact inv_thread h hctl ht
  | window =>
      cases ch with
      | wakeup p chan =>
          exact h.acquireRun hctl rfl (by simp) (by simp) (by simp) (by simp) ht
      | tick =>
          by_cases hc : c.val = 0
          · simp only [runStep, if_pos hc, Option.some.injEq] at ht
            subst ht
            exact h.jump (j := .updateTime 0 false) hctl rfl rfl rfl rfl rfl rfl
          · simp [runStep, hc] at ht
      | go =>
          simp only [runStep, Option.some.injEq] at ht
          subst ht
          exact h.jump (j := .scan 0) hctl rfl rfl rfl rfl rfl rfl
      | _ => simp [runStep] at ht
  | scan i => exact inv_scan h hctl ht
  | updateTime k ft =>
      cases ch with
      | go =>
          by_cases hk : k < NPROC
          · simp only [runStep, dif_pos hk] at ht
            exact h.acquireRun (j := .updateTime (k + 1) ft) hctl rfl (by simp) (by simp) (by simp)
              (by simp) ht
          · simp only [runStep, dif_neg hk, Option.some.injEq] at ht
            subst ht
            exact h.jump (j := .wakeupTicks 0 ft) hctl rfl rfl rfl rfl rfl rfl
      | _ => simp [runStep] at ht
  | wakeupTicks k ft =>
      cases ch with
      | go =>
          by_cases hk : k < NPROC
          · by_cases hme : (s.cpu c).proc = some ⟨k, hk⟩
            · simp only [runStep, dif_pos hk, if_pos hme, Option.some.injEq] at ht
              subst ht
              exact h.jump (j := .wakeupTicks (k + 1) ft) hctl rfl rfl rfl rfl rfl rfl
            · simp only [runStep, dif_pos hk, if_neg hme] at ht
              exact h.acquireRun (j := .wakeupTicks (k + 1) ft) hctl rfl (by simp) (by simp)
                (by simp) (by simp) ht
          · by_cases hb : s.ticks % 48 = 0
            · simp only [runStep, dif_neg hk, if_pos hb, Option.some.injEq] at ht
              subst ht
              exact h.jump (j := .boost 0 ft) hctl rfl rfl rfl rfl rfl rfl
            · simp only [runStep, dif_neg hk, if_neg hb, Option.some.injEq] at ht
              subst ht
              exact h.jump (j := back ft) hctl (back_inThread ft) rfl rfl rfl rfl rfl
      | _ => simp [runStep] at ht
  | boost k ft =>
      cases ch with
      | go =>
          by_cases hk : k < NPROC
          · simp only [runStep, dif_pos hk] at ht
            exact h.acquireRun (j := .boost (k + 1) ft) hctl rfl (by simp) (by simp) (by simp)
              (by simp) ht
          · simp only [runStep, dif_neg hk] at ht
            cases hm : s.mlfq.rebuild with
            | ok m =>
                simp only [hm, Option.some.injEq] at ht
                subst ht
                exact inv_rebuild h hctl (back_inThread ft) hm
            | error e =>
                simp only [hm, Option.some.injEq] at ht
                subst ht
                exact h.congr (fun _ => ⟨rfl, rfl⟩) rfl rfl rfl rfl
      | _ => simp [runStep] at ht

/-! ## Steps between the sections -/

theorem Inv.locked_release {s t : State n} (h : Inv s) {c : Fin n} {p : Slot} {y : Cpu}
    (hcpu : t.cpu = Function.update s.cpu c y) (hlock : t.lock = Function.update s.lock p none)
    (hold : (s.cpu c).ctl.holds = some p) (hnew : y.ctl.holds = none) :
    ∀ c' q, (t.cpu c').ctl.holds = some q → t.lock q = some c' := by
  intro c' q hq
  by_cases hc : c' = c
  · subst hc
    rw [hcpu, Function.update_self, hnew] at hq
    cases hq
  · rw [hcpu, Function.update_of_ne hc] at hq
    have hlocked := h.locked c' q hq
    have hqp : q ≠ p := by
      rintro rfl
      have hown := h.locked c q hold
      exact hc (Option.some.inj (hlocked.symm.trans hown))
    rw [hlock, Function.update_of_ne hqp]
    exact hlocked

theorem inv_found {s : State n} (h : Inv s) {c : Fin n} {p : Slot} {i : Level}
    (hctl : (s.cpu c).ctl = .found i p) (hlock : s.lock p = none) :
    Inv ((s.setLock p (some c)).setCtl c (.crit p (.schedule i) (.scan i))) := by
  have hwf := h.wf c
  refine h.acquire (acquire_eq_some_iff.mpr ⟨hlock, rfl⟩) ?_ ?_ ?_ ?_ ?_
  all_goals simp_all

theorem Inv.nonnull_enqueue {s : State n} (h : Inv s) {q : ℤ} {p : Slot} {m : Queues}
    (hm : s.mlfq.enqueue q p = .ok m) : ∀ q, none ∉ m.list q := by
  obtain ⟨l, -, r, rfl, hr⟩ := Queues.enqueue_ok hm
  intro j hmem
  by_cases hj : j = l
  · subst hj
    rw [Queues.list_update_self, hr] at hmem
    exact h.nonnull j (by simpa using hmem)
  · rw [Queues.list_update_of_ne _ _ hj] at hmem
    exact h.nonnull j hmem

theorem inv_enqueue {s : State n} (h : Inv s) {c : Fin n} {p : Slot} {k : Cont} {q : ℤ} {m : Queues}
    (hctl : (s.cpu c).ctl = .enqueue p k) (hm : s.mlfq.enqueue q p = .ok m) :
    Inv ({ s with mlfq := m }.setCtl c (.release p k)) := by
  have hwf := h.wf c
  refine h.jumpQueues (y := { s.cpu c with ctl := .release p k }) rfl rfl rfl rfl ?_ ?_ ?_
    (h.nonnull_enqueue hm) ?_ ?_
  · intro x
    simp [State.setCtl, State.setCpu, hctl, Queues.occ_enqueue hm]
  all_goals simp_all [Cpu.runTok]

theorem inv_enqueueYield {s : State n} (h : Inv s) {c : Fin n} {p : Slot} {q : ℤ} {m : Queues}
    (hctl : (s.cpu c).ctl = .enqueueYield p) (hm : s.mlfq.enqueue q p = .ok m) :
    Inv ({ s with mlfq := m }.body c p ((s.proc p).setContext .yield) (.swtch p)) := by
  have hwf := h.wf c
  have hmove : Inv ({ s with mlfq := m }.setCtl c (.swtch p)) := by
    refine h.jumpQueues (y := { s.cpu c with ctl := .swtch p }) rfl rfl rfl rfl ?_ ?_ ?_
      (h.nonnull_enqueue hm) ?_ ?_
    · intro x
      simp [State.setCtl, State.setCpu, hctl, Queues.occ_enqueue hm]
    all_goals simp_all [Cpu.runTok]
  refine hmove.congr ?_ rfl rfl rfl rfl
  intro x
  by_cases hx : x = p
  · subst hx
    simp [State.body, State.setCtl, State.setCpu, State.setProc, Proc.setContext]
  · simp [State.body, State.setCtl, State.setCpu, State.setProc, Function.update_of_ne hx]

theorem inv_release {s : State n} (h : Inv s) {c : Fin n} {p : Slot} {k : Cont}
    (hctl : (s.cpu c).ctl = .release p k) : Inv ((s.setLock p none).setCtl c (.run k)) := by
  have hwf := h.wf c
  refine h.moveCtl c { s.cpu c with ctl := .run k } rfl rfl rfl rfl ?_ ?_ ?_ ?_
    (h.locked_release (p := p) rfl rfl ?_ ?_)
  all_goals simp_all [Cpu.runTok]

theorem inv_swtch {s : State n} (h : Inv s) {c : Fin n} {p : Slot}
    (hctl : (s.cpu c).ctl = .swtch p) :
    Inv ((s.setLock p none).setCpu c ⟨none, .run .window⟩) := by
  refine h.moveCtl c ⟨none, .run .window⟩ rfl rfl rfl rfl ?_ ?_ ?_ rfl
    (h.locked_release (p := p) rfl rfl ?_ rfl)
  all_goals simp_all [Cpu.runTok]

theorem inv_resume {s : State n} (h : Inv s) {c : Fin n} {p : Slot}
    (hctl : (s.cpu c).ctl = .resume p) :
    Inv (((s.setProc p (s.proc p).resume).setLock p none).setCtl c (.run .thread)) := by
  have hwf := h.wf c
  have hmove : Inv ((s.setLock p none).setCtl c (.run .thread)) := by
    refine h.moveCtl c { s.cpu c with ctl := .run .thread } rfl rfl rfl rfl ?_ ?_ ?_ ?_
      (h.locked_release (p := p) rfl rfl ?_ ?_)
    all_goals simp_all [Cpu.runTok, Cont.inThread]
  refine hmove.congr ?_ rfl rfl rfl rfl
  intro x
  by_cases hx : x = p
  · subst hx
    simp [State.setCtl, State.setCpu, State.setProc, State.setLock, Proc.resume_state,
      Proc.resume_queue]
  · simp [State.setCtl, State.setCpu, State.setProc, State.setLock, Function.update_of_ne hx]

theorem inv_step {s t : State n} {a : Action n} (h : Inv s) (hfresh : Fresh s)
    (ht : step s a = some t) : Inv t := by
  cases (steps_of_step ht).2 with
  | run hctl ht => exact inv_runStep h hctl ht
  | crit hctl ht => exact inv_critStep h hfresh hctl ht
  | found hctl hlock => exact inv_found h hctl hlock
  | enqueue hctl hm => exact inv_enqueue h hctl hm
  | enqueueYield hctl hm => exact inv_enqueueYield h hctl hm
  | enqueueFails => exact h.congr (fun _ => ⟨rfl, rfl⟩) rfl rfl rfl rfl
  | release hctl => exact inv_release h hctl
  | swtch hctl => exact inv_swtch h hctl
  | resume hctl => exact inv_resume h hctl

end ShellXv6.Xv6.Smp
