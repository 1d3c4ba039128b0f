import ShellXv6.Xv6.ReadyOnce

/-!
# `boost_priority` against the other CPUs

`boost_priority` first resets the level of every process, one lock at a time,
and afterwards moves the queue entries under `mlfq_lock`.  Between the two
passes another CPU can demote its process and enqueue it at level 1; the second
pass then stores that process at level 0.  Only a boost that finds nothing
waiting below level 0 keeps the stored level and `p->queue` in agreement.
-/

namespace ShellXv6.Xv6.Smp

variable {n : ℕ}

/-- A stored process whose lock is free has the level it is stored at. -/
def LevelsAgree (s : State n) : Prop :=
  ∀ p q, s.lock p = none → some p ∈ s.mlfq.list q → (s.proc p).queue = q

/-- A step of `boost_priority` finds nothing waiting below level 0: a reset
reaches a process that is stored in none of `mlfq[1..3]`, and the rebuild finds
these three queues empty. -/
def BoostQuiet (s : State n) (a : Action n) : Prop :=
  match (s.cpu a.cpu).ctl with
  | .crit p .boost _ => ∀ q, q.val ≠ 0 → some p ∉ s.mlfq.list q
  | .run (.boost k _) => NPROC ≤ k → ∀ q, q.val ≠ 0 → s.mlfq.list q = []
  | _ => True

def Levels (s : State n) : Prop := ∀ p q, some p ∈ s.mlfq.list q → (s.proc p).queue = q

attribute [local simp] acquire_eq_some_iff State.setCtl State.setCpu State.setProc State.setLock
  State.setForking State.reparent State.body Function.update_apply

/-! ## Quiet boosts -/

theorem levels_dequeue {m : Queues} {f : Slot → ℤ} (h : ∀ p q, some p ∈ m.list q → f p = q)
    (l : Level) : ∀ p q, some p ∈ (m.dequeue l).2.list q → f p = q := by
  intro p q hp
  by_cases hempty : m.list l = []
  · rw [Queues.dequeue_nil hempty] at hp
    exact h p q hp
  · obtain ⟨x, r, hdeq, hlist⟩ := Queues.dequeue_cons hempty
    rw [hdeq] at hp
    by_cases hq : q = l
    · subst hq
      rw [Queues.list_update_self] at hp
      exact h p q (hlist ▸ List.mem_cons_of_mem x hp)
    · rw [Queues.list_update_of_ne _ _ hq] at hp
      exact h p q hp

theorem levels_enqueue {m m' : Queues} {f : Slot → ℤ} (h : ∀ p q, some p ∈ m.list q → f p = q)
    {x : Slot} (hm : m.enqueue (f x) x = .ok m') : ∀ p q, some p ∈ m'.list q → f p = q := by
  obtain ⟨l, hl, r, rfl, hr⟩ := Queues.enqueue_ok hm
  intro p q hp
  by_cases hq : q = l
  · subst hq
    rw [Queues.list_update_self, hr, List.mem_append, List.mem_singleton] at hp
    rcases hp with hp | hp
    · exact h p q hp
    · rw [Option.some.inj hp, hl]
  · rw [Queues.list_update_of_ne _ _ hq] at hp
    exact h p q hp

theorem levels_rebuild {m m' : Queues} {f : Slot → ℤ} (h : ∀ p q, some p ∈ m.list q → f p = q)
    (hquiet : ∀ q, q.val ≠ 0 → m.list q = []) (hm : m.rebuild = .ok m') :
    ∀ p q, some p ∈ m'.list q → f p = q := by
  obtain ⟨hzero, hrest⟩ := Queues.rebuild_ok hm
  intro p q hp
  by_cases hq : q = 0
  · subst hq
    rw [hzero, Queues.mem_all] at hp
    obtain ⟨l, hl⟩ := hp
    by_cases hl0 : l = 0
    · subst hl0
      exact h p 0 hl
    · rw [hquiet l (Fin.val_ne_of_ne hl0)] at hl
      cases hl
  · rw [hrest q hq] at hp
    cases hp

theorem levels_run {s t : State n} {c : Fin n} {k : Cont} {ch : Choice} (hl : Levels s)
    (hquiet : BoostQuiet s ⟨c, ch⟩) (hctl : (s.cpu c).ctl = .run k)
    (ht : runStep s c k ch = some t) : Levels t := by
  obtain ⟨hqueue, hmlfq⟩ := runStep_levels ht
  intro p q hp
  rw [hqueue p]
  rcases hmlfq with hmlfq | ⟨l, hmlfq⟩ | ⟨hm, j, ft, rfl, hj⟩
  · exact hl p q (hmlfq ▸ hp)
  · exact levels_dequeue hl l p q (hmlfq ▸ hp)
  · simp only [BoostQuiet, hctl] at hquiet
    exact levels_rebuild hl (hquiet hj) hm p q hp

theorem levels_crit {s t : State n} {c : Fin n} {r : Slot} {sec : Section} {k : Cont} {ch : Choice}
    (h : Inv s) (hl : Levels s) (hquiet : BoostQuiet s ⟨c, ch⟩)
    (hctl : (s.cpu c).ctl = .crit r sec k) (ht : critStep s c r k sec ch = some t) :
    Levels t := by
  obtain ⟨hmlfq, hqueue⟩ := critStep_levels h hctl ht
  intro p q hp
  rw [hmlfq] at hp
  rcases hqueue p with hsame | ⟨rfl, hstate | ⟨rfl, hzero⟩⟩
  · rw [hsame]
    exact hl p q hp
  · exact absurd (h.runnable_of_mem hp) hstate
  · simp only [BoostQuiet, hctl] at hquiet
    by_cases hq : q = 0
    · rw [hzero, hq]
      rfl
    · exact absurd hp (hquiet q (Fin.val_ne_of_ne hq))

theorem levels_step {s t : State n} {a : Action n} (h : Inv s) (hl : Levels s)
    (hquiet : BoostQuiet s a) (ht : step s a = some t) : Levels t := by
  cases (steps_of_step ht).2 with
  | run hctl ht => exact levels_run hl hquiet hctl ht
  | crit hctl ht => exact levels_crit h hl hquiet hctl ht
  | enqueue hctl hm => exact levels_enqueue hl hm
  | @enqueueYield r m hctl hm =>
      intro p q hp
      have hsame := levels_enqueue (f := fun p => (s.proc p).queue) hl hm p q hp
      by_cases hr : p = r <;> simpa [hr, Proc.setContext] using hsame
  | @resume r hctl =>
      intro p q hp
      have hsame := hl p q hp
      by_cases hr : p = r
      · subst hr
        simpa [Proc.resume_queue] using hsame
      · simpa [hr] using hsame
  | found | enqueueFails | release | swtch => exact hl

/-! ## A clock that boosts -/

/-- The runs in which every step of `boost_priority` is quiet. -/
abbrev QuietlyReachable (s : State n) : Prop := Run.Reach (· = State.boot n) step BoostQuiet s

instance (s : State n) (a : Action n) : Decidable (BoostQuiet s a) := by
  unfold BoostQuiet
  split <;> infer_instance

/-- While nothing waits at all, a boost is quiet. -/
theorem boostQuiet_of_empty {s : State n} (h : ∀ q, s.mlfq.list q = []) (a : Action n) :
    BoostQuiet s a := by
  unfold BoostQuiet
  split
  · intro q _
    simp [h]
  · exact fun _ q _ => h q
  · trivial

/-- Two CPUs: `proc[0]` runs at level 0 on CPU 1, and CPU 0 has nothing to do. -/
structure Idle (now : ℕ) (s : State 2) : Prop where
  panicked : s.panicked = none
  ticks : s.ticks = now
  free : ∀ p, s.lock p = none
  idle : (s.cpu 0).proc = none
  thread : s.cpu 1 = ⟨some 0, .run .thread⟩
  awake : ∀ p, (s.proc p).state ≠ .SLEEPING
  running : (s.proc 0).state = .RUNNING ∧ (s.proc 0).queue = 0 ∧ (s.proc 0).ticks = 0
  empty : ∀ q, s.mlfq.list q = []

/-- The kernel can come to such a state at tick `now` with CPU 0 at `k`. -/
def At (now : ℕ) (k : Cont) : Prop :=
  ∃ s, QuietlyReachable s ∧ Idle now s ∧ (s.cpu 0).ctl = .run k

theorem at_window_zero : At 0 .window := by
  refine ⟨_, Run.Reach.of_guarded (⟨0, .allocproc 0⟩ :: goes 0 4 ++ goes 1 6) (.start rfl) rfl,
    ?_, rfl⟩
  constructor
  · rfl
  · rfl
  · decide
  · rfl
  · rfl
  · decide
  · decide
  · decide

/-- CPU 0 passes through a section that keeps the state of the slot it locks. -/
theorem Idle.visit {now : ℕ} {s : State 2} (h : Idle now s) (hs : QuietlyReachable s) {j k : Cont}
    (sec : Section) (p : Slot) (x : Proc) (hctl : (s.cpu 0).ctl = .run j)
    (hrun : runStep s 0 j .go = s.acquire 0 p sec k)
    (hbody : ∀ t : State 2, t.proc = s.proc →
      critStep t 0 p k sec .go = some (t.body 0 p x (.release p k)))
    (hstate : x.state = (s.proc p).state) (hqueue : (s.proc p).queue = 0 → x.queue = 0)
    (hticks : (s.proc p).ticks = 0 → x.ticks = 0) : At now k := by
  let s₁ := (s.setLock p (some 0)).setCtl 0 (.crit p sec k)
  let s₂ := s₁.body 0 p x (.release p k)
  have hacq : Smp.step s ⟨0, .go⟩ = some s₁ := by
    simp [Smp.step, h.panicked, hctl, hrun, State.acquire, h.free, s₁]
  have hcrit : Smp.step s₁ ⟨0, .go⟩ = some s₂ := by
    simpa [Smp.step, h.panicked, s₁, s₂] using hbody s₁ rfl
  have hrel : Smp.step s₂ ⟨0, .go⟩ = some ((s₂.setLock p none).setCtl 0 (.run k)) := by
    simp [Smp.step, h.panicked, s₁, s₂]
  have hquiet {t : State 2} (ht : t.mlfq = s.mlfq) (a : Action 2) : BoostQuiet t a :=
    boostQuiet_of_empty (fun q => by rw [ht, h.empty q]) a
  have hs₂ : QuietlyReachable s₂ :=
    (hs.next (hquiet rfl _) hacq).next (hquiet (t := s₁) rfl _) hcrit
  refine ⟨_, hs₂.next (hquiet (t := s₂) rfl _) hrel, ?_, by simp [s₁, s₂]⟩
  obtain ⟨hpanic, hnow, hfree, hidle, hthread, hawake, hrunning, hempty⟩ := h
  constructor
  · exact hpanic
  · exact hnow
  · intro q
    by_cases hq : q = p <;> simp [s₁, s₂, hq, hfree]
  · simpa [s₁, s₂] using hidle
  · simpa [s₁, s₂] using hthread
  · intro q
    by_cases hq : q = p <;> simp [s₁, s₂, hq, hstate, hawake]
  · by_cases hq : 0 = p
    · subst hq
      simp [s₁, s₂, hstate, hrunning, hqueue, hticks]
    · simpa [s₁, s₂, hq] using hrunning
  · exact hempty

theorem at_updateTime {now i : ℕ} (hi : i < NPROC) (h : At now (.updateTime i false)) :
    At now (.updateTime (i + 1) false) := by
  obtain ⟨s, hs, hidle, hctl⟩ := h
  refine hidle.visit hs .updateTime ⟨i, hi⟩ (s.proc ⟨i, hi⟩).updateTime hctl ?_ ?_ ?_ ?_ ?_
  · simp [runStep, hi]
  · intro t ht
    simp [critStep, ht]
  · exact Proc.updateTime_state _
  · rw [Proc.updateTime_queue]
    exact id
  · rw [Proc.updateTime_ticks]
    exact id

theorem at_wakeupTicks {now i : ℕ} (hi : i < NPROC) (h : At now (.wakeupTicks i false)) :
    At now (.wakeupTicks (i + 1) false) := by
  obtain ⟨s, hs, hidle, hctl⟩ := h
  refine hidle.visit hs (.wakeup ticksChan) ⟨i, hi⟩ (s.proc ⟨i, hi⟩) hctl ?_ ?_ rfl id id
  · simp [runStep, hi, hidle.idle]
  · intro t ht
    have hsleep : (t.proc ⟨i, hi⟩).sleepsOn ticksChan = false := by
      simp [Proc.sleepsOn, ht, hidle.awake]
    simp [critStep, hsleep, ← ht]

theorem at_boost {now i : ℕ} (hi : i < NPROC) (h : At now (.boost i false)) :
    At now (.boost (i + 1) false) := by
  obtain ⟨s, hs, hidle, hctl⟩ := h
  refine hidle.visit hs .boost ⟨i, hi⟩ (s.proc ⟨i, hi⟩).boost hctl ?_ ?_ rfl ?_ ?_
  · simp [runStep, hi]
  · intro t ht
    simp [critStep, ht]
  · exact fun _ => rfl
  · exact fun _ => rfl

theorem at_sweep {now : ℕ} {k : ℕ → Cont} (hk : ∀ i < NPROC, At now (k i) → At now (k (i + 1)))
    (h : At now (k 0)) : At now (k NPROC) := by
  have hle : ∀ i ≤ NPROC, At now (k i) := by
    intro i
    induction i with
    | zero => exact fun _ => h
    | succ i ih => exact fun hi => hk i hi (ih (Nat.le_of_succ_le hi))
  exact hle NPROC le_rfl

/-- CPU 0 goes on without taking a process lock. -/
theorem Idle.jump {now now' : ℕ} {s t : State 2} (h : Idle now s) (hs : QuietlyReachable s)
    {k : Cont}
    (ch : Choice) (ht : Smp.step s ⟨0, ch⟩ = some t)
    (heq : t = { s with ticks := now' }.setCtl 0 (.run k)) : At now' k := by
  refine ⟨t, hs.next (boostQuiet_of_empty h.empty _) ht, ?_, by simp [heq]⟩
  obtain ⟨hpanic, -, hfree, hidle, hthread, hawake, hrunning, hempty⟩ := h
  subst heq
  exact ⟨hpanic, rfl, hfree, by simpa using hidle, by simpa using hthread, hawake, hrunning, hempty⟩

/-- One clock tick of the idle CPU up to the test for a boost. -/
theorem at_tick {now : ℕ} (hnow : now < 48) (h : At now .window) :
    At (now + 1) (.wakeupTicks NPROC false) := by
  obtain ⟨s, hs, hidle, hctl⟩ := h
  have hmod : (now + 1) % 2 ^ 32 = now + 1 := Nat.mod_eq_of_lt (by omega)
  have hstart : At (now + 1) (.updateTime 0 false) := by
    refine hidle.jump hs .tick ?_ rfl
    simp only [Smp.step, runStep, hidle.panicked, hctl, hidle.ticks, hmod]
    rfl
  obtain ⟨s, hs, hidle, hctl⟩ :=
    at_sweep (k := fun i => .updateTime i false) (fun _ => at_updateTime) hstart
  refine at_sweep (k := fun i => .wakeupTicks i false) (fun _ => at_wakeupTicks) ?_
  refine hidle.jump hs .go ?_ rfl
  simp [Smp.step, hidle.panicked, hctl, runStep, hidle.ticks]

theorem at_window {now : ℕ} (hnow : now < 48) : At now .window := by
  induction now with
  | zero => exact at_window_zero
  | succ now ih =>
      obtain ⟨s, hs, hidle, hctl⟩ := at_tick (by omega) (ih (by omega))
      have hmod : (now + 1) % 48 ≠ 0 := by omega
      refine hidle.jump hs .go ?_ rfl
      simp [Smp.step, hidle.panicked, hctl, runStep, hidle.ticks, hmod, back]

/-- At tick 48 CPU 0 has reset every slot and is about to rebuild the queues. -/
theorem at_rebuild : At 48 (.boost NPROC false) := by
  obtain ⟨s, hs, hidle, hctl⟩ := at_tick (by decide) (at_window (by decide : 47 < 48))
  refine at_sweep (k := fun i => .boost i false) (fun _ => at_boost) ?_
  refine hidle.jump hs .go ?_ rfl
  simp [Smp.step, hidle.panicked, hctl, runStep, hidle.ticks]

/-- The rebuild of empty queues. -/
theorem Idle.rebuild {now : ℕ} {s : State 2} (h : Idle now s)
    (hctl : (s.cpu 0).ctl = .run (.boost NPROC false)) :
    ∃ t, Smp.step s ⟨0, .go⟩ = some t ∧ (t.cpu 0).ctl = .run .window ∧ Idle now t := by
  obtain ⟨m, hm⟩ := Queues.rebuild_isOk (m := s.mlfq) (by simp [Queues.all, h.empty])
  refine ⟨{ s with mlfq := m }.setCtl 0 (.run .window), ?_, by simp, ?_⟩
  · simp [Smp.step, runStep, h.panicked, hctl, hm, back]
  · obtain ⟨hpanic, hnow, hfree, hidle, hthread, hawake, hrunning, hempty⟩ := h
    refine ⟨hpanic, hnow, hfree, by simpa using hidle, by simpa using hthread, hawake, hrunning, ?_⟩
    obtain ⟨hzero, hrest⟩ := Queues.rebuild_ok hm
    intro q
    change m.list q = []
    by_cases hq : q = 0
    · rw [hq, hzero]
      simp [Queues.all, hempty]
    · exact hrest q hq

/-- CPU 1 takes a timer interrupt: `yield` demotes `proc[0]` and stores it in `mlfq[1]`. -/
theorem Idle.yield {now : ℕ} {s : State 2} (h : Idle now s) (hs : QuietlyReachable s) :
    ∃ t : State 2, Run.exec Smp.step (⟨1, .yield⟩ :: goes 1 5) s = some t ∧ QuietlyReachable t ∧
      t.panicked = none ∧ t.cpu 0 = s.cpu 0 ∧ t.lock 0 = none ∧ (t.proc 0).queue = 1 ∧
      t.mlfq.list 1 = [some 0] := by
  obtain ⟨m, hm⟩ := Queues.enqueue_isOk (m := s.mlfq) (q := 1) 0 (by decide) (by
    intro l
    simp [← Queues.length_list, h.empty])
  obtain ⟨hstate, hqueue, hticks⟩ := h.running
  have hexec : ∃ t : State 2, Run.exec (Run.guarded Smp.step BoostQuiet)
      (⟨1, .yield⟩ :: goes 1 5) s = some t ∧
      t.panicked = none ∧ t.cpu 0 = s.cpu 0 ∧ t.lock 0 = none ∧ (t.proc 0).queue = 1 ∧
      t.mlfq = m := by
    simp [goes, List.replicate, Run.guarded, BoostQuiet, Smp.step, runStep, critStep, h.panicked,
      h.thread, h.free, State.acquire, hqueue, hticks, hm, Proc.yieldTick, Proc.givesUp,
      Proc.slice, Proc.demote, Proc.makeRunnable, Proc.setContext]
  obtain ⟨t, ht, hpanic, hcpu, hfree, hlevel, rfl⟩ := hexec
  refine ⟨t, Run.exec_of_guarded _ ht, hs.of_guarded _ ht, hpanic, hcpu, hfree, hlevel, ?_⟩
  obtain ⟨l, hl, r, hr, hlist⟩ := Queues.enqueue_ok hm
  have hone : l = 1 := Fin.ext (by exact_mod_cast hl.symm)
  subst hone
  rw [hr, Queues.list_update_self, hlist, h.empty, List.nil_append]

/-! ## Agreement and the race -/

/-- While every step of `boost_priority` finds nothing waiting below level 0, a
stored process whose lock is free has the level it is stored at. -/
theorem levelsAgree_of_boostQuiet {s : State n}
    (hs : Run.Reach (· = State.boot n) step BoostQuiet s) : LevelsAgree s := by
  have hlevels : Levels s := by
    refine Run.Reach.invariant (P := Levels) hs ?_ ?_
    · rintro s rfl p q hp
      simp [State.boot] at hp
    · intro s a t hr hl hquiet ht
      exact levels_step (Reachable.invariants hr.any).1 hl hquiet ht
  intro p q _ hp
  exact hlevels p q hp

/-- At tick 48 the boost finds nothing waiting; then `yield` demotes `proc[0]` and stores it at
its level. -/
theorem levelsAgree_after_boost :
    ∃ s t u : State 2, s.ticks = 48 ∧ (s.cpu 0).ctl = .run (.boost NPROC false) ∧
      Smp.step s ⟨0, .go⟩ = some t ∧ (t.cpu 0).ctl = .run .window ∧
      Run.exec Smp.step (⟨1, .yield⟩ :: goes 1 5) t = some u ∧
      u.lock 0 = none ∧ some 0 ∈ u.mlfq.list 1 ∧ LevelsAgree u := by
  obtain ⟨s, hs, hidle, hctl⟩ := at_rebuild
  obtain ⟨t, ht, hwindow, hidle'⟩ := hidle.rebuild hctl
  obtain ⟨u, hu, hquiet, -, -, hfree, -, hlist⟩ :=
    hidle'.yield (hs.next (boostQuiet_of_empty hidle.empty _) ht)
  refine ⟨s, t, u, hidle.ticks, hctl, ht, hwindow, hu, hfree, by simp [hlist], ?_⟩
  exact levelsAgree_of_boostQuiet hquiet

/-- The rebuild stores the process that CPU 1 has just demoted at level 0. -/
theorem not_levelsAgree_boost_race :
    ∃ s : State 2, Reachable s ∧ s.lock 0 = none ∧ some 0 ∈ s.mlfq.list 0 ∧
      (s.proc 0).queue = 1 ∧ ¬ LevelsAgree s := by
  obtain ⟨s, hs, hidle, hctl⟩ := at_rebuild
  obtain ⟨t, -, hquiet, hpanic, hcpu, hfree, hlevel, hlist⟩ := hidle.yield hs
  have ht : Reachable t := hquiet.any
  obtain ⟨m, hm⟩ := Queues.rebuild_isOk (Reachable.invariants ht).1.length_all_le
  have hstep : Smp.step t ⟨0, .go⟩ = some ({ t with mlfq := m }.setCtl 0 (.run .window)) := by
    simp [Smp.step, runStep, hpanic, hcpu, hctl, hm, back]
  have hstored : some 0 ∈ m.list 0 := by
    rw [(Queues.rebuild_ok hm).1, Queues.mem_all]
    exact ⟨1, by simp [hlist]⟩
  refine ⟨_, Run.Reach.next ht trivial hstep, hfree, hstored, hlevel, ?_⟩
  intro hagree
  have hzero : (t.proc 0).queue = (0 : Level) := hagree 0 0 hfree hstored
  rw [hlevel] at hzero
  exact absurd hzero (by decide)

end ShellXv6.Xv6.Smp
