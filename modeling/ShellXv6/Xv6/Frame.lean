import ShellXv6.Xv6.Refinement

/-!
# What a step leaves alone

A control point stays consistent with `c->proc` and with the progress of
`update_time`, a CPU writes only the slot whose lock it holds, and it neither
takes nor releases a lock that another CPU holds.
-/

namespace ShellXv6.Xv6.Smp

variable {n : ℕ}

/-! ## Control points stay sound -/

namespace Cpu.Sound

variable {x : Cpu} {p q : Slot} {sec : Section} {j k : Cont}

theorem thread (h : x.Sound) (hctl : x.ctl = .crit p sec k) : x.proc.isSome = k.inThread := by
  have hwf := h.wf
  cases sec with
  | schedule i =>
      simp only [Wf, hctl] at hwf
      obtain ⟨hproc, rfl⟩ := hwf
      rw [hproc]
      rfl
  | _ =>
      simp only [Wf, hctl] at hwf
      exact hwf.1

theorem own (h : x.Sound) (hctl : x.ctl = .crit p sec k) (hsec : sec.own = true) :
    x.proc = some p := by
  have hwf := h.wf
  cases sec <;> simp_all [Wf, Section.own]

theorem clock (h : x.Sound) (hctl : x.ctl = .crit p sec k) (hsec : sec ≠ .updateTime) :
    k.clock = none := by
  have hpaced := h.paced
  rw [hctl] at hpaced
  cases sec <;> first
    | exact absurd rfl hsec
    | exact hpaced

theorem jump (h : x.Sound) (hctl : x.ctl = .run j) (hk : k.inThread = j.inThread) :
    Sound { x with ctl := .run k } := by
  have hwf := h.wf
  simp only [Wf, hctl] at hwf
  exact ⟨hwf.trans hk.symm, trivial, by simp⟩

theorem release (h : x.Sound) (hctl : x.ctl = .crit p sec k) :
    Sound { x with ctl := .release p k } :=
  ⟨h.thread hctl, trivial, by simp⟩

theorem enqueue (h : x.Sound) (hctl : x.ctl = .crit p sec k) (hsec : sec ≠ .updateTime) :
    Sound { x with ctl := .enqueue p k } :=
  ⟨h.thread hctl, h.clock hctl hsec, by simp⟩

theorem swtch (h : x.Sound) (hctl : x.ctl = .crit p sec k) (hsec : sec.own = true) :
    Sound { x with ctl := .swtch p } :=
  ⟨h.own hctl hsec, trivial, by simp⟩

/-- Sections are entered by code that holds no lock, and on the slot of the
current process if the section is its own. -/
theorem crit (h : x.Sound) (hctl : x.ctl = .run j) (hk : k.inThread = j.inThread)
    (hsched : ∀ i, sec ≠ .schedule i)
    (hown : sec.own = true ∨ sec = .setkilled → x.proc = some p)
    (hpaced : (Ctl.crit p sec k).Paced) : Sound { x with ctl := .crit p sec k } := by
  have hwf := h.wf
  simp only [Wf, hctl] at hwf
  refine ⟨?_, hpaced, ?_⟩
  · cases sec <;> first
      | exact absurd rfl (hsched _)
      | exact ⟨hwf.trans hk.symm, fun ho => hown (.inl ho)⟩
  · intro p' k' heq
    cases heq
    exact hown (.inr rfl)

/-- A section goes on in another section of the same lock. -/
theorem next (h : x.Sound) (hctl : x.ctl = .crit p sec k) (hsec : sec ≠ .updateTime)
    {sec' : Section} (hsched : ∀ i, sec' ≠ .schedule i) (htime : sec' ≠ .updateTime)
    (hself : sec' ≠ .setkilled) (hown : sec'.own = true → sec.own = true) :
    Sound { x with ctl := .crit p sec' k } := by
  refine ⟨?_, ?_, ?_⟩
  · cases sec' <;> first
      | exact absurd rfl (hsched _)
      | exact ⟨h.thread hctl, fun ho => h.own hctl (hown ho)⟩
  · have hk := h.clock hctl hsec
    cases sec' <;> first
      | exact absurd rfl htime
      | exact hk
  · intro p' k' heq
    cases heq
    exact absurd rfl hself

end Cpu.Sound

/-- What a step of CPU `c` can do to the others and to the locks. -/
structure Frame (s t : State n) (c : Fin n) : Prop where
  others : ∀ c', c' ≠ c → t.cpu c' = s.cpu c'
  sound : (s.cpu c).Sound → (t.cpu c).Sound
  life : ∀ q, (s.cpu c).ctl.holds ≠ some q → (t.proc q).life = (s.proc q).life
  lock : ∀ q, (s.cpu c).ctl.holds ≠ some q → s.lock q ≠ none → t.lock q = s.lock q
  owns : ∀ q, (t.cpu c).ctl.holds = some q →
    (s.cpu c).ctl.holds = some q ∧ t.lock q = s.lock q ∨ t.lock q = some c

theorem Frame.locked {s t : State n} {c : Fin n} (h : Frame s t c)
    (hlocked : ∀ q, (s.cpu c).ctl.holds = some q → s.lock q = some c) (q : Slot)
    (hq : (t.cpu c).ctl.holds = some q) : t.lock q = some c := by
  rcases h.owns q hq with ⟨hold, hsame⟩ | hnew
  · rw [hsame, hlocked q hold]
  · exact hnew

/-- Only the control point of `c` and fields outside the frame change. -/
theorem Frame.move {s u : State n} {c : Fin n} {y : Cpu} (hcpu : u.cpu = Function.update s.cpu c y)
    (hlock : u.lock = s.lock)
    (hlife : ∀ q, (s.cpu c).ctl.holds ≠ some q → (u.proc q).life = (s.proc q).life)
    (hholds : y.ctl.holds = (s.cpu c).ctl.holds) (hsound : (s.cpu c).Sound → y.Sound) :
    Frame s u c where
  others c' hc := by rw [hcpu, Function.update_of_ne hc]
  sound h := by
    rw [hcpu, Function.update_self]
    exact hsound h
  life := hlife
  lock q _ _ := by rw [hlock]
  owns q hq := by
    rw [hcpu, Function.update_self, hholds] at hq
    exact .inl ⟨hq, by rw [hlock]⟩

theorem Frame.acquire {s u : State n} {c : Fin n} {p : Slot} {sec : Section} {k : Cont}
    (hcpu : u.cpu = s.cpu) (hlock : u.lock = s.lock)
    (hlife : ∀ q, (u.proc q).life = (s.proc q).life) (hfree : u.lock p = none)
    (hsound : (s.cpu c).Sound → Cpu.Sound { s.cpu c with ctl := .crit p sec k }) :
    Frame s ((u.setLock p (some c)).setCtl c (.crit p sec k)) c := by
  rw [hlock] at hfree
  have htcpu : ((u.setLock p (some c)).setCtl c (.crit p sec k)).cpu =
      Function.update s.cpu c { s.cpu c with ctl := .crit p sec k } := by
    simp only [State.setCtl, State.setCpu, State.setLock, hcpu]
  have htlock : ((u.setLock p (some c)).setCtl c (.crit p sec k)).lock =
      Function.update s.lock p (some c) := by
    simp only [State.setCtl, State.setCpu, State.setLock, hlock]
  refine ⟨?_, ?_, fun q _ => hlife q, ?_, ?_⟩
  · intro c' hc
    rw [htcpu, Function.update_of_ne hc]
  · intro h
    rw [htcpu, Function.update_self]
    exact hsound h
  · intro q _ hq
    have hne : q ≠ p := by
      rintro rfl
      exact hq hfree
    rw [htlock, Function.update_of_ne hne]
  · intro q hq
    rw [htcpu, Function.update_self] at hq
    cases hq
    rw [htlock, Function.update_self]
    exact .inr rfl

theorem Frame.release {s u : State n} {c : Fin n} {p : Slot} {y : Cpu}
    (hold : (s.cpu c).ctl.holds = some p) (hcpu : u.cpu = Function.update s.cpu c y)
    (hlock : u.lock = Function.update s.lock p none)
    (hlife : ∀ q, q ≠ p → (u.proc q).life = (s.proc q).life)
    (hnone : y.ctl.holds = none) (hsound : (s.cpu c).Sound → y.Sound) : Frame s u c := by
  have hne : ∀ q, (s.cpu c).ctl.holds ≠ some q → q ≠ p := by
    rintro q hq rfl
    exact hq hold
  refine ⟨?_, ?_, fun q hq => hlife q (hne q hq), ?_, ?_⟩
  · intro c' hc
    rw [hcpu, Function.update_of_ne hc]
  · intro h
    rw [hcpu, Function.update_self]
    exact hsound h
  · intro q hq _
    rw [hlock, Function.update_of_ne (hne q hq)]
  · intro q hq
    rw [hcpu, Function.update_self, hnone] at hq
    cases hq

theorem frame_run {s t : State n} {c : Fin n} {k : Cont} {ch : Choice}
    (hctl : (s.cpu c).ctl = .run k) (ht : runStep s c k ch = some t) : Frame s t c := by
  have hnone : (s.cpu c).ctl.holds = none := by
    rw [hctl]
    rfl
  have jump {u : State n} {j : Cont} (hcpu : u.cpu = s.cpu) (hlock : u.lock = s.lock)
      (hproc : u.proc = s.proc) (hj : j.inThread = k.inThread) :
      Frame s (u.setCtl c (.run j)) c := by
    refine .move (y := { s.cpu c with ctl := .run j }) ?_ hlock ?_ hnone.symm
      fun h => h.jump hctl hj
    · simp only [State.setCtl, State.setCpu, hcpu]
    · intro q _
      change (u.proc q).life = _
      rw [hproc]
  have enter {p : Slot} {sec : Section} {j : Cont} (ht : s.acquire c p sec j = some t)
      (hj : j.inThread = k.inThread) (hsched : ∀ i, sec ≠ .schedule i)
      (hown : sec.own = true ∨ sec = .setkilled → (s.cpu c).proc = some p)
      (hpaced : (Ctl.crit p sec j).Paced) : Frame s t c := by
    obtain ⟨hfree, rfl⟩ := acquire_eq_some_iff.mp ht
    exact .acquire rfl rfl (fun _ => rfl) hfree fun h => h.crit hctl hj hsched hown hpaced
  revert ht
  fun_cases runStep s c k ch <;> intro ht
  case case10 me hme np hfork =>
    cases ht
    refine .move (y := s.cpu c) (Function.update_eq_self c s.cpu).symm rfl ?_ rfl fun h => h
    intro q _
    change (Function.update s.proc np ((s.proc np).setParent (some me)) q).life = _
    by_cases hq : q = np
    · rw [hq, Function.update_self, Proc.life_setParent]
    · rw [Function.update_of_ne hq]
  case case12 me _ np _ =>
    obtain ⟨hfree, rfl⟩ := acquire_eq_some_iff.mp ht
    exact .acquire (u := s.setForking me none) rfl rfl (fun _ => rfl) hfree fun h =>
      h.crit hctl rfl (by simp) (by simp [Section.own]) rfl
  case case14 me hme | case23 me hme =>
    exact enter ht rfl (by simp) (fun _ => hme) rfl
  case case15 me chan hme _ =>
    exact enter ht rfl (by simp) (fun _ => hme) rfl
  case case17 me status hme hok =>
    obtain ⟨hfree, rfl⟩ := acquire_eq_some_iff.mp ht
    refine .acquire (u := s.reparent me) rfl rfl ?_ hfree fun h =>
      h.crit hctl rfl (by simp) (fun _ => hme) rfl
    intro q
    unfold State.reparent
    dsimp only
    split_ifs <;> rfl
  case case35 =>
    cases ht
    refine .move (y := { s.cpu c with ctl := .found _ _ }) rfl rfl (fun _ _ => rfl) hnone.symm
      fun h => ?_
    have hwf := h.wf
    simp only [Cpu.Wf, hctl] at hwf
    exact ⟨Option.isNone_iff_eq_none.mp (Option.isSome_eq_false_iff.mp hwf), trivial, by simp⟩
  case case42 | case44 =>
    cases ht
    exact jump rfl rfl rfl (back_inThread _)
  case case45 =>
    cases ht
    exact .move (y := s.cpu c) (Function.update_eq_self c s.cpu).symm rfl (fun _ _ => rfl) rfl
      fun h => h
  all_goals first
    | cases ht; done
    | exact enter ht rfl (by simp) (by simp [Section.own]) rfl
    | (cases ht; exact jump rfl rfl rfl rfl)

theorem frame_crit {s t : State n} {c : Fin n} {p : Slot} {k : Cont} {sec : Section}
    {ch : Choice} (hctl : (s.cpu c).ctl = .crit p sec k)
    (ht : critStep s c p k sec ch = some t) : Frame s t c := by
  have hold : (s.cpu c).ctl.holds = some p := by
    rw [hctl]
    rfl
  have move {u : State n} {ctl : Ctl} (hcpu : u.cpu = s.cpu) (hlock : u.lock = s.lock)
      (hproc : u.proc = s.proc) (hholds : ctl.holds = some p)
      (hsound : (s.cpu c).Sound → Cpu.Sound { s.cpu c with ctl := ctl }) :
      Frame s (u.setCtl c ctl) c := by
    refine .move (y := { s.cpu c with ctl := ctl }) ?_ hlock ?_ (hholds.trans hold.symm) hsound
    · simp only [State.setCtl, State.setCpu, hcpu]
    · intro q _
      change (u.proc q).life = _
      rw [hproc]
  have body {u : State n} {x : Proc} {ctl : Ctl} (hcpu : u.cpu = s.cpu) (hlock : u.lock = s.lock)
      (hproc : u.proc = s.proc) (hholds : ctl.holds = some p)
      (hsound : (s.cpu c).Sound → Cpu.Sound { s.cpu c with ctl := ctl }) :
      Frame s (u.body c p x ctl) c := by
    refine .move (y := { s.cpu c with ctl := ctl }) ?_ hlock ?_ (hholds.trans hold.symm) hsound
    · simp only [State.body, State.setProc, State.setCtl, State.setCpu, hcpu]
    · intro q hq
      have hne : q ≠ p := by
        rintro rfl
        exact hq hold
      change (Function.update u.proc p x q).life = _
      rw [Function.update_of_ne hne, hproc]
  revert ht
  fun_cases critStep s c p k sec ch <;> intro ht
  all_goals simp only [reduceCtorEq, Option.some.injEq] at ht
  all_goals subst ht
  case case3 =>
    exact .move (y := s.cpu c) (Function.update_eq_self c s.cpu).symm rfl (fun _ _ => rfl) rfl
      fun h => h
  case case31 =>
    refine .move (y := ⟨some p, .resume p⟩) rfl rfl ?_ hold.symm fun _ => ⟨rfl, trivial, by simp⟩
    intro q hq
    have hne : q ≠ p := by
      rintro rfl
      exact hq hold
    change (Function.update s.proc p _ q).life = _
    rw [Function.update_of_ne hne]
  case case15 =>
    exact body rfl rfl rfl rfl fun h => ⟨h.own hctl rfl, trivial, by simp⟩
  all_goals first
    | exact move rfl rfl rfl rfl fun h => h.release hctl
    | exact body rfl rfl rfl rfl fun h => h.release hctl
    | exact body rfl rfl rfl rfl fun h => h.enqueue hctl (by simp)
    | exact body rfl rfl rfl rfl fun h => h.swtch hctl rfl
    | exact body rfl rfl rfl rfl fun h =>
        h.next hctl (by simp) (by simp) (by simp) (by simp) (by simp [Section.own])
    | exact move rfl rfl rfl rfl fun h =>
        h.next hctl (by simp) (by simp) (by simp) (by simp) (by simp [Section.own])

theorem frame_step {s t : State n} {a : Action n} (ht : step s a = some t) :
    Frame s t a.cpu := by
  obtain ⟨c, ch⟩ := a
  cases (steps_of_step ht).2 with
  | run hctl ht => exact frame_run hctl ht
  | crit hctl ht => exact frame_crit hctl ht
  | @found i p hctl hlock =>
      refine .acquire rfl rfl (fun _ => rfl) hlock fun h => ?_
      have hwf := h.wf
      simp only [Cpu.Wf, hctl] at hwf
      exact ⟨⟨hwf, rfl⟩, rfl, by simp⟩
  | @enqueue p k m hctl hm =>
      refine .move (y := { s.cpu c with ctl := .release p k }) rfl rfl (fun _ _ => rfl)
        (by rw [hctl]; rfl) fun h => ?_
      have hwf := h.wf
      simp only [Cpu.Wf, hctl] at hwf
      exact ⟨hwf, trivial, by simp⟩
  | @enqueueYield p m hctl hm =>
      have hold : (s.cpu c).ctl.holds = some p := by
        rw [hctl]
        rfl
      refine .move (y := { s.cpu c with ctl := .swtch p }) rfl rfl ?_ hold.symm fun h => ?_
      · intro q hq
        have hne : q ≠ p := by
          rintro rfl
          exact hq hold
        change (Function.update s.proc p _ q).life = _
        rw [Function.update_of_ne hne]
      · have hwf := h.wf
        simp only [Cpu.Wf, hctl] at hwf
        exact ⟨hwf, trivial, by simp⟩
  | enqueueFails hctl hm =>
      exact .move (y := s.cpu c) (Function.update_eq_self c s.cpu).symm rfl (fun _ _ => rfl) rfl
        fun h => h
  | @release p k hctl =>
      refine .release (by rw [hctl]; rfl) rfl rfl (fun _ _ => rfl) rfl fun h => ?_
      have hwf := h.wf
      simp only [Cpu.Wf, hctl] at hwf
      exact ⟨hwf, trivial, by simp⟩
  | @swtch p hctl =>
      exact .release (by rw [hctl]; rfl) rfl rfl (fun _ _ => rfl) rfl
        fun _ => ⟨rfl, trivial, by simp⟩
  | @resume p hctl =>
      refine .release (p := p) (by rw [hctl]; rfl) rfl rfl ?_ rfl fun h => ?_
      · intro q hq
        change (Function.update s.proc p _ q).life = _
        rw [Function.update_of_ne hq]
      · have hwf := h.wf
        simp only [Cpu.Wf, hctl] at hwf
        refine ⟨?_, trivial, by simp⟩
        change (s.cpu c).proc.isSome = true
        rw [hwf]
        rfl

end ShellXv6.Xv6.Smp
