import ShellXv6.Xv6.Builds
import ShellXv6.Xv6.Frame

/-!
# Every build refines the life of a process

The FIFO and round-robin schedulers hold locks of their own while they scan.
With them in the account, every step of every build is a step of the table of
lives, from power-on and for any number of CPUs.
-/

namespace ShellXv6.Xv6.Kernel

open Lifecycle (Table Mark Step)
open Smp (Action Choice Cont Ctl Cpu Frame)

variable {n : ℕ} {b : Build}

/-! ## Steps outside the scheduler loop -/

/-- What a step outside the loop makes of the state, where it is not that of the
MLFQ build. -/
inductive CoreSteps (s : Smp.State n) (c : Fin n) (ch : Choice) : Smp.State n → Prop
  | same {t : Smp.State n} (ht : Smp.step s ⟨c, ch⟩ = some t) : CoreSteps s c ch t
  | noBoost {k : ℕ} {ft : Bool} (hctl : (s.cpu c).ctl = .run (.wakeupTicks k ft)) (hch : ch = .go) :
      CoreSteps s c ch (s.setCtl c (.run (Smp.back ft)))
  | yield {p : Slot} {k : Cont} (hctl : (s.cpu c).ctl = .crit p .yield k) (hch : ch = .go) :
      CoreSteps s c ch (s.body c p ((s.proc p).makeRunnable.setContext .yield) (.swtch p))
  | noEnqueue {p : Slot} {k : Cont} (hctl : (s.cpu c).ctl = .enqueue p k) (hch : ch = .go) :
      CoreSteps s c ch (s.setCtl c (.release p k))

theorem coreSteps_of_coreStep {s t : Smp.State n} {c : Fin n} {ch : Choice}
    (ht : coreStep b s c ch = some t) : CoreSteps s c ch t := by
  revert ht
  fun_cases coreStep b s c ch
  all_goals
    intro ht
    first
    | exact .same ht
    | cases ht
  · exact .noBoost (by assumption) rfl
  · exact .yield (by assumption) rfl
  · exact .noEnqueue (by assumption) rfl

theorem CoreSteps.refines {s t : Smp.State n} {c : Fin n} {ch : Choice} (h : CoreSteps s c ch t)
    (hsound : (s.cpu c).Sound) : Step s.view c (Smp.mark s ⟨c, ch⟩) t.view := by
  cases h with
  | same ht => exact Smp.refines_step hsound ht
  | noBoost hctl hch =>
      subst hch
      simp only [Smp.mark, hctl]
      exact Step.silent.of_eq (Smp.view_setCtl s hctl rfl rfl (Smp.clock_back _))
  | yield hctl hch =>
      subst hch
      simp only [Smp.mark, hctl]
      exact Smp.refines_leave hctl (hsound.own hctl rfl) rfl rfl rfl rfl rfl rfl (.inr (.inl rfl))
  | noEnqueue hctl hch =>
      subst hch
      have hpaced := hsound.paced
      rw [hctl] at hpaced
      simp only [Smp.mark, hctl]
      exact Step.silent.of_eq (Smp.view_setCtl s hctl rfl rfl hpaced)

theorem CoreSteps.frame {s t : Smp.State n} {c : Fin n} {ch : Choice} (h : CoreSteps s c ch t) :
    Frame s t c := by
  cases h with
  | same ht => exact Smp.frame_step ht
  | @noBoost k ft hctl _ =>
      exact .move (y := { s.cpu c with ctl := .run (Smp.back ft) }) rfl rfl (fun _ _ => rfl)
        (by rw [hctl]; rfl) fun h => h.jump hctl (Smp.back_inThread ft)
  | @yield p k hctl _ =>
      have hold : (s.cpu c).ctl.holds = some p := by
        rw [hctl]
        rfl
      refine .move (y := { s.cpu c with ctl := .swtch p }) rfl rfl ?_ hold.symm
        fun h => h.swtch hctl rfl
      intro q hq
      have hne : q ≠ p := by
        rintro rfl
        exact hq hold
      change (Function.update s.proc p _ q).life = _
      rw [Function.update_of_ne hne]
  | @noEnqueue p k hctl _ =>
      refine .move (y := { s.cpu c with ctl := .release p k }) rfl rfl (fun _ _ => rfl)
        (by rw [hctl]; rfl) fun h => ?_
      have hwf := h.wf
      simp only [Cpu.Wf, hctl] at hwf
      exact ⟨hwf, trivial, by simp⟩

/-! ## All steps -/

def State.view (s : State n) : Table n := s.core.view

/-- What a step counts as. -/
def mark (b : Build) (s : State n) (a : Action n) : Mark :=
  if b = .MLFQ then Smp.mark s.core a
  else
    match s.scan a.cpu with
    | none => Smp.mark s.core a
    | some (.look p _) =>
        if b = .RR ∧ (s.core.proc p).state = .RUNNABLE then .dispatch p else .silent
    | some (.next k min_p) =>
        if (s.core.cpu a.cpu).ctl = .run .window ∧ a.choice = .go then
          match min_p with
          | some p => if k < NPROC then .silent else .dispatch p
          | none => .silent
        else Smp.mark s.core a

/-- A scan dispatches and is silent otherwise. -/
theorem mark_cases (b : Build) (s : State n) (a : Action n) :
    mark b s a = Smp.mark s.core a ∨ mark b s a = .silent ∨ ∃ p, mark b s a = .dispatch p ∧
      ((∃ min_p, b = .RR ∧ s.scan a.cpu = some (.look p min_p)) ∨
        ∃ k, ¬k < NPROC ∧ s.scan a.cpu = some (.next k (some p))) := by
  fun_cases mark b s a
  case case3 p min_p hscan hrr => exact .inr (.inr ⟨p, rfl, .inl ⟨min_p, hrr.1, hscan⟩⟩)
  case case6 k _ p hk hscan => exact .inr (.inr ⟨p, rfl, .inr ⟨k, hk, hscan⟩⟩)
  all_goals first
    | exact .inl rfl
    | exact .inr (.inl rfl)

/-- CPU `c` is not in the loop of its scheduler, or it may take or has taken an
interrupt there. -/
def Outside (b : Build) (s : State n) (c : Fin n) : Prop :=
  b = .MLFQ ∨ s.scan c = none ∨
    ∃ k min_p, s.scan c = some (.next k min_p) ∧ (b = .RR ∨ (s.core.cpu c).ctl ≠ .run .window)

/-- What a step of CPU `c` needs and what it makes of the state. -/
inductive Steps (b : Build) (s : State n) (c : Fin n) (ch : Choice) : State n → Prop
  | core {t : Smp.State n} (hscan : Outside b s c)
      (hmark : mark b s ⟨c, ch⟩ = Smp.mark s.core ⟨c, ch⟩)
      (ht : CoreSteps s.core c ch t)
      (hgo : b = .MLFQ ∨ (s.core.cpu c).ctl ≠ .run .window ∨ ch ≠ .go) :
      Steps b s c ch { s with core := t }
  | switched {p : Slot} {t : Smp.State n} (hb : b = .RR) (hscan : s.scan c = none)
      (hctl : (s.core.cpu c).ctl = .swtch p) (ht : CoreSteps s.core c ch t) :
      Steps b s c ch ({ s with core := t }.setScan c (some (.next (p.val + 1) none)))
  | start (hb : b ≠ .MLFQ) (hscan : s.scan c = none) (hctl : (s.core.cpu c).ctl = .run .window)
      (hch : ch = .go) : Steps b s c ch (s.setScan c (some (.next 0 none)))
  | acquire {k : ℕ} {min_p : Option Slot} (hb : b ≠ .MLFQ) (h : k < NPROC)
      (hscan : s.scan c = some (.next k min_p)) (hctl : (s.core.cpu c).ctl = .run .window)
      (hch : ch = .go) (hfree : s.core.lock ⟨k, h⟩ = none) :
      Steps b s c ch ({ s with core := s.core.setLock ⟨k, h⟩ (some c) }.setScan c
        (some (.look ⟨k, h⟩ min_p)))
  | dispatch {k : ℕ} {p : Slot} (hb : b ≠ .MLFQ) (hk : ¬k < NPROC)
      (hscan : s.scan c = some (.next k (some p))) (hctl : (s.core.cpu c).ctl = .run .window)
      (hch : ch = .go) : Steps b s c ch (s.dispatch c p)
  | wait {k : ℕ} (hb : b ≠ .MLFQ) (hscan : s.scan c = some (.next k none))
      (hctl : (s.core.cpu c).ctl = .run .window) (hch : ch = .go) :
      Steps b s c ch (s.setScan c none)
  | look {p : Slot} {min_p : Option Slot} (hb : b ≠ .MLFQ)
      (hscan : s.scan c = some (.look p min_p)) : Steps b s c ch (scanLook b s c p min_p)

theorem steps_of_restStep {s t : State n} {c : Fin n} {ch : Choice} (hscan : Outside b s c)
    (hmark : mark b s ⟨c, ch⟩ = Smp.mark s.core ⟨c, ch⟩)
    (hgo : b = .MLFQ ∨ (s.core.cpu c).ctl ≠ .run .window ∨ ch ≠ .go)
    (ht : restStep b s c ch = some t) : Steps b s c ch t := by
  obtain ⟨u, hu, rfl⟩ := Option.map_eq_some_iff.mp ht
  exact .core hscan hmark (coreSteps_of_coreStep hu) hgo

theorem steps_of_outerStep {s t : State n} {c : Fin n} {ch : Choice} (hb : b ≠ .MLFQ)
    (hscan : s.scan c = none) (ht : outerStep b s c ch = some t) : Steps b s c ch t := by
  have hmark : ∀ ch, mark b s ⟨c, ch⟩ = Smp.mark s.core ⟨c, ch⟩ := by
    intro ch
    simp [mark, hb, hscan]
  revert ht
  fun_cases outerStep b s c ch <;> intro ht
  case case1 hctl =>
    cases ht
    exact .start hb hscan hctl rfl
  case case2 p hctl hrr =>
    obtain ⟨u, hu, rfl⟩ := Option.map_eq_some_iff.mp ht
    obtain ⟨v, hv, rfl⟩ := Option.map_eq_some_iff.mp hu
    exact .switched hrr hscan hctl (coreSteps_of_coreStep hv)
  case case3 p hctl _ =>
    exact steps_of_restStep (.inr (.inl hscan)) (hmark _) (.inr (.inl (by simp [hctl]))) ht
  case case4 hwindow _ =>
    refine steps_of_restStep (.inr (.inl hscan)) (hmark _) (.inr ?_) ht
    by_cases hctl : (s.core.cpu c).ctl = .run .window
    · exact .inr (hwindow hctl)
    · exact .inl hctl

theorem steps_of_scanNext {s t : State n} {c : Fin n} {k : ℕ} {min_p : Option Slot}
    (hb : b ≠ .MLFQ) (hscan : s.scan c = some (.next k min_p))
    (hctl : (s.core.cpu c).ctl = .run .window) (ht : scanNext s c k min_p = some t) :
    Steps b s c .go t := by
  revert ht
  fun_cases scanNext s c k min_p <;> intro ht
  case case1 hk hfree =>
    cases ht
    exact .acquire hb hk hscan hctl rfl hfree
  case case2 => cases ht
  case case3 hk p =>
    cases ht
    exact .dispatch hb hk hscan hctl rfl
  case case4 =>
    cases ht
    exact .wait hb hscan hctl rfl

theorem steps_of_step {s t : State n} {a : Action n} (ht : step b s a = some t) :
    Steps b s a.cpu a.choice t := by
  obtain ⟨c, ch⟩ := a
  revert ht
  fun_cases step b s ⟨c, ch⟩ <;> intro ht
  case case1 hb => exact steps_of_restStep (.inl hb) (by simp [mark, hb]) (.inl hb) ht
  case case3 hb _ hscan => exact steps_of_outerStep hb hscan ht
  case case4 hb _ p min_p hscan hch =>
    cases ht
    exact .look hb hscan
  case case6 hb _ k min_p hscan hctl hch =>
    cases hch
    exact steps_of_scanNext hb hscan hctl ht
  case case7 hb _ k min_p hscan hctl hch hrr =>
    have hmark : mark b s ⟨c, ch⟩ = Smp.mark s.core ⟨c, ch⟩ := by
      have hgo : ch ≠ .go := hch
      simp [mark, hrr, hscan, hgo]
    exact steps_of_restStep (.inr (.inr ⟨k, min_p, hscan, .inl hrr⟩)) hmark (.inr (.inr hch)) ht
  case case9 hb _ k min_p hscan hctl =>
    have hmark : mark b s ⟨c, ch⟩ = Smp.mark s.core ⟨c, ch⟩ := by
      simp [mark, hb, hscan, hctl]
    exact steps_of_restStep (.inr (.inr ⟨k, min_p, hscan, .inr hctl⟩)) hmark (.inr (.inl hctl)) ht
  all_goals cases ht

theorem Steps.others {s t : State n} {c c' : Fin n} {ch : Choice} (h : Steps b s c ch t)
    (hc : c' ≠ c) : t.core.cpu c' = s.core.cpu c' := by
  cases h with
  | core _ _ ht => exact ht.frame.others c' hc
  | switched _ _ _ ht => exact ht.frame.others c' hc
  | start | acquire | wait => rfl
  | dispatch => exact Function.update_of_ne hc _ s.core.cpu
  | @look p min_p _ _ =>
      fun_cases scanLook b s c p min_p
      case case1 => cases min_p <;> rfl
      case case3 => exact Function.update_of_ne hc _ s.core.cpu
      all_goals rfl

/-- A CPU moves outside the loop, stays where it is, or has just dispatched. -/
theorem Steps.own {s t : State n} {c : Fin n} {ch : Choice} (h : Steps b s c ch t) :
    (CoreSteps s.core c ch t.core ∧
        (b = .MLFQ ∨ (s.core.cpu c).ctl ≠ .run .window ∨ ch ≠ .go)) ∨
      t.core.cpu c = s.core.cpu c ∨ ∃ p, t.core.cpu c = ⟨some p, .resume p⟩ := by
  cases h with
  | core _ _ ht hgo => exact .inl ⟨ht, hgo⟩
  | switched _ _ hctl ht => exact .inl ⟨ht, .inr (.inl (by simp [hctl]))⟩
  | start | acquire | wait => exact .inr (.inl rfl)
  | @dispatch k p => exact .inr (.inr ⟨p, Function.update_self c _ s.core.cpu⟩)
  | @look p min_p _ _ =>
      fun_cases scanLook b s c p min_p
      case case1 => cases min_p <;> exact .inr (.inl rfl)
      case case3 => exact .inr (.inr ⟨p, Function.update_self c _ s.core.cpu⟩)
      all_goals exact .inr (.inl rfl)

/-! ## Locks of the scan -/

def Scan.minOf : Scan → Option Slot
  | .next _ min_p => min_p
  | .look _ min_p => min_p

def Scan.slot : Scan → Option Slot
  | .next _ _ => none
  | .look p _ => some p

/-- A scan in progress on CPU `c`. -/
structure Scanning (b : Build) (s : State n) (c : Fin n) (x : Scan) : Prop where
  build : b ≠ .MLFQ
  window : b = .FIFO ∨ x.slot.isSome → (s.core.cpu c).ctl = .run .window
  plain : b = .RR → x.minOf = none
  ready : ∀ q, x.minOf = some q →
    s.core.lock q = some c ∧ (s.core.proc q).state = .RUNNABLE
  locked : ∀ q, x.slot = some q → s.core.lock q = some c ∧ x.minOf ≠ some q

structure Inv (b : Build) (s : State n) : Prop where
  sound : ∀ c, (s.core.cpu c).Sound
  locked : ∀ c q, (s.core.cpu c).ctl.holds = some q → s.core.lock q = some c
  scanning : ∀ c x, s.scan c = some x → Scanning b s c x

/-- What a step of CPU `c` leaves to the other CPUs: their control points, and
the slots whose locks they hold. -/
structure Apart (s t : State n) (c : Fin n) : Prop where
  cpu : ∀ c', c' ≠ c → t.core.cpu c' = s.core.cpu c'
  scan : ∀ c', c' ≠ c → t.scan c' = s.scan c'
  lock : ∀ c' q, c' ≠ c → s.core.lock q = some c' → t.core.lock q = some c'
  life : ∀ c' q, c' ≠ c → s.core.lock q = some c' → (t.core.proc q).life = (s.core.proc q).life

theorem Scanning.apart {s t : State n} {c c' : Fin n} {x : Scan} (h : Scanning b s c' x)
    (hapart : Apart s t c) (hc : c' ≠ c) : Scanning b t c' x where
  build := h.build
  window hx := by
    rw [hapart.cpu c' hc]
    exact h.window hx
  plain := h.plain
  ready q hq := by
    obtain ⟨hlock, hstate⟩ := h.ready q hq
    exact ⟨hapart.lock c' q hc hlock,
      (congrArg Lifecycle.Life.state (hapart.life c' q hc hlock)).trans hstate⟩
  locked q hq := ⟨hapart.lock c' q hc (h.locked q hq).1, (h.locked q hq).2⟩

theorem Inv.of_apart {s t : State n} {c : Fin n} (h : Inv b s) (hapart : Apart s t c)
    (hsound : (t.core.cpu c).Sound)
    (hlocked : ∀ q, (t.core.cpu c).ctl.holds = some q → t.core.lock q = some c)
    (hscan : ∀ x, t.scan c = some x → Scanning b t c x) : Inv b t := by
  refine ⟨?_, ?_, ?_⟩
  · intro c'
    by_cases hc : c' = c
    · rw [hc]
      exact hsound
    · rw [hapart.cpu c' hc]
      exact h.sound c'
  · intro c' q hq
    by_cases hc : c' = c
    · subst hc
      exact hlocked q hq
    · rw [hapart.cpu c' hc] at hq
      exact hapart.lock c' q hc (h.locked c' q hq)
  · intro c' x hx
    by_cases hc : c' = c
    · subst hc
      exact hscan x hx
    · rw [hapart.scan c' hc] at hx
      exact (h.scanning c' x hx).apart hapart hc

/-- A scan that holds no lock. -/
theorem Scanning.free {s : State n} {c : Fin n} (k : ℕ) (hb : b ≠ .MLFQ)
    (hctl : b = .FIFO → (s.core.cpu c).ctl = .run .window) : Scanning b s c (.next k none) where
  build := hb
  window hx := hx.elim hctl nofun
  plain _ := rfl
  ready := nofun
  locked := nofun

theorem scan_setScan (s : State n) (c : Fin n) (x : Option Scan) :
    (s.setScan c x).scan c = x := by
  simp [State.setScan]

theorem scan_setScan_of_ne (s : State n) {c c' : Fin n} (hc : c' ≠ c) (x : Option Scan) :
    (s.setScan c x).scan c' = s.scan c' := by
  simp [State.setScan, hc]

theorem lock_ne_of_locked {s : Smp.State n} {c c' : Fin n} {q : Slot} (hq : s.lock q = some c)
    (hc : c' ≠ c) : s.lock q ≠ some c' := by
  intro hq'
  rw [hq] at hq'
  exact hc (Option.some.inj hq').symm

/-- The locks of other CPUs are not those that `c` holds. -/
theorem Inv.not_holds {s : State n} {c c' : Fin n} {q : Slot} (h : Inv b s) (hc : c' ≠ c)
    (hq : s.core.lock q = some c') : (s.core.cpu c).ctl.holds ≠ some q :=
  fun hold => lock_ne_of_locked (h.locked c q hold) hc hq

theorem Inv.apart_core {s : State n} {c : Fin n} {t : Smp.State n} (h : Inv b s)
    (hframe : Frame s.core t c) : Apart s { s with core := t } c where
  cpu := hframe.others
  scan _ _ := rfl
  lock c' q hc hq := by
    rw [hframe.lock q (h.not_holds hc hq) (by simp [hq]), hq]
  life c' q hc hq := hframe.life q (h.not_holds hc hq)

theorem Apart.setScan {s t : State n} {c : Fin n} (h : Apart s t c) (x : Option Scan) :
    Apart s (t.setScan c x) c where
  cpu := h.cpu
  scan c' hc := (scan_setScan_of_ne t hc x).trans (h.scan c' hc)
  lock := h.lock
  life := h.life

theorem Apart.refl (s : State n) (c : Fin n) : Apart s s c :=
  ⟨fun _ _ => rfl, fun _ _ => rfl, fun _ _ _ hq => hq, fun _ _ _ _ => rfl⟩

/-- The scheduler of `c` writes the lock of a slot that no other CPU has locked. -/
theorem Apart.setLock {s : State n} {c : Fin n} {p : Slot} (l : Option (Fin n))
    (hp : ∀ c', c' ≠ c → s.core.lock p ≠ some c') :
    Apart s { s with core := s.core.setLock p l } c where
  cpu _ _ := rfl
  scan _ _ := rfl
  lock c' q hc hq := by
    have hne : q ≠ p := by
      rintro rfl
      exact hp c' hc hq
    exact (Function.update_of_ne hne l s.core.lock).trans hq
  life _ _ _ _ := rfl

theorem Apart.dispatch {s : State n} {c : Fin n} {p : Slot} (hp : s.core.lock p = some c) :
    Apart s (s.dispatch c p) c where
  cpu c' hc := Function.update_of_ne hc _ s.core.cpu
  scan c' hc := Function.update_of_ne hc _ s.scan
  lock _ _ _ hq := hq
  life c' q hc hq := by
    have hne : q ≠ p := by
      rintro rfl
      exact lock_ne_of_locked hp hc hq
    change (Function.update s.core.proc p _ q).life = _
    rw [Function.update_of_ne hne]

theorem Apart.pass {s : State n} {c : Fin n} {p : Slot} {min_p : Option Slot}
    (hs : Scanning b s c (.look p min_p)) :
    Apart s { s with core := s.core.setLock p none } c :=
  .setLock none fun _ hc => lock_ne_of_locked (hs.locked p rfl).1 hc

theorem Apart.take {s : State n} {c : Fin n} {p : Slot} {min_p : Option Slot}
    (hs : Scanning b s c (.look p min_p)) :
    Apart s { s with core := releaseMin s.core min_p } c := by
  cases min_p with
  | none => exact .refl s c
  | some q => exact .setLock none fun _ hc => lock_ne_of_locked (hs.ready q rfl).1 hc

theorem Steps.apart {s t : State n} {c : Fin n} {ch : Choice} (hsteps : Steps b s c ch t)
    (h : Inv b s) : Apart s t c := by
  cases hsteps with
  | core _ _ hu => exact h.apart_core hu.frame
  | switched _ _ _ hu => exact (h.apart_core hu.frame).setScan _
  | start | wait => exact (Apart.refl s c).setScan _
  | acquire _ _ _ _ _ hfree => exact (Apart.setLock _ (by simp [hfree])).setScan _
  | dispatch _ _ hscan => exact .dispatch ((h.scanning c _ hscan).ready _ rfl).1
  | @look p min_p _ hscan =>
      have hs := h.scanning c _ hscan
      fun_cases scanLook b s c p min_p
      case case1 => exact (Apart.take hs).setScan _
      case case3 => exact .dispatch (hs.locked p rfl).1
      all_goals exact (Apart.pass hs).setScan _

/-- The scheduler of `c` releases the lock of `p` and goes on behind it. -/
theorem Scanning.pass {s : State n} {c : Fin n} {p : Slot} {k : ℕ} {min_p : Option Slot}
    (hs : Scanning b s c (.look p min_p)) :
    Scanning b ({ s with core := s.core.setLock p none }.setScan c (some (.next k min_p))) c
      (.next k min_p) := by
  refine ⟨hs.build, fun _ => hs.window (.inr rfl), hs.plain, ?_, nofun⟩
  intro q hq
  obtain ⟨hlock, hstate⟩ := hs.ready q hq
  have hne : q ≠ p := by
    rintro rfl
    exact (hs.locked q rfl).2 hq
  have hlock' : (s.core.setLock p none).lock q = some c := by
    simpa [Smp.State.setLock, hne] using hlock
  exact ⟨hlock', hstate⟩

theorem releaseMin_cpu (s : Smp.State n) (min_p : Option Slot) :
    (releaseMin s min_p).cpu = s.cpu := by
  cases min_p <;> rfl

theorem releaseMin_proc (s : Smp.State n) (min_p : Option Slot) :
    (releaseMin s min_p).proc = s.proc := by
  cases min_p <;> rfl

/-- The FIFO scheduler takes `p` instead of the candidate that it had. -/
theorem Scanning.take {s : State n} {c : Fin n} {p : Slot} {k : ℕ} {min_p : Option Slot}
    (hs : Scanning .FIFO s c (.look p min_p)) (hready : (s.core.proc p).state = .RUNNABLE) :
    Scanning .FIFO ({ s with core := releaseMin s.core min_p }.setScan c
      (some (.next k (some p)))) c (.next k (some p)) := by
  obtain ⟨hlock, hmin⟩ := hs.locked p rfl
  refine ⟨nofun, fun _ => ?_, nofun, ?_, nofun⟩
  · change ((releaseMin s.core min_p).cpu c).ctl = _
    rw [releaseMin_cpu, hs.window (.inr rfl)]
  · intro q hq
    cases hq
    change (releaseMin s.core min_p).lock p = _ ∧ ((releaseMin s.core min_p).proc p).state = _
    rw [releaseMin_proc]
    refine ⟨?_, hready⟩
    cases min_p with
    | none => exact hlock
    | some q =>
        have hne : p ≠ q := by
          rintro rfl
          exact hmin rfl
        exact (Function.update_of_ne hne none s.core.lock).trans hlock

/-- A step of the scan in which the CPU stays at its loop head. -/
theorem Inv.of_window {s t : State n} {c : Fin n} (h : Inv b s) (hapart : Apart s t c)
    (hctl : (s.core.cpu c).ctl = .run .window) (hcpu : t.core.cpu c = s.core.cpu c)
    (hscan : ∀ x, t.scan c = some x → Scanning b t c x) : Inv b t := by
  refine h.of_apart hapart ?_ ?_ hscan
  · rw [hcpu]
    exact h.sound c
  · intro q hq
    rw [hcpu, hctl] at hq
    cases hq

theorem Inv.dispatch {s : State n} {c : Fin n} {p : Slot} (h : Inv b s)
    (hp : s.core.lock p = some c) : Inv b (s.dispatch c p) := by
  have hcpu : (s.dispatch c p).core.cpu c = ⟨some p, .resume p⟩ :=
    Function.update_self c _ s.core.cpu
  refine h.of_apart (.dispatch hp) ?_ ?_ ?_
  · rw [hcpu]
    exact ⟨rfl, trivial, by simp⟩
  · intro q hq
    rw [hcpu] at hq
    cases hq
    exact hp
  · intro x hx
    rw [State.dispatch, scan_setScan] at hx
    cases hx

theorem Inv.look {s : State n} {c : Fin n} {p : Slot} {min_p : Option Slot} (h : Inv b s)
    (hs : Scanning b s c (.look p min_p)) (hapart : Apart s (scanLook b s c p min_p) c) :
    Inv b (scanLook b s c p min_p) := by
  have hctl := hs.window (.inr rfl)
  revert hapart
  fun_cases scanLook b s c p min_p <;> intro hapart
  case case1 hb hok =>
    subst hb
    refine h.of_window hapart hctl (congrFun (releaseMin_cpu s.core min_p) c) ?_
    intro x hx
    rw [scan_setScan] at hx
    cases hx
    exact hs.take hok.1
  case case3 => exact h.dispatch (hs.locked p rfl).1
  case case2 =>
    refine h.of_window hapart hctl rfl ?_
    intro x hx
    rw [scan_setScan] at hx
    cases hx
    exact hs.pass
  case case4 hb hready =>
    have hplain : min_p = none := by
      cases b with
      | MLFQ => exact absurd rfl hs.build
      | FIFO => exact absurd rfl hb
      | RR => exact hs.plain rfl
    subst hplain
    refine h.of_window hapart hctl rfl ?_
    intro x hx
    rw [scan_setScan] at hx
    cases hx
    exact hs.pass

/-- A scan that takes an interrupt is that of the round-robin build. -/
theorem Scanning.of_outside {s t : State n} {c : Fin n} {x : Scan} (hs : Scanning b s c x)
    (hx : s.scan c = some x) (hscan : Outside b s c) : Scanning b t c x := by
  rcases hscan with hb | hnone | ⟨k, min_p, hnext, hrr⟩
  · exact absurd hb hs.build
  · rw [hnone] at hx
    cases hx
  · have hb : b = .RR := by
      cases b with
      | MLFQ => exact absurd rfl hs.build
      | FIFO => exact hrr.elim nofun fun hctl => absurd (hs.window (.inl rfl)) hctl
      | RR => rfl
    rw [hnext] at hx
    cases hx
    have hplain : min_p = none := hs.plain hb
    subst hplain hb
    exact .free k hs.build nofun

theorem Inv.step {s t : State n} {a : Action n} (h : Inv b s) (ht : step b s a = some t) :
    Inv b t := by
  obtain ⟨c, ch⟩ := a
  have hsteps := steps_of_step ht
  have hapart := hsteps.apart h
  cases hsteps with
  | core hscan _ hu =>
      refine h.of_apart hapart (hu.frame.sound (h.sound c))
        (hu.frame.locked (h.locked c)) ?_
      intro x hx
      exact (h.scanning c x hx).of_outside hx hscan
  | switched hb _ _ hu =>
      refine h.of_apart hapart (hu.frame.sound (h.sound c))
        (hu.frame.locked (h.locked c)) ?_
      intro x hx
      rw [scan_setScan] at hx
      cases hx
      subst hb
      exact .free _ nofun nofun
  | start hb _ hctl _ =>
      refine h.of_window hapart hctl rfl ?_
      intro x hx
      rw [scan_setScan] at hx
      cases hx
      exact .free 0 hb fun _ => hctl
  | @acquire k min_p hb hk hscan hctl _ hfree =>
      have hs := h.scanning c _ hscan
      refine h.of_window hapart hctl rfl ?_
      intro x hx
      rw [scan_setScan] at hx
      cases hx
      have hne : ∀ q, min_p = some q → q ≠ ⟨k, hk⟩ := by
        rintro q hq rfl
        have hlock := (hs.ready _ hq).1
        rw [hfree] at hlock
        cases hlock
      refine ⟨hb, fun _ => hctl, hs.plain, ?_, ?_⟩
      · intro q hq
        obtain ⟨hlock, hstate⟩ := hs.ready q hq
        exact ⟨(Function.update_of_ne (hne q hq) _ s.core.lock).trans hlock, hstate⟩
      · intro q hq
        cases hq
        exact ⟨Function.update_self _ _ s.core.lock, fun hmin => hne _ hmin rfl⟩
  | dispatch _ _ hscan => exact h.dispatch ((h.scanning c _ hscan).ready _ rfl).1
  | wait _ _ hctl _ =>
      refine h.of_window hapart hctl rfl ?_
      intro x hx
      rw [scan_setScan] at hx
      cases hx
  | look _ hscan => exact h.look (h.scanning c _ hscan) hapart

theorem inv_boot (b : Build) (n : ℕ) : Inv b (State.boot n) where
  sound _ := ⟨rfl, trivial, nofun⟩
  locked := nofun
  scanning := nofun

theorem Reachable.inv {s : State n} (hs : Reachable b s) : Inv b s := by
  apply hs.invariant
  · rintro _ rfl
    exact inv_boot b n
  · intro s a t _ h _ ht
    exact h.step ht

/-! ## Refinement -/

theorem refines {s t : State n} {a : Action n} (h : Inv b s) (ht : step b s a = some t) :
    Step s.view a.cpu (mark b s a) t.view := by
  obtain ⟨c, ch⟩ := a
  have hdispatch {p : Slot} (hctl : (s.core.cpu c).ctl = .run .window)
      (hready : (s.core.proc p).state = .RUNNABLE) :
      Step s.view c (.dispatch p) (s.dispatch c p).view := by
    have hwf := (h.sound c).wf
    simp only [Cpu.Wf, hctl] at hwf
    apply Smp.refines_dispatch _ _ _ _ hready
    · rw [hctl]
      rfl
    · exact Option.isNone_iff_eq_none.mp (Option.isSome_eq_false_iff.mp hwf)
    · rw [hctl]
      rfl
    · rw [hctl]
      rfl
  cases steps_of_step ht with
  | core hscan hmark hu =>
      rw [hmark]
      exact hu.refines (h.sound c)
  | switched hb hscan hctl hu =>
      have hmark : mark b s ⟨c, ch⟩ = Smp.mark s.core ⟨c, ch⟩ := by
        simp [mark, hscan]
      rw [hmark]
      exact hu.refines (h.sound c)
  | start hb hscan hctl hch =>
      subst hch
      have hmark : mark b s ⟨c, .go⟩ = .silent := by
        simp [mark, hscan, Smp.mark, hctl]
      rw [hmark]
      exact .silent
  | @acquire k min_p hb hk hscan hctl hch hfree =>
      subst hch
      have hmark : mark b s ⟨c, .go⟩ = .silent := by
        cases min_p <;> simp [mark, hb, hscan, hctl, hk]
      rw [hmark]
      exact .silent
  | @dispatch k p hb hk hscan hctl hch =>
      subst hch
      have hmark : mark b s ⟨c, .go⟩ = .dispatch p := by
        simp [mark, hb, hscan, hctl, hk]
      rw [hmark]
      exact hdispatch hctl ((h.scanning c _ hscan).ready _ rfl).2
  | wait hb hscan hctl hch =>
      subst hch
      have hmark : mark b s ⟨c, .go⟩ = .silent := by
        simp [mark, hb, hscan, hctl]
      rw [hmark]
      exact .silent
  | @look p min_p hb hscan =>
      have hs := h.scanning c _ hscan
      have hmark : mark b s ⟨c, ch⟩ =
          if b = .RR ∧ (s.core.proc p).state = .RUNNABLE then .dispatch p else .silent := by
        simp [mark, hb, hscan]
      rw [hmark]
      fun_cases scanLook b s c p min_p
      case case1 hfifo hok =>
        subst hfifo
        rw [if_neg (by simp)]
        refine Step.silent.of_eq ?_
        cases min_p <;> rfl
      case case2 hfifo hno =>
        subst hfifo
        rw [if_neg (by simp)]
        exact .silent
      case case3 hfifo hready =>
        have hrr : b = .RR := by
          cases b <;> simp_all
        rw [if_pos ⟨hrr, hready⟩]
        exact hdispatch (hs.window (.inr rfl)) hready
      case case4 hfifo hready =>
        rw [if_neg fun hok => hready hok.2]
        exact .silent

theorem table_boot (n : ℕ) : (State.boot n).view.Inv where
  cur := nofun
  child := nofun
  forking := nofun
  cur_unique := nofun
  child_unique := nofun
  forking_unique := nofun
  child_not_forking := nofun
  nextpid_pos := Int.one_pos
  pid_free _ _ := rfl
  pid_range _ h := absurd rfl h
  pid_unique _ _ h := absurd rfl h

/-- Whatever a build does and however its CPUs interleave, the process table is
that of a run of the lives of its processes. -/
theorem Reachable.table {s : State n} (hs : Reachable b s) : s.view.Inv := by
  apply hs.invariant
  · rintro _ rfl
    exact table_boot n
  · intro s a t hs h _ ht
    exact h.step (refines (Reachable.inv hs) ht)

end ShellXv6.Xv6.Kernel
