import Mathlib.Algebra.Group.Nat.Defs
import Mathlib.Data.Int.Order.Basic
import Mathlib.Logic.Function.Basic
import ShellXv6.Xv6.Proc

/-!
# The life of a process

What the three builds of the kernel share: a slot is allocated, becomes
runnable, is dispatched, gives up its CPU, is woken, exits and is freed, while
a CPU counts clock ticks and samples one slot after the other.  Which runnable
process is dispatched, and when a CPU does any of this, is left open.
-/

namespace ShellXv6.Xv6.Lifecycle

variable {n : ℕ}

/-- The fields of a slot that tell its life and its age. -/
structure Life where
  state : ProcState
  killed : Bool
  pid : ℤ
  creation_time : ℕ
  rtime : ℕ
  iotime : ℕ
  first_run_time : ℕ

namespace Life

def alloc (now : ℕ) (pid : ℤ) (x : Life) : Life :=
  { x with
    state := .USED
    pid := pid
    creation_time := now
    rtime := 0
    iotime := 0
    first_run_time := 0 }

def free (x : Life) : Life := { x with state := .UNUSED, killed := false, pid := 0 }

def enter (state : ProcState) (x : Life) : Life := { x with state := state }

def kill (x : Life) : Life := { x with killed := true }

def dispatch (now : ℕ) (x : Life) : Life :=
  { x with
    state := .RUNNING
    first_run_time := if x.first_run_time = 0 then now else x.first_run_time }

/-- A clock tick counts as run time or as sleep time, and not at all otherwise. -/
def sample (x : Life) : Life :=
  if x.state = .RUNNING then { x with rtime := x.rtime + 1 }
  else if x.state = .SLEEPING then { x with iotime := x.iotime + 1 }
  else x

/-- Between its allocation and its exit. -/
def Live (x : Life) : Prop := x.state ≠ .UNUSED ∧ x.state ≠ .ZOMBIE

@[simp] theorem sample_state (x : Life) : x.sample.state = x.state := by
  unfold sample
  split_ifs <;> rfl

@[simp] theorem sample_pid (x : Life) : x.sample.pid = x.pid := by
  unfold sample
  split_ifs <;> rfl

@[simp] theorem sample_killed (x : Life) : x.sample.killed = x.killed := by
  unfold sample
  split_ifs <;> rfl

@[simp] theorem sample_creation_time (x : Life) :
    x.sample.creation_time = x.creation_time := by
  unfold sample
  split_ifs <;> rfl

@[simp] theorem sample_first_run_time (x : Life) :
    x.sample.first_run_time = x.first_run_time := by
  unfold sample
  split_ifs <;> rfl

end Life

/-- What a CPU is responsible for: the process it runs, the child that it is
forking with the lock held, and the next slot to sample. -/
structure Core where
  cur : Option Slot
  child : Option Slot
  clock : Option ℕ

structure Table (n : ℕ) where
  life : Slot → Life
  cpu : Fin n → Core
  /-- The child of a fork whose two halves are not both done. -/
  forking : Slot → Option Slot
  ticks : ℕ
  nextpid : ℤ

namespace Table

def setLife (v : Table n) (p : Slot) (x : Life) : Table n :=
  { v with life := Function.update v.life p x }

def setCpu (v : Table n) (c : Fin n) (x : Core) : Table n :=
  { v with cpu := Function.update v.cpu c x }

def setForking (v : Table n) (p : Slot) (f : Option Slot) : Table n :=
  { v with forking := Function.update v.forking p f }

end Table

/-- The marks that an observer of the table counts. -/
inductive Mark
  | silent
  | tick
  | sample (p : Slot)
  | alloc (p : Slot)
  | dispatch (p : Slot)
  | kill (p : Slot) (pid : ℤ)
  deriving DecidableEq

/-- The states in which a process can leave its CPU. -/
def Idles (state : ProcState) : Prop :=
  state = .SLEEPING ∨ state = .RUNNABLE ∨ state = .ZOMBIE

/-- What CPU `c` can do to the table in one step. -/
inductive Step (v : Table n) (c : Fin n) : Mark → Table n → Prop
  | silent : Step v c .silent v
  | tick (hclock : (v.cpu c).clock = none) :
      Step v c .tick ({ v with ticks := (v.ticks + 1) % 2 ^ 32 }.setCpu c
        { v.cpu c with clock := some 0 })
  | sample {p : Slot} (hclock : (v.cpu c).clock = some p.val) :
      Step v c (.sample p) ((v.setCpu c { v.cpu c with clock := some (p.val + 1) }).setLife p
        (v.life p).sample)
  | sampled {k : ℕ} (hclock : (v.cpu c).clock = some k) (hk : NPROC ≤ k) :
      Step v c .silent (v.setCpu c { v.cpu c with clock := none })
  | alloc {p : Slot} (hclock : (v.cpu c).clock = none) (hfree : (v.life p).state = .UNUSED) :
      Step v c (.alloc p) (({ v with nextpid := v.nextpid + 1 }.setLife p
        ((v.life p).alloc v.ticks v.nextpid)).setCpu c { v.cpu c with child := some p })
  | userinit {p : Slot} (hclock : (v.cpu c).clock = none) (hfree : (v.life p).state = .UNUSED) :
      Step v c (.alloc p) ({ v with nextpid := v.nextpid + 1 }.setLife p
        (((v.life p).alloc v.ticks v.nextpid).enter .RUNNABLE))
  | allocFails {p : Slot} (hfree : (v.life p).state = .UNUSED) :
      Step v c (.alloc p) ({ v with nextpid := v.nextpid + 1 }.setLife p
        ((v.life p).alloc v.ticks v.nextpid).free)
  | fork {me p : Slot} (hchild : (v.cpu c).child = some p) :
      Step v c .silent ((v.setCpu c { v.cpu c with child := none }).setForking me (some p))
  | forkFails {p : Slot} (hchild : (v.cpu c).child = some p) :
      Step v c .silent ((v.setCpu c { v.cpu c with child := none }).setLife p (v.life p).free)
  | adopt {me p : Slot} (hfork : v.forking me = some p) :
      Step v c .silent ((v.setForking me none).setCpu c { v.cpu c with child := some p })
  | wakeChild {p : Slot} (hchild : (v.cpu c).child = some p) :
      Step v c .silent ((v.setCpu c { v.cpu c with child := none }).setLife p
        ((v.life p).enter .RUNNABLE))
  | leave {p : Slot} {state : ProcState} (hcur : (v.cpu c).cur = some p) (hstate : Idles state) :
      Step v c .silent ((v.setCpu c { v.cpu c with cur := none }).setLife p
        ((v.life p).enter state))
  | dispatch {p : Slot} (hclock : (v.cpu c).clock = none) (hready : (v.life p).state = .RUNNABLE) :
      Step v c (.dispatch p) ((v.setLife p ((v.life p).dispatch v.ticks)).setCpu c
        { v.cpu c with cur := some p })
  | wake {p : Slot} (hsleeps : (v.life p).state = .SLEEPING) :
      Step v c .silent (v.setLife p ((v.life p).enter .RUNNABLE))
  | kill {p : Slot} {pid : ℤ} (hpid : (v.life p).pid = pid)
      (hstate : (v.life p).state ≠ .SLEEPING) :
      Step v c (.kill p pid) (v.setLife p (v.life p).kill)
  | killWake {p : Slot} {pid : ℤ} (hpid : (v.life p).pid = pid)
      (hsleeps : (v.life p).state = .SLEEPING) :
      Step v c (.kill p pid) (v.setLife p ((v.life p).kill.enter .RUNNABLE))
  | setkilled {p : Slot} (hcur : (v.cpu c).cur = some p) :
      Step v c .silent (v.setLife p (v.life p).kill)
  | free {p : Slot} (hexited : (v.life p).state = .ZOMBIE) :
      Step v c .silent (v.setLife p (v.life p).free)

theorem Step.of_eq {v w w' : Table n} {c : Fin n} {e : Mark} (h : Step v c e w) (hw : w' = w) :
    Step v c e w' := hw ▸ h

/-! ## Who is responsible for a slot -/

structure Table.Inv (v : Table n) : Prop where
  cur : ∀ c p, (v.cpu c).cur = some p → (v.life p).state = .RUNNING
  child : ∀ c p, (v.cpu c).child = some p → (v.life p).state = .USED
  forking : ∀ q p, v.forking q = some p → (v.life p).state = .USED
  cur_unique : ∀ c c' p, (v.cpu c).cur = some p → (v.cpu c').cur = some p → c = c'
  child_unique : ∀ c c' p, (v.cpu c).child = some p → (v.cpu c').child = some p → c = c'
  forking_unique : ∀ q q' p, v.forking q = some p → v.forking q' = some p → q = q'
  child_not_forking : ∀ c q p, (v.cpu c).child = some p → v.forking q ≠ some p
  nextpid_pos : 0 < v.nextpid
  pid_free : ∀ p, (v.life p).state = .UNUSED → (v.life p).pid = 0
  pid_range : ∀ p, (v.life p).state ≠ .UNUSED → 0 < (v.life p).pid ∧ (v.life p).pid < v.nextpid
  pid_unique : ∀ p q, (v.life p).state ≠ .UNUSED → (v.life p).pid = (v.life q).pid → p = q

/-- No CPU and no fork is responsible for the slot. -/
structure Table.Untracked (v : Table n) (p : Slot) : Prop where
  cur : ∀ c, (v.cpu c).cur ≠ some p
  child : ∀ c, (v.cpu c).child ≠ some p
  forking : ∀ q, v.forking q ≠ some p

namespace Table

variable {v : Table n}

theorem Inv.untracked (h : v.Inv) {p : Slot} (hrun : (v.life p).state ≠ .RUNNING)
    (hused : (v.life p).state ≠ .USED) : v.Untracked p where
  cur c hc := hrun (h.cur c p hc)
  child c hc := hused (h.child c p hc)
  forking q hq := hused (h.forking q p hq)

theorem Inv.pid_pos_iff (h : v.Inv) (p : Slot) :
    0 < (v.life p).pid ↔ (v.life p).state ≠ .UNUSED := by
  constructor
  · intro hpos hstate
    rw [h.pid_free p hstate] at hpos
    exact lt_irrefl 0 hpos
  · exact fun hstate => (h.pid_range p hstate).1

/-- Responsibilities may be given up at any time. -/
theorem Inv.of_fewer (h : v.Inv) {w : Table n} (hlife : w.life = v.life)
    (hpid : w.nextpid = v.nextpid)
    (hcur : ∀ c p, (w.cpu c).cur = some p → (v.cpu c).cur = some p)
    (hchild : ∀ c p, (w.cpu c).child = some p → (v.cpu c).child = some p)
    (hfork : ∀ q p, w.forking q = some p → v.forking q = some p) : w.Inv where
  cur c p hc := hlife ▸ h.cur c p (hcur c p hc)
  child c p hc := hlife ▸ h.child c p (hchild c p hc)
  forking q p hq := hlife ▸ h.forking q p (hfork q p hq)
  cur_unique c c' p hc hc' := h.cur_unique c c' p (hcur c p hc) (hcur c' p hc')
  child_unique c c' p hc hc' := h.child_unique c c' p (hchild c p hc) (hchild c' p hc')
  forking_unique q q' p hq hq' := h.forking_unique q q' p (hfork q p hq) (hfork q' p hq')
  child_not_forking c q p hc hq := h.child_not_forking c q p (hchild c p hc) (hfork q p hq)
  nextpid_pos := hpid ▸ h.nextpid_pos
  pid_free := hlife ▸ h.pid_free
  pid_range := hlife ▸ hpid ▸ h.pid_range
  pid_unique := hlife ▸ h.pid_unique

theorem setCpu_cur (c c' : Fin n) (x : Core) :
    ((v.setCpu c x).cpu c').cur = if c' = c then x.cur else (v.cpu c').cur := by
  by_cases hc : c' = c <;> simp [setCpu, hc]

theorem setCpu_child (c c' : Fin n) (x : Core) :
    ((v.setCpu c x).cpu c').child = if c' = c then x.child else (v.cpu c').child := by
  by_cases hc : c' = c <;> simp [setCpu, hc]

theorem setForking_forking (q q' : Slot) (f : Option Slot) :
    (v.setForking q f).forking q' = if q' = q then f else v.forking q' := by
  by_cases hq : q' = q <;> simp [setForking, hq]

theorem setLife_life (p q : Slot) (x : Life) :
    (v.setLife p x).life q = if q = p then x else v.life q := by
  by_cases hq : q = p <;> simp [setLife, hq]

/-- A CPU gives up its process, its child or neither. -/
theorem Inv.setCpu (h : v.Inv) (c : Fin n) {x : Core} (hcur : x.cur = (v.cpu c).cur ∨ x.cur = none)
    (hchild : x.child = (v.cpu c).child ∨ x.child = none) : (v.setCpu c x).Inv := by
  refine h.of_fewer rfl rfl ?_ ?_ fun _ _ hq => hq
  · intro c' p hp
    grind [setCpu_cur]
  · intro c' p hp
    grind [setCpu_child]

theorem Inv.setClock (h : v.Inv) (c : Fin n) (k : Option ℕ) :
    (v.setCpu c { v.cpu c with clock := k }).Inv :=
  h.setCpu c (.inl rfl) (.inl rfl)

theorem Inv.dropCur (h : v.Inv) (c : Fin n) : (v.setCpu c { v.cpu c with cur := none }).Inv :=
  h.setCpu c (.inr rfl) (.inl rfl)

theorem Inv.dropChild (h : v.Inv) (c : Fin n) : (v.setCpu c { v.cpu c with child := none }).Inv :=
  h.setCpu c (.inl rfl) (.inr rfl)

theorem Inv.dropForking (h : v.Inv) (q : Slot) : (v.setForking q none).Inv := by
  refine h.of_fewer rfl rfl (fun _ _ hp => hp) (fun _ _ hp => hp) ?_
  intro q' p hp
  grind [setForking_forking]

theorem Inv.addCur (h : v.Inv) {c : Fin n} {p : Slot} (hrun : (v.life p).state = .RUNNING)
    (hp : ∀ c', (v.cpu c').cur ≠ some p) : (v.setCpu c { v.cpu c with cur := some p }).Inv :=
  { h with
    cur := fun c' q hq => by
      have := h.cur c' q
      grind [setCpu_cur, Table.setCpu]
    child := fun c' q hq => by
      have := h.child c' q
      grind [setCpu_child, Table.setCpu]
    cur_unique := fun c₁ c₂ q h₁ h₂ => by
      have := h.cur_unique c₁ c₂ q
      grind [setCpu_cur]
    child_unique := fun c₁ c₂ q h₁ h₂ => by
      have := h.child_unique c₁ c₂ q
      grind [setCpu_child]
    child_not_forking := fun c' q r hr => by
      have := h.child_not_forking c' q r
      grind [setCpu_child, Table.setCpu] }

theorem Inv.addChild (h : v.Inv) {c : Fin n} {p : Slot} (hused : (v.life p).state = .USED)
    (hp : v.Untracked p) : (v.setCpu c { v.cpu c with child := some p }).Inv :=
  { h with
    cur := fun c' q hq => by
      have := h.cur c' q
      grind [setCpu_cur, Table.setCpu]
    child := fun c' q hq => by
      have := h.child c' q
      grind [setCpu_child, Table.setCpu]
    cur_unique := fun c₁ c₂ q h₁ h₂ => by
      have := h.cur_unique c₁ c₂ q
      grind [setCpu_cur]
    child_unique := fun c₁ c₂ q h₁ h₂ => by
      have := h.child_unique c₁ c₂ q
      have := hp.child c₁
      have := hp.child c₂
      grind [setCpu_child]
    child_not_forking := fun c' q r hr => by
      have := h.child_not_forking c' q r
      have := hp.forking q
      grind [setCpu_child, Table.setCpu] }

theorem Inv.addForking (h : v.Inv) {me p : Slot} (hused : (v.life p).state = .USED)
    (hp : v.Untracked p) : (v.setForking me (some p)).Inv :=
  { h with
    forking := fun q r hr => by
      have := h.forking q r
      grind [setForking_forking, setForking]
    forking_unique := fun q q' r hq hq' => by
      have := h.forking_unique q q' r
      have := hp.forking q
      have := hp.forking q'
      grind [setForking_forking]
    child_not_forking := fun c q r hr => by
      have := h.child_not_forking c q r hr
      have := hp.child c
      grind [setForking_forking, setForking] }

/-- Nobody is responsible for the slot that gets a new life. -/
theorem Untracked.setLife {p : Slot} (hp : v.Untracked p) (h : v.Inv) (x : Life) :
    (∀ c q, (v.cpu c).cur = some q → ((v.setLife p x).life q).state = .RUNNING) ∧
    (∀ c q, (v.cpu c).child = some q → ((v.setLife p x).life q).state = .USED) ∧
    ∀ r q, v.forking r = some q → ((v.setLife p x).life q).state = .USED := by
  have hother : ∀ q, q ≠ p → (v.setLife p x).life q = v.life q := by
    intro q hq
    rw [setLife_life, if_neg hq]
  refine ⟨?_, ?_, ?_⟩
  · intro c q hq
    rw [hother q (by rintro rfl; exact hp.cur c hq)]
    exact h.cur c q hq
  · intro c q hq
    rw [hother q (by rintro rfl; exact hp.child c hq)]
    exact h.child c q hq
  · intro r q hq
    rw [hother q (by rintro rfl; exact hp.forking r hq)]
    exact h.forking r q hq

theorem Inv.setLife (h : v.Inv) {p : Slot} {x : Life} (hp : v.Untracked p)
    (hfree : x.state = .UNUSED → x.pid = 0)
    (hpid : x.state ≠ .UNUSED → x.pid = (v.life p).pid ∧ (v.life p).state ≠ .UNUSED) :
    (v.setLife p x).Inv :=
  { h with
    cur := (hp.setLife h x).1
    child := (hp.setLife h x).2.1
    forking := (hp.setLife h x).2.2
    pid_free := fun q hq => by
      have := h.pid_free q
      grind [setLife_life]
    pid_range := fun q hq => by
      have := h.pid_range q
      grind [setLife_life, Table.setLife]
    pid_unique := fun q r hq hqr => by
      have := h.pid_unique q r
      have := h.pid_unique p r
      have := h.pid_unique q p
      have := h.pid_pos_iff p
      have := h.pid_pos_iff q
      have := h.pid_pos_iff r
      grind [setLife_life] }

/-- Fields other than the state and the pid do not matter. -/
theorem Inv.relabel (h : v.Inv) {p : Slot} {x : Life} (hstate : x.state = (v.life p).state)
    (hpid : x.pid = (v.life p).pid) : (v.setLife p x).Inv := by
  have hlife : ∀ q, ((v.setLife p x).life q).state = (v.life q).state ∧
      ((v.setLife p x).life q).pid = (v.life q).pid := by
    intro q
    grind [setLife_life]
  exact { h with
    cur := fun c q hq => (hlife q).1.trans (h.cur c q hq)
    child := fun c q hq => (hlife q).1.trans (h.child c q hq)
    forking := fun q r hr => (hlife r).1.trans (h.forking q r hr)
    pid_free := fun q => by
      rw [(hlife q).1, (hlife q).2]
      exact h.pid_free q
    pid_range := fun q => by
      rw [(hlife q).1, (hlife q).2]
      exact h.pid_range q
    pid_unique := fun q r => by
      rw [(hlife q).1, (hlife q).2, (hlife r).2]
      exact h.pid_unique q r }

theorem Inv.bump (h : v.Inv) : ({ v with nextpid := v.nextpid + 1 } : Table n).Inv :=
  { h with
    nextpid_pos := by
      have := h.nextpid_pos
      change 0 < v.nextpid + 1
      omega
    pid_range := fun p hp => by
      have := h.pid_range p hp
      change 0 < (v.life p).pid ∧ (v.life p).pid < v.nextpid + 1
      omega }

theorem Inv.newLife (h : v.Inv) {p : Slot} {x : Life} (hfree : (v.life p).state = .UNUSED)
    (hstate : x.state ≠ .UNUSED) (hpid : x.pid = v.nextpid) :
    ({ v with nextpid := v.nextpid + 1 }.setLife p x).Inv := by
  have hp := h.untracked (p := p) (by simp [hfree]) (by simp [hfree])
  have hnext : Untracked { v with nextpid := v.nextpid + 1 } p := ⟨hp.cur, hp.child, hp.forking⟩
  have hlife := hnext.setLife h.bump x
  exact { h.bump with
    cur := hlife.1
    child := hlife.2.1
    forking := hlife.2.2
    pid_free := fun q hq => by
      have := h.pid_free q
      grind [setLife_life]
    pid_range := fun q hq => by
      have := h.pid_range q
      have := h.nextpid_pos
      grind [setLife_life, Table.setLife]
    pid_unique := fun q r hq hqr => by
      have := h.pid_unique q r
      have := h.pid_range q
      have := h.pid_range r
      have := h.pid_free r
      have := h.nextpid_pos
      grind [setLife_life] }

/-- The child in the hands of a CPU is nobody else's. -/
theorem Inv.untracked_dropChild (h : v.Inv) {c : Fin n} {p : Slot}
    (hchild : (v.cpu c).child = some p) :
    (v.setCpu c { v.cpu c with child := none }).Untracked p where
  cur c' hc' := by
    have := h.cur c' p
    have := h.child c p hchild
    grind [setCpu_cur]
  child c' hc' := by
    have := h.child_unique c c' p hchild
    grind [setCpu_child]
  forking q hq := h.child_not_forking c q p hchild hq

theorem Inv.untracked_dropForking (h : v.Inv) {me p : Slot} (hfork : v.forking me = some p) :
    (v.setForking me none).Untracked p where
  cur c hc := by
    have hrun := h.cur c p hc
    rw [h.forking me p hfork] at hrun
    cases hrun
  child c hc := h.child_not_forking c me p hc hfork
  forking q hq := by
    have := h.forking_unique me q p hfork
    grind [setForking_forking]

theorem Inv.untracked_dropCur (h : v.Inv) {c : Fin n} {p : Slot} (hcur : (v.cpu c).cur = some p) :
    (v.setCpu c { v.cpu c with cur := none }).Untracked p where
  cur c' hc' := by
    have := h.cur_unique c c' p hcur
    grind [setCpu_cur]
  child c' hc' := by
    have := h.child c' p
    have := h.cur c p hcur
    grind [setCpu_child]
  forking q hq := by
    have hused := h.forking q p hq
    rw [h.cur c p hcur] at hused
    cases hused

theorem Inv.step (h : v.Inv) {c : Fin n} {e : Mark} {w : Table n} (hstep : Step v c e w) :
    w.Inv := by
  cases hstep with
  | silent => exact h
  | tick _ => exact (h.of_fewer (w := { v with ticks := (v.ticks + 1) % 2 ^ 32 }) rfl rfl
      (fun _ _ hp => hp) (fun _ _ hp => hp) (fun _ _ hp => hp)).setClock c (some 0)
  | @sample p _ => exact (h.setClock c _).relabel (by simp [Table.setCpu]) (by simp [Table.setCpu])
  | sampled _ _ => exact h.setClock c none
  | @alloc p _ hfree =>
      have hnew := h.newLife (x := (v.life p).alloc v.ticks v.nextpid) hfree nofun rfl
      refine hnew.addChild (p := p) (by simp [Table.setLife, Life.alloc]) ?_
      have hp := h.untracked (p := p) (by simp [hfree]) (by simp [hfree])
      exact ⟨hp.cur, hp.child, hp.forking⟩
  | userinit _ hfree => exact h.newLife hfree nofun rfl
  | @allocFails p hfree =>
      have hp := h.untracked (p := p) (by simp [hfree]) (by simp [hfree])
      exact h.bump.setLife ⟨hp.cur, hp.child, hp.forking⟩ (fun _ => rfl)
        (fun hne => absurd rfl hne)
  | fork hchild =>
      exact (h.dropChild c).addForking (h.child c _ hchild) (h.untracked_dropChild hchild)
  | forkFails hchild =>
      exact (h.dropChild c).setLife (h.untracked_dropChild hchild) (fun _ => rfl)
        (fun hne => absurd rfl hne)
  | adopt hfork =>
      exact (h.dropForking _).addChild (h.forking _ _ hfork) (h.untracked_dropForking hfork)
  | @wakeChild p hchild =>
      have hused := h.child c _ hchild
      refine (h.dropChild c).setLife (h.untracked_dropChild hchild) nofun fun _ => ⟨rfl, ?_⟩
      change (v.life p).state ≠ _
      simp [hused]
  | @leave p state hcur hidle =>
      have hrun := h.cur c _ hcur
      refine (h.dropCur c).setLife (h.untracked_dropCur hcur) ?_ fun _ => ⟨rfl, ?_⟩
      · rintro (rfl : state = _)
        rcases hidle with hidle | hidle | hidle <;> cases hidle
      · change (v.life p).state ≠ _
        simp [hrun]
  | @dispatch p _ hready =>
      have hp := h.untracked (p := p) (by simp [hready]) (by simp [hready])
      have hlife := h.setLife (x := (v.life p).dispatch v.ticks) hp nofun
        fun _ => ⟨rfl, by simp [hready]⟩
      exact hlife.addCur (by simp [Table.setLife, Life.dispatch]) hp.cur
  | @wake p hsleeps =>
      have hp := h.untracked (p := p) (by simp [hsleeps]) (by simp [hsleeps])
      exact h.setLife hp nofun fun _ => ⟨rfl, by simp [hsleeps]⟩
  | kill _ _ => exact h.relabel rfl rfl
  | @killWake p pid _ hsleeps =>
      have hp := h.untracked (p := p) (by simp [hsleeps]) (by simp [hsleeps])
      exact h.setLife hp nofun fun _ => ⟨rfl, by simp [hsleeps]⟩
  | setkilled _ => exact h.relabel rfl rfl
  | @free p hexited =>
      have hp := h.untracked (p := p) (by simp [hexited]) (by simp [hexited])
      exact h.setLife hp (fun _ => rfl) (fun hne => absurd rfl hne)

end Table

end ShellXv6.Xv6.Lifecycle
