import ShellXv6.Lib.Simulation
import ShellXv6.Xv6.Mlfq

/-!
# The ready queues are four lists

`enqueue`, `dequeue` and `boost_priority` work on arrays and counters.  Seen from
outside they are operations on four lists of processes, whatever the cells behind
the counters hold, as long as there are never more than `NPROC` entries.
-/

namespace ShellXv6.Xv6

inductive QueueOp
  | enqueue (q : Level) (p : Slot)
  | dequeue (q : Level)
  | boost
  deriving DecidableEq

inductive QueueResult
  | void
  | pointer (p : Option Slot)
  deriving DecidableEq

/-- The operation on `mlfq` and `qcount`. -/
def Queues.apply (m : Queues) : QueueOp → Except Panic (QueueResult × Queues)
  | .enqueue q p =>
      match m.enqueue q p with
      | .error e => .error e
      | .ok m' => .ok (.void, m')
  | .dequeue q => .ok (.pointer (m.dequeue q).1, (m.dequeue q).2)
  | .boost =>
      match m.rebuild with
      | .error e => .error e
      | .ok m' => .ok (.void, m')

/-- The four levels as lists. -/
abbrev Fifos := Level → List Slot

namespace Fifos

/-- The lists 0, 1, 2 and 3, one behind the other. -/
def concat (f : Fifos) : List Slot := (List.finRange 4).flatMap f

/-- A process joins its level at the end and leaves it from the front; a boost puts
all levels into the first, in their order. -/
def apply (f : Fifos) : QueueOp → QueueResult × Fifos
  | .enqueue q p => (.void, Function.update f q (f q ++ [p]))
  | .dequeue q =>
      match f q with
      | [] => (.pointer none, f)
      | p :: ps => (.pointer (some p), Function.update f q ps)
  | .boost => (.void, fun q => if q.val = 0 then f.concat else [])

def Fits (f : Fifos) : Prop := f.concat.length ≤ NPROC

instance (f : Fifos) : Decidable f.Fits := inferInstanceAs (Decidable (_ ≤ _))

theorem length_le_concat (f : Fifos) (q : Level) : (f q).length ≤ f.concat.length := by
  have hmem : f q ∈ (List.finRange 4).map f := List.mem_map_of_mem (List.mem_finRange q)
  exact (List.sublist_flatten_of_mem hmem).length_le

end Fifos

/-- The first `qcount[q]` cells of `mlfq[q]` are the list. -/
def Represents (m : Queues) (f : Fifos) : Prop := ∀ q, m.list q = (f q).map some

namespace Represents

variable {m : Queues} {f : Fifos}

theorem update (h : Represents m f) (q : Level) {r : ArrayQueue (Option Slot) NPROC}
    {ps : List Slot} (hr : r.toList = ps.map some) :
    Represents (Function.update m q r) (Function.update f q ps) := by
  intro l
  by_cases hl : l = q
  · subst hl
    rw [Queues.list_update_self, Function.update_self, hr]
  · rw [Queues.list_update_of_ne m r hl, Function.update_of_ne hl, h l]

theorem qcount_eq (h : Represents m f) (q : Level) : m.qcount q = (f q).length := by
  rw [← Queues.length_list, h q, List.length_map]

theorem all_eq (h : Represents m f) : m.all = f.concat.map some := by
  rw [Queues.all, Fifos.concat, List.map_flatMap]
  exact List.flatMap_congr fun q _ => h q

theorem length_all (h : Represents m f) : m.all.length = f.concat.length := by
  rw [h.all_eq, List.length_map]

theorem enqueue (h : Represents m f) (q : Level) (p : Slot)
    (hfit : Fifos.Fits (Function.update f q (f q ++ [p]))) :
    ∃ m', m.enqueue q p = .ok m' ∧ Represents m' (Function.update f q (f q ++ [p])) := by
  have hlevel : (⟨(q : ℤ).toNat, by omega⟩ : Level) = q := Fin.ext (by simp)
  have hroom : m.qcount q < NPROC := by
    have hlen := Fifos.length_le_concat (Function.update f q (f q ++ [p])) q
    rw [Function.update_self, List.length_append, List.length_singleton] at hlen
    rw [h.qcount_eq]
    exact hlen.trans hfit
  obtain ⟨r, hr⟩ := Option.ne_none_iff_exists'.mp
    (fun hnone => absurd ((ArrayQueue.push_eq_none_iff (m q) (some p)).mp hnone)
      (Nat.not_le.mpr hroom))
  refine ⟨Function.update m q r, ?_, h.update q ?_⟩
  · unfold Queues.enqueue
    rw [dif_pos ⟨by omega, by omega⟩]
    simp only [hlevel, hr]
  · rw [ArrayQueue.toList_push hr, List.map_append, ← h q]
    rfl

theorem dequeue (h : Represents m f) (q : Level) :
    .pointer (m.dequeue q).1 = (f.apply (.dequeue q)).1 ∧
      Represents (m.dequeue q).2 (f.apply (.dequeue q)).2 := by
  have hq := h q
  cases hps : f q with
  | nil =>
      rw [hps, List.map_nil] at hq
      rw [Queues.dequeue_nil hq]
      simp only [Fifos.apply, hps, true_and]
      exact h
  | cons p ps =>
      rw [hps, List.map_cons] at hq
      obtain ⟨x, r, hx, hlist⟩ := Queues.dequeue_cons (m := m) (q := q) (by rw [hq]; simp)
      rw [hq] at hlist
      obtain ⟨rfl, hr⟩ := List.cons.inj hlist
      rw [hx]
      simp only [Fifos.apply, hps, true_and]
      exact h.update q hr.symm

theorem rebuild (h : Represents m f) (hfit : f.Fits) :
    ∃ m', m.rebuild = .ok m' ∧ Represents m' (f.apply .boost).2 := by
  obtain ⟨m', hm'⟩ := Queues.rebuild_isOk (m := m) (by rw [h.length_all]; exact hfit)
  obtain ⟨hfirst, hrest⟩ := Queues.rebuild_ok hm'
  refine ⟨m', hm', ?_⟩
  intro q
  by_cases hq : q = 0
  · subst hq
    rw [hfirst, h.all_eq]
    rfl
  · rw [hrest q hq]
    have hval : q.val ≠ 0 := fun hzero => hq (Fin.ext hzero)
    simp only [Fifos.apply, if_neg hval, List.map_nil]

theorem apply (h : Represents m f) (hfit : f.Fits) (op : QueueOp)
    (hfit' : Fifos.Fits (f.apply op).2) :
    ∃ m', m.apply op = .ok ((f.apply op).1, m') ∧ Represents m' (f.apply op).2 := by
  cases op with
  | enqueue q p =>
      obtain ⟨m', hm', hrep⟩ := h.enqueue q p hfit'
      exact ⟨m', by rw [Queues.apply, hm']; rfl, hrep⟩
  | dequeue q =>
      obtain ⟨hresult, hrep⟩ := h.dequeue q
      exact ⟨(m.dequeue q).2, by rw [Queues.apply, hresult], hrep⟩
  | boost =>
      obtain ⟨m', hm', hrep⟩ := h.rebuild hfit
      exact ⟨m', by rw [Queues.apply, hm']; rfl, hrep⟩

end Represents

/-- Every sequence of operations returns what it returns on four lists, and leaves the
arrays with the lists that it leaves there. -/
theorem queues_simulate_lists (ops : List QueueOp) {m : Queues} {f : Fifos}
    (hrep : Represents m f) (hfit : Simulation.Always Fifos.Fits Fifos.apply ops f) :
    ∃ m', Simulation.run Queues.apply ops m =
        .ok ((Simulation.totalRun Fifos.apply ops f).1, m') ∧
      Represents m' (Simulation.totalRun Fifos.apply ops f).2 :=
  Simulation.run_of_step (fun _ _ op h hok hok' => h.apply hok op hok') ops hrep hfit

/-- One process joins level 2 and one level 0, a boost puts both into level 0, and the
three calls of `dequeue` find them in this order and then nothing. -/
theorem queues_simulate_boost : ∃ m',
    Simulation.run Queues.apply [.enqueue 2 5, .enqueue 0 7, .boost, .dequeue 0, .dequeue 0,
        .dequeue 0] Queues.empty =
      .ok ([.void, .void, .void, .pointer (some 7), .pointer (some 5), .pointer none], m') ∧
    Represents m' fun _ => [] := by
  obtain ⟨m', hrun, hrep⟩ := queues_simulate_lists
    [.enqueue 2 5, .enqueue 0 7, .boost, .dequeue 0, .dequeue 0, .dequeue 0]
    (m := Queues.empty) (f := fun _ => []) (fun _ => rfl) (by decide)
  refine ⟨m', hrun, ?_⟩
  intro q
  rw [hrep q]
  match q with
  | 0 | 1 | 2 | 3 => rfl

end ShellXv6.Xv6
