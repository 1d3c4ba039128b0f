import ShellXv6.Lib.ArrayQueue
import ShellXv6.Xv6.Proc
import Mathlib.Algebra.BigOperators.Fin

/-!
# The four ready queues

`mlfq[4][NPROC]` with its counters, and the bodies of the critical sections of
`mlfq_lock`.  A pointer is `none` for null.  `enqueue` can panic, and the
rebuild of `boost_priority` writes to `temp[NPROC]` without a check; the model
reports the write past its end.
-/

namespace ShellXv6.Xv6

/-- How a modelled function ends the machine. -/
inductive Panic
  | invalidQueueNumber
  | queueFull
  /-- `boost_priority` writes past `temp[NPROC]`. -/
  | tempOverflow
  /-- `userinit` dereferences the null pointer of a failed `allocproc`. -/
  | kerneltrap
  deriving DecidableEq

abbrev Level := Fin 4

abbrev Queues := Level → ArrayQueue (Option Slot) NPROC

namespace Queues

def empty : Queues := fun _ => ⟨fun _ => none, 0, Nat.zero_le _⟩

/-- The processes of one level, first to last. -/
def list (m : Queues) (q : Level) : List (Option Slot) := (m q).toList

/-- All four levels in the order in which `boost_priority` copies them. -/
def all (m : Queues) : List (Option Slot) := (List.finRange 4).flatMap m.list

def qcount (m : Queues) (q : Level) : ℕ := (m q).count

def enqueue (m : Queues) (q : ℤ) (p : Slot) : Except Panic Queues :=
  if h : 0 ≤ q ∧ q ≤ 3 then
    let level : Level := ⟨q.toNat, by omega⟩
    match (m level).push (some p) with
    | some r => .ok (Function.update m level r)
    | none => .error .queueFull
  else .error .invalidQueueNumber

/-- The null pointer is returned for an empty level. -/
def dequeue (m : Queues) (q : Level) : Option Slot × Queues :=
  match (m q).pop with
  | some (p, r) => (p, Function.update m q r)
  | none => (none, m)

/-- The copying loop of `boost_priority`: level after level goes to `temp`, and
its counter is reset. -/
def gather : List Level → ArrayQueue (Option Slot) NPROC → Queues →
    Option (ArrayQueue (Option Slot) NPROC × Queues)
  | [], temp, m => some (temp, m)
  | i :: is, temp, m =>
      (temp.pushAll (m i).toList).bind fun temp' =>
        gather is temp' (Function.update m i (m i).clear)

/-- The part of `boost_priority` under `mlfq_lock`. -/
def rebuild (m : Queues) : Except Panic Queues :=
  match gather (List.finRange 4) ⟨fun _ => none, 0, Nat.zero_le _⟩ m with
  | none => .error .tempOverflow
  | some (temp, m') =>
      match (m' 0).pushAll temp.toList with
      | none => .error .tempOverflow
      | some q0 => .ok (Function.update m' 0 q0)

/-- The loop of `yield` over the levels above its own. -/
def preempt (m : Queues) (queue : ℤ) : Bool :=
  (List.finRange 4).any fun i => decide ((i : ℤ) < queue) && decide (0 < m.qcount i)

/-! ## The queues as lists -/

@[simp] theorem list_update_self (m : Queues) (q : Level) (r : ArrayQueue (Option Slot) NPROC) :
    Queues.list (Function.update m q r) q = r.toList := by
  simp [list]

theorem list_update_of_ne (m : Queues) {q j : Level} (r : ArrayQueue (Option Slot) NPROC)
    (h : j ≠ q) : Queues.list (Function.update m q r) j = m.list j := by
  simp [list, Function.update_of_ne h]

@[simp] theorem list_empty (q : Level) : empty.list q = [] := rfl

@[simp] theorem length_list (m : Queues) (q : Level) : (m.list q).length = m.qcount q := by
  simp [list, qcount]

theorem all_eq (m : Queues) : m.all = m.list 0 ++ (m.list 1 ++ (m.list 2 ++ m.list 3)) := by
  simp [all, List.finRange, List.ofFn_succ]

theorem qcount_le_length_all (m : Queues) (q : Level) : m.qcount q ≤ m.all.length := by
  simp only [all_eq, List.length_append, length_list]
  match q with
  | 0 | 1 | 2 | 3 => omega

theorem mem_all (m : Queues) (x : Option Slot) : x ∈ m.all ↔ ∃ q, x ∈ m.list q := by
  simp [all]

theorem qcount_pos_iff (m : Queues) (q : Level) : 0 < m.qcount q ↔ m.list q ≠ [] := by
  rw [← length_list, List.length_pos_iff]

/-- How often a process is stored in the four queues. -/
def occ (m : Queues) (p : Slot) : ℕ := ∑ q, (m.list q).count (some p)

theorem count_all (m : Queues) (p : Slot) : m.all.count (some p) = m.occ p := by
  rw [all_eq, occ, Fin.sum_univ_four]
  simp only [List.count_append]
  omega

theorem occ_pos_iff (m : Queues) (p : Slot) : 0 < m.occ p ↔ ∃ q, some p ∈ m.list q := by
  rw [← count_all, List.count_pos_iff, mem_all]

/-- Replacing one level changes the occurrences by that level's share. -/
theorem occ_update (m : Queues) (q : Level) (r : ArrayQueue (Option Slot) NPROC) (p : Slot) :
    occ (Function.update m q r) p + (m.list q).count (some p) =
      m.occ p + r.toList.count (some p) :=
  Ledger.sum_update_add (fun a : ArrayQueue (Option Slot) NPROC => a.toList.count (some p)) m q r

/-! ## enqueue -/

theorem enqueue_ok {m m' : Queues} {q : ℤ} {p : Slot} (h : m.enqueue q p = .ok m') :
    ∃ l : Level, q = l ∧ ∃ r, m' = Function.update m l r ∧ r.toList = m.list l ++ [some p] := by
  unfold enqueue at h
  split at h
  · rename_i hq
    dsimp only at h
    split at h
    · rename_i r hr
      cases h
      refine ⟨⟨q.toNat, by omega⟩, ?_, r, rfl, ArrayQueue.toList_push hr⟩
      simp only
      omega
    · cases h
  · cases h

theorem enqueue_isOk {m : Queues} {q : ℤ} (p : Slot) (hq : 0 ≤ q ∧ q ≤ 3)
    (hfree : ∀ l : Level, m.qcount l < NPROC) : ∃ m', m.enqueue q p = .ok m' := by
  have hpush : ∀ l : Level, (m l).push (some p) ≠ none := by
    intro l hnone
    exact absurd ((ArrayQueue.push_eq_none_iff _ _).mp hnone) (Nat.not_le.mpr (hfree l))
  unfold enqueue
  rw [dif_pos hq]
  dsimp only
  split
  · exact ⟨_, rfl⟩
  · rename_i hnone
    exact absurd hnone (hpush _)

theorem occ_enqueue {m m' : Queues} {q : ℤ} {p : Slot} (h : m.enqueue q p = .ok m') (x : Slot) :
    m'.occ x = m.occ x + if p = x then 1 else 0 := by
  obtain ⟨l, -, r, rfl, hr⟩ := enqueue_ok h
  have hocc := occ_update m l r x
  rw [hr, List.count_append, List.count_singleton] at hocc
  simp only [beq_iff_eq, Option.some.injEq] at hocc
  omega

/-! ## dequeue -/

theorem dequeue_nil {m : Queues} {q : Level} (h : m.list q = []) : m.dequeue q = (none, m) := by
  have hpop := (ArrayQueue.pop_eq_none_iff (m q)).mpr h
  simp [dequeue, hpop]

theorem dequeue_cons {m : Queues} {q : Level} (h : m.list q ≠ []) :
    ∃ x r, m.dequeue q = (x, Function.update m q r) ∧ m.list q = x :: r.toList := by
  cases hpop : (m q).pop with
  | none => exact absurd ((ArrayQueue.pop_eq_none_iff (m q)).mp hpop) h
  | some xr =>
      obtain ⟨x, r⟩ := xr
      exact ⟨x, r, by simp [dequeue, hpop], ArrayQueue.toList_pop hpop⟩

/-! ## boost_priority -/

/-- Clearing one level leaves the levels still to be copied as they are. -/
theorem flatMap_list_clear (m : Queues) {i : Level} {is : List Level} (hi : i ∉ is) :
    is.flatMap (Queues.list (Function.update m i (m i).clear)) = is.flatMap m.list := by
  apply List.flatMap_congr
  intro j hj
  exact list_update_of_ne m _ fun hji => hi (hji ▸ hj)

theorem gather_spec {levels : List Level} {temp temp' : ArrayQueue (Option Slot) NPROC}
    {m m' : Queues} (hnodup : levels.Nodup)
    (h : gather levels temp m = some (temp', m')) :
    temp'.toList = temp.toList ++ levels.flatMap m.list ∧
      ∀ q, m'.list q = if q ∈ levels then [] else m.list q := by
  induction levels generalizing temp m with
  | nil =>
      cases h
      simp
  | cons i is ih =>
      obtain ⟨hi, his⟩ := List.nodup_cons.mp hnodup
      obtain ⟨u, hu, hrest⟩ := Option.bind_eq_some_iff.mp h
      obtain ⟨htemp, hlists⟩ := ih his hrest
      have hkeep := flatMap_list_clear m hi
      constructor
      · rw [htemp, ArrayQueue.toList_pushAll hu, hkeep]
        simp [list]
      · intro q
        rw [hlists q]
        by_cases hq : q = i
        · subst hq
          simp
        · simp [hq, list_update_of_ne m _ hq]

theorem gather_isSome {levels : List Level} {temp : ArrayQueue (Option Slot) NPROC}
    {m : Queues} (hnodup : levels.Nodup)
    (hfit : temp.count + (levels.flatMap m.list).length ≤ NPROC) :
    (gather levels temp m).isSome := by
  induction levels generalizing temp m with
  | nil => rfl
  | cons i is ih =>
      obtain ⟨hi, his⟩ := List.nodup_cons.mp hnodup
      have hkeep := flatMap_list_clear m hi
      have hlen : (m i).toList.length = m.qcount i := length_list m i
      simp only [List.flatMap_cons, List.length_append, length_list] at hfit
      have hsome := (ArrayQueue.pushAll_isSome_iff temp (m i).toList).mpr (by omega)
      obtain ⟨u, hu⟩ := Option.isSome_iff_exists.mp hsome
      have hcount : u.count = temp.count + m.qcount i := by
        have := congrArg List.length (ArrayQueue.toList_pushAll hu)
        simpa [hlen] using this
      simp only [gather, hu, Option.bind_some]
      apply ih his
      rw [hkeep]
      omega

theorem rebuild_ok {m m' : Queues} (h : m.rebuild = .ok m') :
    m'.list 0 = m.all ∧ ∀ q, q ≠ 0 → m'.list q = [] := by
  unfold rebuild at h
  split at h
  · cases h
  · rename_i temp m₁ hgather
    obtain ⟨htemp, hlists⟩ := gather_spec (List.nodup_finRange 4) hgather
    split at h
    · cases h
    · rename_i q0 hpush
      cases h
      constructor
      · rw [list_update_self, ArrayQueue.toList_pushAll hpush, htemp]
        have h0 := hlists 0
        simp only [List.mem_finRange, if_true] at h0
        change m₁.list 0 ++ _ = _
        rw [h0]
        rfl
      · intro q hq
        rw [list_update_of_ne m₁ q0 hq, hlists q, if_pos (List.mem_finRange q)]

/-- The rebuild stays inside `temp` when the queues hold at most `NPROC` entries. -/
theorem rebuild_isOk {m : Queues} (hfit : m.all.length ≤ NPROC) : ∃ m', m.rebuild = .ok m' := by
  have hsome : (gather (List.finRange 4) ⟨fun _ => none, 0, Nat.zero_le _⟩ m).isSome :=
    gather_isSome (List.nodup_finRange 4) (by simpa [all] using hfit)
  obtain ⟨⟨temp, m₁⟩, hgather⟩ := Option.isSome_iff_exists.mp hsome
  obtain ⟨htemp, hlists⟩ := gather_spec (List.nodup_finRange 4) hgather
  have hempty : (m₁ 0).count = 0 := by
    have h0 := hlists 0
    simp only [List.mem_finRange, if_true] at h0
    exact (ArrayQueue.toList_eq_nil_iff _).mp h0
  have hpush : ((m₁ 0).pushAll temp.toList).isSome := by
    rw [ArrayQueue.pushAll_isSome_iff, hempty, htemp]
    simpa [ArrayQueue.toList, all] using hfit
  obtain ⟨q0, hq0⟩ := Option.isSome_iff_exists.mp hpush
  exact ⟨Function.update m₁ 0 q0, by simp [rebuild, hgather, hq0]⟩

theorem occ_rebuild {m m' : Queues} (h : m.rebuild = .ok m') (p : Slot) :
    m'.occ p = m.occ p := by
  obtain ⟨h0, hrest⟩ := rebuild_ok h
  rw [← count_all m p, ← h0, occ, Fin.sum_univ_four, hrest 1 (by decide), hrest 2 (by decide),
    hrest 3 (by decide)]
  simp

theorem preempt_eq_true_iff (m : Queues) (queue : ℤ) :
    m.preempt queue = true ↔ ∃ i : Level, (i : ℤ) < queue ∧ m.list i ≠ [] := by
  simp [preempt, qcount_pos_iff]

end Queues

end ShellXv6.Xv6
