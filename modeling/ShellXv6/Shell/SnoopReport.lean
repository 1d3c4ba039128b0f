import ShellXv6.Lib.Scanf
import ShellXv6.Shell.Snoop

/-!
# The report of `snoop`

After the trace the counters are sorted, the larger ones first and equal ones in the order
in which the calls appeared, and those that are positive are printed.  They are of type
`int`.
-/

namespace ShellXv6.Shell.Snoop

open IntConversion Scanf

variable {Time D : Type*}

def cmpSys (a b : SyscallStat D) : ℤ :=
  if a.count ≠ b.count then toInt (b.count - a.count) else toInt (a.first_occ - b.first_occ)

/-- What `qsort` may leave in the table. -/
structure Sorted (s : State Time D) (sorted : List (SyscallStat D)) : Prop where
  perm : sorted.Perm ((List.range statsSize).map s.stats)
  pairwise : sorted.Pairwise fun a b => cmpSys a b ≤ 0

def rows (sorted : List (SyscallStat D)) : List (SyscallStat D) :=
  sorted.filter fun stat => 0 < stat.count

/-- One line; `fixed` is the conversion `%.3f`. -/
def printRow (syscall_names : ℕ → Option (List Char)) (fixed : D → List Char)
    (stat : SyscallStat D) : List Char :=
  let name := (syscall_names stat.sys_num).getD ("syscall_".toList ++ printInt stat.sys_num)
  padded 20 name ++ ' ' :: (padded 10 (printInt stat.count) ++ ' ' ::
    (fixed stat.total_time ++ "s\n".toList))

def report (syscall_names : ℕ → Option (List Char)) (fixed : D → List Char)
    (sorted : List (SyscallStat D)) : List Char :=
  padded 20 "syscall".toList ++ ' ' :: (padded 10 "calls".toList ++ " time\n".toList) ++
    (rows sorted).flatMap (printRow syscall_names fixed)

def Before (stops : List (Stop Time)) (a b : SyscallStat D) : Prop :=
  b.count < a.count ∨
    a.count = b.count ∧ (entries stops).idxOf a.sys_num < (entries stops).idxOf b.sys_num

/-- The report and the signals, for a table that was sorted. -/
structure Reported [Zero D] [Add D] (elapsed : Time → Time → D) (status : Status)
    (entry_time : Time) (life : Life Time) (sorted : List (SyscallStat D)) : Prop where
  once : ((rows sorted).map SyscallStat.sys_num).Nodup
  listed : ∀ n, n ∈ (rows sorted).map SyscallStat.sys_num ↔ n ∈ entries life.stops
  count : ∀ row ∈ rows sorted, row.count = (entries life.stops).count row.sys_num
  ordered : (rows sorted).Pairwise (Before life.stops)
  passed : resumes elapsed (start status entry_time : State Time D) life.waits =
    0 :: life.stops.map delivered

/-! ## The sorted table -/

section

variable {s : State Time D} {stops : List (Stop Time)} {sorted : List (SyscallStat D)}

theorem mem_rows (h : Sorted s sorted) {row : SyscallStat D} :
    row ∈ rows sorted ↔ ∃ n < statsSize, s.stats n = row ∧ 0 < row.count := by
  rw [rows, List.mem_filter, h.perm.mem_iff, List.mem_map]
  simp only [List.mem_range, decide_eq_true_eq]
  constructor
  · rintro ⟨⟨n, hn, rfl⟩, hpos⟩
    exact ⟨n, hn, rfl, hpos⟩
  · rintro ⟨n, hn, rfl, hpos⟩
    exact ⟨⟨n, hn, rfl⟩, hpos⟩

theorem nodup_rows (h : Sorted s sorted) (hnum : ∀ n, (s.stats n).sys_num = n) :
    ((rows sorted).map SyscallStat.sys_num).Nodup := by
  have hrange : ((List.range statsSize).map s.stats).map SyscallStat.sys_num =
      List.range statsSize := by
    rw [List.map_map]
    exact (List.map_congr_left fun n _ => hnum n).trans (List.map_id _)
  have hnodup : (sorted.map SyscallStat.sys_num).Nodup := by
    rw [(h.perm.map SyscallStat.sys_num).nodup_iff, hrange]
    exact List.nodup_range
  exact hnodup.sublist (List.filter_sublist.map _)

/-- No row counts up to `2 ^ 31`. -/
theorem row_count_range (h : Sorted s sorted) {calls : List ℕ} (hcounted : Counted s calls)
    {row : SyscallStat D} (hrow : row ∈ rows sorted) : 0 < row.count ∧ row.count < 2 ^ 31 := by
  obtain ⟨n, -, rfl, hpos⟩ := (mem_rows h).mp hrow
  refine ⟨hpos, ?_⟩
  rw [hcounted.count]
  exact toInt_lt _

section

variable (hsorted : Sorted s sorted) (hcounted : Counted s (entries stops))
  (hranked : Ranked s (entries stops)) (hlt : ∀ n, (entries stops).count n < 2 ^ 31)
include hsorted hcounted hlt

theorem row_count {row : SyscallStat D} (hrow : row ∈ rows sorted) :
    row.count = (entries stops).count row.sys_num := by
  obtain ⟨n, -, rfl, -⟩ := (mem_rows hsorted).mp hrow
  rw [hcounted.sys_num, hcounted.count, toInt_of_lt (hlt n)]

theorem mem_sys_nums {n : ℕ} :
    n ∈ (rows sorted).map SyscallStat.sys_num ↔ n ∈ entries stops := by
  rw [List.mem_map, ← List.count_pos_iff]
  constructor
  · rintro ⟨row, hrow, rfl⟩
    have hcount := row_count hsorted hcounted hlt hrow
    have hpos := (row_count_range hsorted hcounted hrow).1
    omega
  · intro hpos
    have hn := lt_of_mem_entries (List.count_pos_iff.mp hpos)
    refine ⟨s.stats n, (mem_rows hsorted).mpr ⟨n, hn, rfl, ?_⟩, hcounted.sys_num n⟩
    rw [hcounted.count, toInt_of_lt (hlt n)]
    omega

include hranked

/-- The rank of a row is the place of its call among the different ones. -/
theorem row_first_occ {row : SyscallStat D} (hrow : row ∈ rows sorted) :
    row.first_occ = (Tally.keys id (entries stops)).idxOf row.sys_num + 1 := by
  have hmem := (mem_sys_nums hsorted hcounted hlt).mp (List.mem_map_of_mem hrow)
  obtain ⟨n, -, rfl, -⟩ := (mem_rows hsorted).mp hrow
  rw [hcounted.sys_num] at hmem ⊢
  exact hranked.first n hmem

theorem before_of_cmpSys {a b : SyscallStat D} (ha : a ∈ rows sorted) (hb : b ∈ rows sorted)
    (hne : a.sys_num ≠ b.sys_num) (hcmp : cmpSys a b ≤ 0) : Before stops a b := by
  obtain ⟨hapos, hamax⟩ := row_count_range hsorted hcounted ha
  obtain ⟨hbpos, hbmax⟩ := row_count_range hsorted hcounted hb
  rw [cmpSys] at hcmp
  split_ifs at hcmp with heq
  · rw [toInt_of_range (by omega) (by omega)] at hcmp
    exact .inl (by omega)
  · have hcalled {row : SyscallStat D} (hrow : row ∈ rows sorted) :
        row.sys_num ∈ Tally.keys id (entries stops) :=
      mem_keys_id.mpr ((mem_sys_nums hsorted hcounted hlt).mp (List.mem_map_of_mem hrow))
    have hafirst := row_first_occ hsorted hcounted hranked hlt ha
    have hbfirst := row_first_occ hsorted hcounted hranked hlt hb
    have halen := List.idxOf_lt_length_of_mem (hcalled ha)
    have hblen := List.idxOf_lt_length_of_mem (hcalled hb)
    have hlen := length_keys_le stops
    rw [statsSize] at hlen
    rw [toInt_of_range (by omega) (by omega)] at hcmp
    have hidx : (Tally.keys id (entries stops)).idxOf a.sys_num ≠
        (Tally.keys id (entries stops)).idxOf b.sys_num := fun h =>
      hne ((List.idxOf_inj (hcalled ha)).mp h)
    exact .inr ⟨not_not.mp heq, idxOf_lt_of_keys_id (mem_keys_id.mp (hcalled ha))
      (mem_keys_id.mp (hcalled hb)) (by omega)⟩

theorem rows_ordered : (rows sorted).Pairwise (Before stops) := by
  have hcmp : (rows sorted).Pairwise fun a b => cmpSys a b ≤ 0 :=
    hsorted.pairwise.sublist List.filter_sublist
  have hne : (rows sorted).Pairwise fun a b => a.sys_num ≠ b.sys_num :=
    List.pairwise_map.mp (nodup_rows hsorted hcounted.sys_num)
  exact (hcmp.and hne).imp_of_mem fun ha hb h =>
    before_of_cmpSys hsorted hcounted hranked hlt ha hb h.2 h.1

end

end

theorem Traced.exists_sorted {inside : Bool} {stops : List (Stop Time)} {s : State Time D}
    (h : Traced inside stops s) (hlt : ∀ n, (entries stops).count n < 2 ^ 31) :
    ∃ sorted, Sorted s sorted := by
  let le (a b : SyscallStat D) : Bool :=
    b.count < a.count ∨ a.count = b.count ∧ a.first_occ ≤ b.first_occ
  have hcount (n : ℕ) : 0 ≤ (s.stats n).count ∧ (s.stats n).count < 2 ^ 31 := by
    have := hlt n
    rw [h.counted.count, toInt_of_lt this]
    omega
  have hocc (n : ℕ) : 0 ≤ (s.stats n).first_occ ∧ (s.stats n).first_occ ≤ statsSize := by
    by_cases hn : n ∈ entries stops
    · have hidx := List.idxOf_lt_length_of_mem (mem_keys_id.mpr hn)
      have hlen := length_keys_le stops
      rw [(h.ranked hlt).first n hn]
      omega
    · rw [h.counted.unseen n hn]
      exact ⟨Int.le_refl 0, Int.natCast_nonneg _⟩
  refine ⟨((List.range statsSize).map s.stats).mergeSort le, List.mergeSort_perm _ _, ?_⟩
  have hpairwise : (((List.range statsSize).map s.stats).mergeSort le).Pairwise
      fun a b => le a b = true := by
    apply List.pairwise_mergeSort
    · intro a b c hab hbc
      simp only [le, decide_eq_true_eq] at hab hbc ⊢
      omega
    · intro a b
      simp only [le, Bool.or_eq_true, decide_eq_true_eq]
      omega
  refine hpairwise.imp_of_mem fun {a b} ha hb hle => ?_
  rw [List.mem_mergeSort] at ha hb
  obtain ⟨n, -, rfl⟩ := List.mem_map.mp ha
  obtain ⟨m, -, rfl⟩ := List.mem_map.mp hb
  have hn := hcount n
  have hm := hcount m
  have hn' := hocc n
  have hm' := hocc m
  rw [statsSize] at hn' hm'
  simp only [le, decide_eq_true_eq] at hle
  rw [cmpSys]
  split_ifs
  · rw [toInt_of_range (by omega) (by omega)]
    omega
  · rw [toInt_of_range (by omega) (by omega)]
    omega

/-- Times in ticks of a clock. -/
def ticks (entry_time exit_time : ℕ) : ℕ := exit_time - entry_time

/-- A process whose stops are all returned. -/
def Life.of (stops : List (Stop Time)) : Life Time := ⟨stops.map .returns, true⟩

theorem Life.undisturbed_of (stops : List (Stop Time)) : (Life.of stops).Undisturbed := by
  refine ⟨rfl, fun wait hwait => ?_⟩
  obtain ⟨stop, -, rfl⟩ := List.mem_map.mp hwait
  exact ⟨stop, rfl⟩

theorem Life.stops_of (stops : List (Stop Time)) : (Life.of stops).stops = stops := by
  have hstop : (Wait.stop ∘ Wait.returns : Stop Time → Option (Stop Time)) = some := rfl
  rw [Life.stops, Life.of, List.filterMap_map, hstop, List.filterMap_some]

/-- The stop of a process that has just been started. -/
def sigstop : Status := .signal 19

/-- Two calls, the second twice, and a signal inside the first. -/
def twoCalls : List (Stop ℕ) :=
  [.entry 9 10, .signal 15, .exit 9 12, .entry 3 20, .exit 3 21, .entry 3 30, .exit 3 31]

theorem alternating_twoCalls : Alternating false twoCalls :=
  .exit (.entry (.exit (.entry (.exit (.signal (.entry .nil))))))

/-- Call 0, entered and left `k` times. -/
def zeroCalls (k : ℕ) : List (Stop ℕ) := (List.replicate k [.entry 0 0, .exit 0 0]).flatten

theorem zeroCalls_succ (k : ℕ) :
    zeroCalls (k + 1) = zeroCalls k ++ [.entry 0 0] ++ [.exit 0 0] := by
  rw [zeroCalls, List.replicate_succ', List.flatten_append, List.append_assoc]
  rfl

theorem alternating_zeroCalls (k : ℕ) : Alternating false (zeroCalls k) := by
  induction k with
  | zero => exact .nil
  | succ k ih =>
      rw [zeroCalls_succ]
      exact .exit (.entry ih)

theorem entries_zeroCalls (k : ℕ) : entries (zeroCalls k) = List.replicate k 0 := by
  induction k with
  | zero => rfl
  | succ k ih =>
      rw [zeroCalls_succ, entries_concat, entries_concat, ih, List.replicate_succ']
      exact List.append_nil _

/-- A call that is entered `2 ^ 31` times is not in the report. -/
theorem not_reported_overflow : ∃ s sorted,
    trace ticks sigstop 0 (Life.of (zeroCalls (2 ^ 31))) = some s ∧ Sorted s sorted ∧
      0 ∉ (rows sorted).map SyscallStat.sys_num ∧
      ¬Reported ticks sigstop 0 (Life.of (zeroCalls (2 ^ 31))) sorted := by
  have hcounted := (traced ticks sigstop 0 (alternating_zeroCalls (2 ^ 31))).counted
  rw [(Life.undisturbed_of (zeroCalls (2 ^ 31))).trace_eq, Life.stops_of]
  generalize (zeroCalls (2 ^ 31)).foldl (onStop ticks) (start sigstop 0) = s at hcounted ⊢
  rw [entries_zeroCalls] at hcounted
  have hzero : (s.stats 0).count = -2 ^ 31 := by
    rw [hcounted.count, List.count_replicate_self]
    rfl
  have hother {n : ℕ} (hn : n ≠ 0) : (s.stats n).count = 0 ∧ (s.stats n).first_occ = 0 := by
    have hmem : n ∉ List.replicate (2 ^ 31) 0 := fun h => hn (List.eq_of_mem_replicate h)
    refine ⟨?_, hcounted.unseen n hmem⟩
    rw [hcounted.count, List.count_eq_zero.mpr hmem]
    rfl
  have hcmp (n m : ℕ) : cmpSys (s.stats n) (s.stats m) ≤ 0 := by
    rw [cmpSys]
    by_cases hn : n = 0
    · by_cases hm : m = 0
      · rw [hn, hm, if_neg (not_not.mpr rfl), Int.sub_self]
        decide
      · rw [hn, hzero, (hother hm).1, if_pos (by decide)]
        decide
    · by_cases hm : m = 0
      · rw [hm, hzero, (hother hn).1, if_pos (by decide)]
        decide
      · rw [(hother hn).1, (hother hn).2, (hother hm).1, (hother hm).2]
        decide
  have hsorted : Sorted s ((List.range statsSize).map s.stats) :=
    ⟨.refl _, List.pairwise_map.mpr (List.pairwise_of_forall hcmp)⟩
  have hmissing : 0 ∉ (rows ((List.range statsSize).map s.stats)).map SyscallStat.sys_num := by
    intro hmem
    obtain ⟨row, hrow, hnum⟩ := List.mem_map.mp hmem
    obtain ⟨n, -, rfl, hpos⟩ := (mem_rows hsorted).mp hrow
    rw [hcounted.sys_num] at hnum
    rw [hnum, hzero] at hpos
    exact absurd hpos (by decide)
  refine ⟨s, _, rfl, hsorted, hmissing, fun h => hmissing ((h.listed 0).mpr ?_)⟩
  rw [Life.stops_of, entries_zeroCalls]
  exact List.mem_replicate.mpr ⟨by decide, rfl⟩

/-- The process has come to the entry of `exit_group`, but `sigchld_handler` takes this stop
before the loop waits for it, and the wait is interrupted later. -/
def takenStop : Life ℕ := ⟨[.fails (some (.entry 231 1)) 231 1], true⟩

/-- The loop acts on the first stop of the process once more, and counts nothing. -/
theorem not_reported_taken {s : State ℕ ℕ} (hs : trace ticks sigstop 0 takenStop = some s)
    {sorted : List (SyscallStat ℕ)} (hsorted : Sorted s sorted) :
    231 ∉ (rows sorted).map SyscallStat.sys_num ∧
      ¬Reported ticks sigstop 0 takenStop sorted := by
  have hzero (n : ℕ) : (s.stats n).count = 0 := by
    cases hs
    rfl
  have hmissing : 231 ∉ (rows sorted).map SyscallStat.sys_num := by
    intro hmem
    obtain ⟨row, hrow, -⟩ := List.mem_map.mp hmem
    obtain ⟨n, -, rfl, hpos⟩ := (mem_rows hsorted).mp hrow
    rw [hzero] at hpos
    exact absurd hpos (by decide)
  exact ⟨hmissing, fun h => hmissing ((h.listed 231).mpr (by decide))⟩

end ShellXv6.Shell.Snoop
