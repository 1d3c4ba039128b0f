import Mathlib.Data.List.Perm.Subperm
import ShellXv6.Lib.IntConversion
import ShellXv6.Lib.Tally

/-!
# The builtin `snoop`

`snoop` traces a process and counts its system calls.  The process stops when it enters a
call and when it leaves it, and at every signal.  The two stops of a call look alike, so
`in_syscall` tells them apart; a signal is passed on when the process is resumed.  The
result of `waitpid` is not looked at: when a signal handler interrupts it, the loop acts
once more on the status that it had before.
-/

namespace ShellXv6.Shell.Snoop

open IntConversion

/-! ## The trace -/

/-- A stop of the process.  Signals are at most 64, and a stop at a system call has the
register `orig_rax` and the time of the clock. -/
inductive Stop (Time : Type*)
  | entry (orig_rax : ℤ) (now : Time)
  | exit (orig_rax : ℤ) (now : Time)
  | signal (stopsig : Fin 65)

/-- What the loop tells apart in `status`: `SIGTRAP | 0x80` and the signals. -/
inductive Status
  | syscall
  | signal (stopsig : Fin 65)

def Stop.status {Time : Type*} : Stop Time → Status
  | .entry _ _ => .syscall
  | .exit _ _ => .syscall
  | .signal stopsig => .signal stopsig

/-- What a `waitpid` of the loop comes to.  A handler may interrupt it, and `sigchld_handler`
may take the stop that it waits for.  Then `status` stays as it was, and `orig_rax` and `now`
are what the loop finds in the registers and on the clock. -/
inductive Wait (Time : Type*)
  | returns (stop : Stop Time)
  | fails (taken : Option (Stop Time)) (orig_rax : ℤ) (now : Time)

/-- The stop that the process has come to. -/
def Wait.stop {Time : Type*} : Wait Time → Option (Stop Time)
  | .returns stop => some stop
  | .fails taken _ _ => taken

/-- The life of the process.  When a handler has taken its end, no later `waitpid` returns,
and the loop goes on for ever. -/
structure Life (Time : Type*) where
  waits : List (Wait Time)
  /-- The last `waitpid` returns that the process has exited or was killed. -/
  ended : Bool

def Life.stops {Time : Type*} (life : Life Time) : List (Stop Time) :=
  life.waits.filterMap Wait.stop

def sigtrap : ℕ := 5

/-- The size of `stats`. -/
def statsSize : ℕ := 1024

structure SyscallStat (D : Type*) where
  sys_num : ℕ
  count : ℤ
  total_time : D
  first_occ : ℤ

structure State (Time D : Type*) where
  status : Status
  in_syscall : Bool
  pass_sig : ℕ
  entry_time : Time
  occ_counter : ℤ
  stats : ℕ → SyscallStat D

variable {Time D : Type*}

/-- Before the loop; `status` is that of the first stop. -/
def start [Zero D] (status : Status) (entry_time : Time) : State Time D :=
  ⟨status, false, 0, entry_time, 0, fun i => ⟨i, 0, 0, 0⟩⟩

def inTable (orig_rax : ℤ) : Prop := 0 ≤ orig_rax ∧ orig_rax < statsSize

instance (orig_rax : ℤ) : Decidable (inTable orig_rax) := inferInstanceAs (Decidable (_ ∧ _))

/-- The counters at the entry of a call. -/
def countEntry (s : State Time D) (n : ℕ) : State Time D :=
  let stat := s.stats n
  let occ_counter := if stat.count = 0 then toInt (s.occ_counter + 1) else s.occ_counter
  let first_occ := if stat.count = 0 then occ_counter else stat.first_occ
  let stat := { stat with count := toInt (stat.count + 1), first_occ := first_occ }
  { s with occ_counter := occ_counter, stats := Function.update s.stats n stat }

section

variable [Add D] (elapsed : Time → Time → D)

def addTime (s : State Time D) (n : ℕ) (exit_time : Time) : State Time D :=
  let stat := s.stats n
  let stat := { stat with total_time := stat.total_time + elapsed s.entry_time exit_time }
  { s with stats := Function.update s.stats n stat }

/-- The branch `SIGTRAP | 0x80`. -/
def syscallStop (s : State Time D) (orig_rax : ℤ) (now : Time) : State Time D :=
  if s.in_syscall = false then
    let s := { s with in_syscall := true, entry_time := now }
    if inTable orig_rax then countEntry s orig_rax.toNat else s
  else
    let s := { s with in_syscall := false }
    if inTable orig_rax then addTime elapsed s orig_rax.toNat now else s

def signalStop (s : State Time D) (stopsig : Fin 65) : State Time D :=
  if stopsig.val ≠ sigtrap then { s with pass_sig := stopsig.val } else s

/-- The body of the loop after a `waitpid` that returns a stop. -/
def onStop (s : State Time D) (stop : Stop Time) : State Time D :=
  let s := { s with status := stop.status, pass_sig := 0 }
  match stop with
  | .entry orig_rax now => syscallStop elapsed s orig_rax now
  | .exit orig_rax now => syscallStop elapsed s orig_rax now
  | .signal stopsig => signalStop s stopsig

/-- The body of the loop after a `waitpid` that fails: the old `status` once more. -/
def onFailure (s : State Time D) (orig_rax : ℤ) (now : Time) : State Time D :=
  let s := { s with pass_sig := 0 }
  match s.status with
  | .syscall => syscallStop elapsed s orig_rax now
  | .signal stopsig => signalStop s stopsig

def onWait (s : State Time D) : Wait Time → State Time D
  | .returns stop => onStop elapsed s stop
  | .fails _ orig_rax now => onFailure elapsed s orig_rax now

/-- The loop, if it comes to an end. -/
def trace [Zero D] (status : Status) (entry_time : Time) (life : Life Time) :
    Option (State Time D) :=
  if life.ended then some (life.waits.foldl (onWait elapsed) (start status entry_time)) else none

/-- The signals that `PTRACE_SYSCALL` is to pass on, the last one before the process is gone. -/
def resumes (s : State Time D) : List (Wait Time) → List ℕ
  | [] => [s.pass_sig]
  | wait :: waits => s.pass_sig :: resumes (onWait elapsed s wait) waits

end

/-! ## Entries and signals -/

/-- The call of a stop at an entry, if it can be reported. -/
def entered : Stop Time → List ℕ
  | .entry orig_rax _ => if inTable orig_rax then [orig_rax.toNat] else []
  | _ => []

def entries (stops : List (Stop Time)) : List ℕ := stops.flatMap entered

/-- No handler takes a status of the process or interrupts a `waitpid` of the loop. -/
def Life.Undisturbed (life : Life Time) : Prop :=
  life.ended = true ∧ ∀ wait ∈ life.waits, ∃ stop, wait = .returns stop

/-- The stops at system calls alternate, with signals anywhere between them; the flag tells
whether the process is in a call at the end. -/
inductive Alternating : Bool → List (Stop Time) → Prop
  | nil : Alternating false []
  | entry {stops : List (Stop Time)} {orig_rax : ℤ} {now : Time} :
      Alternating false stops → Alternating true (stops ++ [.entry orig_rax now])
  | exit {stops : List (Stop Time)} {orig_rax : ℤ} {now : Time} :
      Alternating true stops → Alternating false (stops ++ [.exit orig_rax now])
  | signal {inside : Bool} {stops : List (Stop Time)} {stopsig : Fin 65} :
      Alternating inside stops → Alternating inside (stops ++ [.signal stopsig])

/-- The signal that has to be passed on after a stop. -/
def delivered : Stop Time → ℕ
  | .signal stopsig => if stopsig.val = sigtrap then 0 else stopsig.val
  | _ => 0

/-! ## The counters -/

section

variable {s : State Time D} {calls : List ℕ} {n : ℕ}

/-- The counters have counted the calls, as far as an `int` can. -/
structure Counted (s : State Time D) (calls : List ℕ) : Prop where
  sys_num : ∀ n, (s.stats n).sys_num = n
  count : ∀ n, (s.stats n).count = toInt (calls.count n)
  unseen : ∀ n ∉ calls, (s.stats n).first_occ = 0

/-- The calls are numbered in the order in which they first appeared. -/
structure Ranked (s : State Time D) (calls : List ℕ) : Prop where
  occ : s.occ_counter = (Tally.keys id calls).length
  first : ∀ n ∈ calls, (s.stats n).first_occ = (Tally.keys id calls).idxOf n + 1

theorem mem_keys_id : n ∈ Tally.keys id calls ↔ n ∈ calls := by
  rw [Tally.mem_keys]
  simp

theorem keys_id_concat : Tally.keys id (calls ++ [n]) =
    if n ∈ Tally.keys id calls then Tally.keys id calls else Tally.keys id calls ++ [n] :=
  Tally.keys_concat n

theorem idxOf_lt_of_keys_id {m : ℕ} (hn : n ∈ calls) (hm : m ∈ calls)
    (hlt : (Tally.keys id calls).idxOf n < (Tally.keys id calls).idxOf m) :
    calls.idxOf n < calls.idxOf m := by
  have hmap : calls.map id = calls := List.map_id calls
  have hfirst := Tally.idxOf_lt_of_keys (hmap.symm ▸ hn) (hmap.symm ▸ hm) hlt
  rwa [hmap] at hfirst

theorem Counted.eq_zero_iff (h : Counted s calls) (hlt : calls.count n < 2 ^ 31) :
    (s.stats n).count = 0 ↔ n ∉ Tally.keys id calls := by
  rw [h.count, toInt_of_lt hlt, Int.natCast_eq_zero, List.count_eq_zero, mem_keys_id]

theorem countEntry_stats_self : (countEntry s n).stats n =
    { s.stats n with
      count := toInt ((s.stats n).count + 1)
      first_occ := if (s.stats n).count = 0 then toInt (s.occ_counter + 1)
        else (s.stats n).first_occ } := by
  rw [countEntry]
  split_ifs <;> exact Function.update_self ..

theorem countEntry_stats_of_ne {m : ℕ} (h : m ≠ n) : (countEntry s n).stats m = s.stats m :=
  Function.update_of_ne h ..

theorem Counted.countEntry (h : Counted s calls) (n : ℕ) :
    Counted (countEntry s n) (calls ++ [n]) := by
  constructor
  · intro m
    by_cases hm : m = n
    · rw [hm, countEntry_stats_self]
      exact h.sys_num n
    · rw [countEntry_stats_of_ne hm]
      exact h.sys_num m
  · intro m
    rw [List.count_append]
    by_cases hm : m = n
    · rw [hm, countEntry_stats_self, List.count_singleton_self]
      dsimp only
      rw [h.count, toInt_toInt_add_one]
    · have hzero : [n].count m = 0 :=
        List.count_eq_zero.mpr fun hmem => hm (List.mem_singleton.mp hmem)
      rw [countEntry_stats_of_ne hm, hzero, Nat.add_zero]
      exact h.count m
  · intro m hm
    rw [List.mem_append, not_or] at hm
    rw [countEntry_stats_of_ne fun heq => hm.2 (List.mem_singleton.mpr heq)]
    exact h.unseen m hm.1

theorem Ranked.countEntry (hcount : Counted s calls) (h : Ranked s calls)
    (hlt : calls.count n < 2 ^ 31) (hlen : (Tally.keys id calls).length + 1 < 2 ^ 31) :
    Ranked (countEntry s n) (calls ++ [n]) := by
  have hocc : (Snoop.countEntry s n).occ_counter =
      if (s.stats n).count = 0 then toInt (s.occ_counter + 1) else s.occ_counter := rfl
  have hother {m : ℕ} (hm : m ∈ calls ++ [n]) (hne : m ≠ n) : m ∈ calls :=
    (List.mem_append.mp hm).resolve_right fun heq => hne (List.mem_singleton.mp heq)
  by_cases hold : n ∈ Tally.keys id calls
  · have hcalled : (s.stats n).count ≠ 0 := fun hzero => (hcount.eq_zero_iff hlt).mp hzero hold
    rw [if_neg hcalled] at hocc
    have hkeys : Tally.keys id (calls ++ [n]) = Tally.keys id calls := by
      rw [keys_id_concat, if_pos hold]
    refine ⟨by rw [hocc, hkeys, h.occ], fun m hm => ?_⟩
    rw [hkeys]
    by_cases hmn : m = n
    · rw [hmn, countEntry_stats_self]
      dsimp only
      rw [if_neg hcalled]
      exact h.first n (mem_keys_id.mp hold)
    · rw [countEntry_stats_of_ne hmn]
      exact h.first m (hother hm hmn)
  · have hzero : (s.stats n).count = 0 := (hcount.eq_zero_iff hlt).mpr hold
    have hnext : toInt (s.occ_counter + 1) = (Tally.keys id calls).length + 1 := by
      rw [h.occ]
      exact toInt_of_lt hlen
    rw [if_pos hzero, hnext] at hocc
    have hkeys : Tally.keys id (calls ++ [n]) = Tally.keys id calls ++ [n] := by
      rw [keys_id_concat, if_neg hold]
    refine ⟨by rw [hocc, hkeys, List.length_append]; rfl, fun m hm => ?_⟩
    rw [hkeys]
    by_cases hmn : m = n
    · rw [hmn, countEntry_stats_self, List.idxOf_append_of_notMem hold, List.idxOf_cons_self]
      dsimp only
      rw [if_pos hzero, hnext, Nat.add_zero]
    · have hmem := hother hm hmn
      rw [countEntry_stats_of_ne hmn, List.idxOf_append_of_mem (mem_keys_id.mpr hmem)]
      exact h.first m hmem

variable [Add D] {elapsed : Time → Time → D}

/-- The time of a call is no matter for its number and its rank. -/
theorem addTime_stats (s : State Time D) (n m : ℕ) (exit_time : Time) :
    ((addTime elapsed s n exit_time).stats m).sys_num = (s.stats m).sys_num ∧
      ((addTime elapsed s n exit_time).stats m).count = (s.stats m).count ∧
      ((addTime elapsed s n exit_time).stats m).first_occ = (s.stats m).first_occ := by
  by_cases hm : m = n
  · subst hm
    simp [addTime]
  · simp [addTime, hm]

theorem Counted.addTime (h : Counted s calls) (n : ℕ) (exit_time : Time) :
    Counted (addTime elapsed s n exit_time) calls :=
  ⟨fun m => (addTime_stats s n m exit_time).1.trans (h.sys_num m),
    fun m => (addTime_stats s n m exit_time).2.1.trans (h.count m),
    fun m hm => (addTime_stats s n m exit_time).2.2.trans (h.unseen m hm)⟩

theorem Ranked.addTime (h : Ranked s calls) (n : ℕ) (exit_time : Time) :
    Ranked (addTime elapsed s n exit_time) calls :=
  ⟨h.occ, fun m hm => (addTime_stats s n m exit_time).2.2.trans (h.first m hm)⟩

end

/-! ## Whole traces -/

theorem entries_concat (stops : List (Stop Time)) (stop : Stop Time) :
    entries (stops ++ [stop]) = entries stops ++ entered stop := by
  rw [entries, List.flatMap_append, List.flatMap_singleton, ← entries]

theorem lt_of_mem_entries {stops : List (Stop Time)} {n : ℕ} (h : n ∈ entries stops) :
    n < statsSize := by
  obtain ⟨stop, -, hstop⟩ := List.mem_flatMap.mp h
  cases stop with
  | entry orig_rax now =>
      rw [entered] at hstop
      split_ifs at hstop with hin
      · obtain rfl := List.mem_singleton.mp hstop
        exact (Int.toNat_lt hin.1).mpr hin.2
      · cases hstop
  | exit orig_rax now => cases hstop
  | signal stopsig => cases hstop

theorem length_keys_le (stops : List (Stop Time)) :
    (Tally.keys id (entries stops)).length ≤ statsSize := by
  have hnodup : (Tally.keys id (entries stops)).Nodup := Tally.nodup_keys _
  have hsub : Tally.keys id (entries stops) ⊆ List.range statsSize := fun n hn =>
    List.mem_range.mpr (lt_of_mem_entries (mem_keys_id.mp hn))
  have hle := (List.subperm_of_subset hnodup hsub).length_le
  rwa [List.length_range] at hle

/-- What is known after a trace; the ranks are lost when a counter overflows. -/
structure Traced (inside : Bool) (stops : List (Stop Time)) (s : State Time D) : Prop where
  in_syscall : s.in_syscall = inside
  counted : Counted s (entries stops)
  ranked : (∀ n, (entries stops).count n < 2 ^ 31) → Ranked s (entries stops)

section

variable {inside inside' : Bool} {stops stops' : List (Stop Time)} {s t : State Time D}

theorem Traced.keep (h : Traced inside stops s) (hentries : entries stops' = entries stops)
    (hin : t.in_syscall = inside') (hocc : t.occ_counter = s.occ_counter)
    (hstats : t.stats = s.stats) : Traced inside' stops' t where
  in_syscall := hin
  counted := by
    rw [hentries]
    exact ⟨hstats ▸ h.counted.sys_num, hstats ▸ h.counted.count, hstats ▸ h.counted.unseen⟩
  ranked hlt := by
    rw [hentries] at hlt ⊢
    exact ⟨hocc.trans (h.ranked hlt).occ, hstats ▸ (h.ranked hlt).first⟩

theorem Traced.countEntry (h : Traced inside stops s) {n : ℕ}
    (hentries : entries stops' = entries stops ++ [n]) : Traced inside stops' (countEntry s n) where
  in_syscall := h.in_syscall
  counted := by
    rw [hentries]
    exact h.counted.countEntry n
  ranked hlt := by
    rw [hentries] at hlt ⊢
    have hlt' (m : ℕ) : (entries stops).count m < 2 ^ 31 := by
      have := hlt m
      rw [List.count_append] at this
      omega
    have hlen := length_keys_le stops
    rw [statsSize] at hlen
    exact (h.ranked hlt').countEntry h.counted (hlt' n) (by omega)

theorem traced_start [Zero D] (status : Status) (entry_time : Time) :
    Traced false [] (start status entry_time : State Time D) where
  in_syscall := rfl
  counted := ⟨fun _ => rfl, fun _ => (toInt_of_lt (n := 0) (by decide)).symm, fun _ _ => rfl⟩
  ranked _ := ⟨rfl, fun _ hn => absurd hn List.not_mem_nil⟩

variable [Add D] (elapsed : Time → Time → D)

theorem Traced.addTime (h : Traced inside stops s) (n : ℕ) (exit_time : Time) :
    Traced inside stops (addTime elapsed s n exit_time) :=
  ⟨h.in_syscall, h.counted.addTime n exit_time, fun hlt => (h.ranked hlt).addTime n exit_time⟩

theorem Traced.entry (h : Traced false stops s) (orig_rax : ℤ) (now : Time) :
    Traced true (stops ++ [.entry orig_rax now]) (onStop elapsed s (.entry orig_rax now)) := by
  have hstep : onStop elapsed s (.entry orig_rax now) =
      let t := { s with
        status := .syscall, pass_sig := 0, in_syscall := true, entry_time := now }
      if inTable orig_rax then Snoop.countEntry t orig_rax.toNat else t :=
    if_pos h.in_syscall
  have hentries := entries_concat stops (.entry orig_rax now)
  rw [entered] at hentries
  rw [hstep]
  dsimp only
  split_ifs at hentries ⊢
  · refine Traced.countEntry ?_ hentries
    exact h.keep rfl rfl rfl rfl
  · exact h.keep (hentries.trans (List.append_nil _)) rfl rfl rfl

theorem Traced.exit (h : Traced true stops s) (orig_rax : ℤ) (now : Time) :
    Traced false (stops ++ [.exit orig_rax now]) (onStop elapsed s (.exit orig_rax now)) := by
  have hstep : onStop elapsed s (.exit orig_rax now) =
      let t := { s with status := .syscall, pass_sig := 0, in_syscall := false }
      if inTable orig_rax then Snoop.addTime elapsed t orig_rax.toNat now else t :=
    if_neg (by rw [h.in_syscall]; decide)
  have hentries : entries (stops ++ [.exit orig_rax now]) = entries stops := by
    rw [entries_concat]
    exact List.append_nil _
  rw [hstep]
  dsimp only
  split_ifs
  · apply Traced.addTime
    exact h.keep hentries rfl rfl rfl
  · exact h.keep hentries rfl rfl rfl

theorem Traced.signal (h : Traced inside stops s) (stopsig : Fin 65) :
    Traced inside (stops ++ [.signal stopsig]) (onStop elapsed s (.signal stopsig)) := by
  have hentries : entries (stops ++ [.signal stopsig]) = entries stops := by
    rw [entries_concat]
    exact List.append_nil _
  rw [onStop, signalStop]
  dsimp only
  split_ifs
  · exact h.keep hentries h.in_syscall rfl rfl
  · exact h.keep hentries h.in_syscall rfl rfl

/-- Over every sequence of stops the counters are kept. -/
theorem traced [Zero D] (status : Status) (entry_time : Time) (h : Alternating inside stops) :
    Traced inside stops (stops.foldl (onStop elapsed) (start status entry_time)) := by
  induction h with
  | nil => exact traced_start status entry_time
  | entry _ ih =>
      rw [List.foldl_append]
      exact ih.entry elapsed _ _
  | exit _ ih =>
      rw [List.foldl_append]
      exact ih.exit elapsed _ _
  | signal _ ih =>
      rw [List.foldl_append]
      exact ih.signal elapsed _

/-- After a stop its signal is passed on, and no older one. -/
theorem pass_sig_onStop (s : State Time D) (stop : Stop Time) :
    (onStop elapsed s stop).pass_sig = delivered stop := by
  have hsyscall (orig_rax : ℤ) (now : Time) :
      (syscallStop elapsed { s with status := .syscall, pass_sig := 0 } orig_rax now).pass_sig =
        0 := by
    rw [syscallStop]
    dsimp only
    split_ifs <;> rfl
  cases stop with
  | entry orig_rax now => exact hsyscall orig_rax now
  | exit orig_rax now => exact hsyscall orig_rax now
  | signal stopsig =>
      rw [onStop, signalStop, delivered]
      dsimp only
      by_cases htrap : stopsig.val = sigtrap
      · rw [if_neg (not_not.mpr htrap), if_pos htrap]
      · rw [if_pos htrap, if_neg htrap]

theorem resumes_eq (s : State Time D) (stops : List (Stop Time)) :
    resumes elapsed s (stops.map .returns) = s.pass_sig :: stops.map delivered := by
  induction stops generalizing s with
  | nil => rfl
  | cons stop stops ih =>
      rw [List.map_cons, resumes, ih, List.map_cons, onWait, pass_sig_onStop]

theorem waits_eq_map_returns {waits : List (Wait Time)}
    (h : ∀ wait ∈ waits, ∃ stop, wait = .returns stop) :
    waits = (waits.filterMap Wait.stop).map .returns := by
  induction waits with
  | nil => rfl
  | cons wait waits ih =>
      obtain ⟨⟨stop, rfl⟩, hrest⟩ := List.forall_mem_cons.mp h
      rw [List.filterMap_cons_some (by rfl), List.map_cons, ← ih hrest]

/-- Without disturbance the loop ends and has acted on every stop. -/
theorem Life.Undisturbed.trace_eq [Zero D] {life : Life Time} (h : life.Undisturbed)
    (status : Status) (entry_time : Time) :
    trace elapsed status entry_time life =
      some (life.stops.foldl (onStop elapsed) (start status entry_time : State Time D)) := by
  rw [trace, if_pos h.1, waits_eq_map_returns h.2, List.foldl_map]
  rfl

end

end ShellXv6.Shell.Snoop
