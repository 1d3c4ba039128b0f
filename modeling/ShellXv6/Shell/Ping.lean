import ShellXv6.Lib.IntConversion
import ShellXv6.Shell.Hop
import ShellXv6.Shell.JobTracking

/-!
# The builtin `ping`

`ping` sends a signal to a job, `%id`, or to a process that the table knows.  Both
numbers go through `atoi`, which stops at the first character that is no digit and whose
result is an `int`.  The characters of the signal and of a pid are checked before, those
of a job id are not.  Arguments are words of the lexer and have fewer than 4096 bytes, so
the indices of these checks do not overflow.
-/

namespace ShellXv6.Shell.Ping

open Scanf IntConversion JobTracking

/-- `atoi`, which is `strtol` converted to `int`. -/
def atoi (text : List Char) : ℤ :=
  match scanInt text with
  | some (n, _) => toInt (Hop.toLong n)
  | none => 0

inductive Target
  | job (target_val : ℤ)
  | process (target_val : ℤ)

/-- The target as it is written, without the sign of a job. -/
def number : List Char → List Char
  | '%' :: rest => rest
  | target_str => target_str

def parseTarget : List Char → Option Target
  | '%' :: rest => some (.job (atoi rest))
  | target_str =>
      if target_str.all Char.isDigit then some (.process (atoi target_str)) else none

/-- The two searches: the first argument of `kill`. -/
def receiver (jobs : List Job) : Target → Option ℤ
  | .job target_val =>
      (jobs.find? fun job => active job && (job.id : ℤ) = target_val).map fun job => -(job.pgid : ℤ)
  | .process target_val =>
      if jobs.any fun job => job.procs.any fun proc =>
          proc.alive ≠ .exited && (proc.pid : ℤ) = target_val
      then some target_val
      else none

structure Kill where
  pid : ℤ
  sig : ℤ
  deriving DecidableEq

/-- The calls of `kill`, and what is printed. -/
def executePing (jobs : List Job) (args : List (List Char)) : List Kill × List Char :=
  match args with
  | [_, target_str, sig_str] =>
      if IsDecimal sig_str then
        let sig_val := atoi sig_str
        let real_sig := sig_val.tmod 64
        match (parseTarget target_str).bind (receiver jobs) with
        | some target_pid =>
            ([⟨target_pid, real_sig⟩],
              "Sent signal ".toList ++ printInt sig_val ++ " to ".toList ++ target_str ++ ['\n'])
        | none => ([], "ping: no such process found\n".toList)
      else ([], "ping: invalid syntax\n".toList)
  | _ => ([], "ping: invalid syntax\n".toList)

/-! ## What is asked for -/

/-- The fields of the table are positive and of type `int`. -/
def Numbered (jobs : List Job) : Prop :=
  ∀ job ∈ jobs, (0 < (job.id : ℤ) ∧ (job.id : ℤ) < 2 ^ 31) ∧
    ∀ proc ∈ job.procs, 0 < (proc.pid : ℤ) ∧ (proc.pid : ℤ) < 2 ^ 31

instance (jobs : List Job) : Decidable (Numbered jobs) :=
  inferInstanceAs (Decidable (∀ _ ∈ _, _ ∧ ∀ _ ∈ _, _))

def ToJob (jobs : List Job) (target_str : List Char) (pid : ℤ) : Prop :=
  ∃ rest n, target_str = '%' :: rest ∧ Denotes rest n ∧
    ∃ job ∈ jobs, active job = true ∧ (job.id : ℤ) = n ∧ pid = -(job.pgid : ℤ)

def ToProcess (jobs : List Job) (target_str : List Char) (pid : ℤ) : Prop :=
  Denotes target_str pid ∧
    ∃ job ∈ jobs, ∃ proc ∈ job.procs, proc.alive ≠ .exited ∧ (proc.pid : ℤ) = pid

/-- The signal and the receiver are those that the arguments denote. -/
def ByValue (jobs : List Job) (target_str sig_str : List Char) (k : Kill) : Prop :=
  IsDecimal sig_str ∧ k.sig = (decimalValue sig_str : ℤ) % 64 ∧
    (ToJob jobs target_str k.pid ∨ ToProcess jobs target_str k.pid)

/-- At most one call, by value. -/
def PingsByValue (jobs : List Job) (target_str sig_str : List Char) : Prop :=
  let kills := (executePing jobs ["ping".toList, target_str, sig_str]).1
  kills.length ≤ 1 ∧ ∀ k ∈ kills, ByValue jobs target_str sig_str k

/-- The conversion of the signal keeps its remainder. -/
def ExactSignal (sig_str : List Char) : Prop :=
  let v := decimalValue sig_str
  v < 2 ^ 63 ∧ (v % 2 ^ 32 < 2 ^ 31 ∨ 64 ∣ v)

instance (sig_str : List Char) : Decidable (ExactSignal sig_str) :=
  inferInstanceAs (Decidable (_ ∧ (_ ∨ _)))

/-- The target is an `int` and nothing else. -/
def ExactTarget (target_str : List Char) : Prop :=
  ∃ n, Denotes (number target_str) n ∧ -2 ^ 31 ≤ n ∧ n < 2 ^ 31

/-- The table has an active job or a live process with the converted number. -/
def Addressed (jobs : List Job) : List Char → Prop
  | '%' :: rest => ∃ job ∈ jobs, active job = true ∧ (job.id : ℤ) = atoi rest
  | target_str =>
      target_str.all Char.isDigit = true ∧
        ∃ job ∈ jobs, ∃ proc ∈ job.procs, proc.alive ≠ .exited ∧ (proc.pid : ℤ) = atoi target_str

/-! ## Conversion -/

theorem atoi_of_denotes {text : List Char} {n : ℤ} (h : Denotes text n) :
    atoi text = toInt (Hop.toLong n) := by
  rw [atoi, scanInt_of_denotes h]

theorem atoi_of_range {text : List Char} {n : ℤ} (h : Denotes text n) (hle : -2 ^ 31 ≤ n)
    (hlt : n < 2 ^ 31) : atoi text = n := by
  rw [atoi_of_denotes h, Hop.toLong_of_range (by omega) (by omega), toInt_of_range hle hlt]

/-- A number behind the end of `long` becomes -1. -/
theorem toInt_toLong_of_le {v : ℕ} (h : 2 ^ 63 ≤ v) : toInt (Hop.toLong v) = -1 := by
  have hlong : Hop.toLong v = 2 ^ 63 - 1 := by
    unfold Hop.toLong
    omega
  rw [hlong]
  rfl

theorem tmod_toInt_eq_iff (v : ℕ) :
    (toInt v).tmod 64 = (v : ℤ) % 64 ↔ v % 2 ^ 32 < 2 ^ 31 ∨ 64 ∣ v := by
  by_cases hlt : v % 2 ^ 32 < 2 ^ 31
  · have hint : toInt v = (v : ℤ) % 2 ^ 32 := by
      rw [toInt, Int.bmod_def]
      omega
    rw [hint, Int.tmod_eq_emod_of_nonneg (by omega)]
    exact iff_of_true (by omega) (.inl hlt)
  · have hint : toInt v = -(2 ^ 32 - (v : ℤ) % 2 ^ 32) := by
      rw [toInt, Int.bmod_def]
      omega
    -- a negative number has no positive remainder
    rw [hint, Int.neg_tmod, Int.tmod_eq_emod_of_nonneg (by omega)]
    omega

theorem exactSignal_iff {sig_str : List Char} (h : IsDecimal sig_str) :
    (atoi sig_str).tmod 64 = (decimalValue sig_str : ℤ) % 64 ↔ ExactSignal sig_str := by
  rw [atoi_of_denotes (.plain h), ExactSignal]
  by_cases hlt : decimalValue sig_str < 2 ^ 63
  · rw [Hop.toLong_of_range (by omega) (by omega), tmod_toInt_eq_iff]
    exact (and_iff_right hlt).symm
  · rw [toInt_toLong_of_le (Nat.le_of_not_lt hlt)]
    refine iff_of_false ?_ fun hexact => hlt hexact.1
    have hneg : (-1 : ℤ).tmod 64 = -1 := rfl
    omega

/-! ## The receiver -/

theorem number_of_ne {target_str : List Char} (h : ∀ rest, target_str ≠ '%' :: rest) :
    number target_str = target_str := by
  unfold number
  split
  · exact absurd rfl (h _)
  · rfl

theorem receiver_natCast (jobs : List Job) (n : ℕ) :
    receiver jobs (.job n) = (pingJob jobs n).map fun pgid : Pid => -(pgid : ℤ) := by
  simp only [receiver, pingJob, Nat.cast_inj, Option.map_map, Function.comp_def]

theorem receiver_job {jobs : List Job} {target_val pid : ℤ}
    (h : receiver jobs (.job target_val) = some pid) :
    ∃ job ∈ jobs, active job = true ∧ (job.id : ℤ) = target_val ∧ pid = -(job.pgid : ℤ) := by
  obtain ⟨job, hfind, rfl⟩ := Option.map_eq_some_iff.mp h
  have hjob := List.find?_some hfind
  rw [Bool.and_eq_true, decide_eq_true_eq] at hjob
  exact ⟨job, List.mem_of_find?_eq_some hfind, hjob.1, hjob.2, rfl⟩

theorem receiver_process {jobs : List Job} {target_val pid : ℤ}
    (h : receiver jobs (.process target_val) = some pid) :
    pid = target_val ∧
      ∃ job ∈ jobs, ∃ proc ∈ job.procs, proc.alive ≠ .exited ∧ (proc.pid : ℤ) = pid := by
  rw [receiver] at h
  split_ifs at h with hany
  obtain rfl := Option.some.inj h
  simpa using hany

theorem not_toProcess_job {jobs : List Job} {rest : List Char} {pid : ℤ} :
    ¬ToProcess jobs ('%' :: rest) pid := by
  rintro ⟨hden, -⟩
  cases hden with
  | plain h => cases h.2 _ List.mem_cons_self

theorem job_exact_iff {jobs : List Job} (hjobs : Numbered jobs) {rest : List Char} {pid : ℤ}
    (h : receiver jobs (.job (atoi rest)) = some pid) :
    ToJob jobs ('%' :: rest) pid ↔ ExactTarget ('%' :: rest) := by
  constructor
  · rintro ⟨rest', n, hrest, hden, job, hmem, -, hid, -⟩
    obtain rfl := (List.cons.inj hrest).2
    have hnum := (hjobs job hmem).1
    exact ⟨n, hden, by omega, by omega⟩
  · rintro ⟨n, hden, hle, hlt⟩
    obtain ⟨job, hmem, hact, hid, hpid⟩ := receiver_job h
    exact ⟨rest, n, rfl, hden, job, hmem, hact, hid.trans (atoi_of_range hden hle hlt), hpid⟩

theorem process_exact_iff {jobs : List Job} (hjobs : Numbered jobs) {target_str : List Char}
    {pid : ℤ} (hnumber : number target_str = target_str)
    (h : receiver jobs (.process (atoi target_str)) = some pid) :
    ToProcess jobs target_str pid ↔ ExactTarget target_str := by
  rw [ExactTarget, hnumber]
  constructor
  · rintro ⟨hden, job, hmem, proc, hproc, -, hpid⟩
    have hnum := (hjobs job hmem).2 proc hproc
    exact ⟨pid, hden, by omega, by omega⟩
  · rintro ⟨n, hden, hle, hlt⟩
    obtain ⟨rfl, hlive⟩ := receiver_process h
    refine ⟨?_, hlive⟩
    rw [atoi_of_range hden hle hlt]
    exact hden

theorem receiver_exact_iff {jobs : List Job} (hjobs : Numbered jobs) {target_str : List Char}
    {pid : ℤ} (h : (parseTarget target_str).bind (receiver jobs) = some pid) :
    ToJob jobs target_str pid ∨ ToProcess jobs target_str pid ↔ ExactTarget target_str := by
  by_cases hjob : ∃ rest, target_str = '%' :: rest
  · obtain ⟨rest, rfl⟩ := hjob
    rw [or_iff_left not_toProcess_job]
    exact job_exact_iff hjobs h
  · have hne (rest : List Char) : target_str ≠ '%' :: rest := fun heq => hjob ⟨rest, heq⟩
    have hnot : ¬ToJob jobs target_str pid := by
      rintro ⟨rest, n, heq, -⟩
      exact hne rest heq
    rw [or_iff_right hnot]
    apply process_exact_iff hjobs (number_of_ne hne)
    rw [parseTarget] at h
    · split_ifs at h
      · exact h
      · cases h
    · exact hne

theorem receiver_job_isSome {jobs : List Job} {target_val : ℤ} :
    (receiver jobs (.job target_val)).isSome = true ↔
      ∃ job ∈ jobs, active job = true ∧ (job.id : ℤ) = target_val := by
  rw [receiver, Option.isSome_map, List.find?_isSome]
  simp

theorem receiver_process_isSome {jobs : List Job} {target_val : ℤ} :
    (receiver jobs (.process target_val)).isSome = true ↔
      ∃ job ∈ jobs, ∃ proc ∈ job.procs, proc.alive ≠ .exited ∧ (proc.pid : ℤ) = target_val := by
  rw [receiver]
  split_ifs with hany
  · simpa using hany
  · simpa using hany

theorem addressed_iff {jobs : List Job} {target_str : List Char} :
    Addressed jobs target_str ↔
      ((parseTarget target_str).bind (receiver jobs)).isSome = true := by
  unfold Addressed parseTarget
  split
  · exact receiver_job_isSome.symm
  · rename_i hne
    cases hdigits : target_str.all Char.isDigit with
    | true => simpa using receiver_process_isSome.symm
    | false => simp

/-! ## Signals by value -/

theorem executePing_of_some {jobs : List Job} {target_str sig_str : List Char} {pid : ℤ}
    (hsig : IsDecimal sig_str) (h : (parseTarget target_str).bind (receiver jobs) = some pid) :
    (executePing jobs ["ping".toList, target_str, sig_str]).1 =
      [⟨pid, (atoi sig_str).tmod 64⟩] := by
  rw [executePing, if_pos hsig]
  simp only [h]

theorem executePing_of_not {jobs : List Job} {target_str sig_str : List Char}
    (h : ¬IsDecimal sig_str ∨ ¬Addressed jobs target_str) :
    (executePing jobs ["ping".toList, target_str, sig_str]).1 = [] := by
  rw [executePing]
  split_ifs with hsig
  · have hnone : (parseTarget target_str).bind (receiver jobs) = none :=
      Option.not_isSome_iff_eq_none.mp (mt addressed_iff.mpr (h.resolve_left fun hnot => hnot hsig))
    simp only [hnone]
  · rfl

theorem sent_by_value_iff {jobs : List Job} (hjobs : Numbered jobs) {target_str sig_str : List Char}
    (hsig : IsDecimal sig_str) (haddr : Addressed jobs target_str) :
    PingsByValue jobs target_str sig_str ↔ ExactSignal sig_str ∧ ExactTarget target_str := by
  obtain ⟨pid, hpid⟩ := Option.isSome_iff_exists.mp (addressed_iff.mp haddr)
  rw [PingsByValue, executePing_of_some hsig hpid]
  simp only [List.length_singleton, Nat.le_refl, true_and, List.forall_mem_singleton, ByValue]
  rw [and_iff_right hsig, exactSignal_iff hsig, receiver_exact_iff hjobs hpid]

/-- `ping` goes by value exactly if it sends nothing or both numbers survive `atoi`. -/
theorem pings_by_value_iff {jobs : List Job} (hjobs : Numbered jobs)
    (target_str sig_str : List Char) :
    PingsByValue jobs target_str sig_str ↔
      ¬IsDecimal sig_str ∨ ¬Addressed jobs target_str ∨
        ExactSignal sig_str ∧ ExactTarget target_str := by
  by_cases hsent : IsDecimal sig_str ∧ Addressed jobs target_str
  · rw [or_iff_right (not_not.mpr hsent.1), or_iff_right (not_not.mpr hsent.2)]
    exact sent_by_value_iff hjobs hsent.1 hsent.2
  · have hnot := not_and_or.mp hsent
    rw [PingsByValue, executePing_of_not hnot, ← or_assoc]
    exact iff_of_true ⟨Nat.zero_le 1, List.forall_mem_nil _⟩ (.inl hnot)

/-- One job, whose group and process have the number 100. -/
def oneJob : List Job := [⟨1, 100, [⟨100, "sleep", .running⟩]⟩]

theorem ping_one_job : Numbered oneJob ∧ PingsByValue oneJob "%1".toList "73".toList := by
  have hnumbered : Numbered oneJob := by decide
  refine ⟨hnumbered, (pings_by_value_iff hnumbered _ _).mpr (.inr (.inr ⟨by decide, ?_⟩))⟩
  exact ⟨_, .plain (by decide), by decide, by decide⟩

/-- Letters behind the id, a pid that is too large by `2 ^ 32`, and a signal that becomes
negative: all three are sent. -/
theorem ping_not_by_value :
    Numbered oneJob ∧
    ((executePing oneJob ["ping".toList, "%1abc".toList, "9".toList]).1 = [⟨-100, 9⟩] ∧
      ¬PingsByValue oneJob "%1abc".toList "9".toList) ∧
    ((executePing oneJob ["ping".toList, "4294967396".toList, "9".toList]).1 = [⟨100, 9⟩] ∧
      ¬PingsByValue oneJob "4294967396".toList "9".toList) ∧
    ((executePing oneJob ["ping".toList, "%1".toList, "4294967295".toList]).1 = [⟨-100, -1⟩] ∧
      ¬PingsByValue oneJob "%1".toList "4294967295".toList) := by
  have hnumbered : Numbered oneJob := by decide
  refine ⟨hnumbered, ⟨by decide, ?_⟩, ⟨by decide, ?_⟩, by decide, ?_⟩
  · rw [sent_by_value_iff hnumbered (by decide) (addressed_iff.mpr (by decide))]
    rintro ⟨-, n, hden, -⟩
    cases hden with
    | plain h => exact absurd h (by decide)
  · rw [sent_by_value_iff hnumbered (by decide) (addressed_iff.mpr (by decide))]
    rintro ⟨-, n, hden, -, hlt⟩
    cases hden with
    | plain _ => exact absurd hlt (by decide)
  · rw [sent_by_value_iff hnumbered (by decide) (addressed_iff.mpr (by decide))]
    rintro ⟨hexact, -⟩
    exact absurd hexact (by decide)

end ShellXv6.Shell.Ping
