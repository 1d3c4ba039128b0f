import ShellXv6.Lib.Tally
import ShellXv6.Shell.FrecencySearch

/-!
# The history of `hop` over whole sessions

The history file holds what a table with `maxEntries` rows holds: one row for each of
the first directories, with the number of hops to it and the time of the last one.
Every hop reads back what the hop before it has printed, so each path must come
through `fprintf` and `fscanf` unchanged.
-/

namespace ShellXv6.Shell.Hop

open Scanf Tally

/-! ## The table -/

def lastTime (visits : List Visit) (path : Path) : ℤ :=
  ((visits.filter (·.path = path)).getLast?.map Visit.time).getD 0

def summary (visits : List Visit) (path : Path) : FrecencyEntry :=
  ⟨path, visits.countP (·.path = path), lastTime visits path⟩

/-- The rows of the first `maxEntries` directories. -/
def table (visits : List Visit) : List FrecencyEntry :=
  (kept Visit.path maxEntries visits).map (summary visits)

/-- What `update_frecency` does to the entry that it finds. -/
def FrecencyEntry.again (e : FrecencyEntry) (now : ℤ) : FrecencyEntry :=
  { e with frequency := (e.frequency + 1).bmod (2 ^ 32), recency := now }

theorem lastTime_concat (visits : List Visit) (v : Visit) (path : Path) :
    lastTime (visits ++ [v]) path = if v.path = path then v.time else lastTime visits path := by
  rw [lastTime, List.filter_append]
  by_cases h : v.path = path
  · rw [if_pos h, List.filter_cons_of_pos (by simpa using h), List.filter_nil,
      List.getLast?_append]
    rfl
  · rw [if_neg h, List.filter_cons_of_neg (by simpa using h), List.filter_nil, List.append_nil,
      lastTime]

theorem summary_concat_of_ne (visits : List Visit) {v : Visit} {path : Path}
    (h : v.path ≠ path) : summary (visits ++ [v]) path = summary visits path := by
  rw [summary, summary, lastTime_concat, if_neg h, List.countP_append,
    List.countP_cons_of_neg (by simpa using h), List.countP_nil, Nat.add_zero]

theorem summary_concat_self {visits : List Visit} (v : Visit) (h : visits.length + 1 < 2 ^ 31) :
    summary (visits ++ [v]) v.path = (summary visits v.path).again v.time := by
  have hcount : visits.countP (·.path = v.path) ≤ visits.length := List.countP_le_length
  have hbmod : ((visits.countP (·.path = v.path) : ℤ) + 1).bmod (2 ^ 32) =
      visits.countP (·.path = v.path) + 1 := by
    apply Int.bmod_eq_of_le_mul_two <;> omega
  rw [summary, lastTime_concat, if_pos rfl, List.countP_append,
    List.countP_cons_of_pos (by simp), List.countP_nil, summary, FrecencyEntry.again, hbmod]
  rfl

theorem summary_concat_new {visits : List Visit} (v : Visit)
    (h : ∀ u ∈ visits, u.path ≠ v.path) :
    summary (visits ++ [v]) v.path = ⟨v.path, 1, v.time⟩ := by
  have hcount : visits.countP (·.path = v.path) = 0 :=
    List.countP_eq_zero.mpr fun u hu => by simpa using h u hu
  rw [summary, lastTime_concat, if_pos rfl, List.countP_append, hcount,
    List.countP_cons_of_pos (by simp), List.countP_nil]
  rfl

theorem visitAgain_map {f : Path → FrecencyEntry} (hf : ∀ p, (f p).path = p) (new_path : Path)
    (now : ℤ) {paths : List Path} (h : paths.Nodup) :
    visitAgain new_path now (paths.map f) =
      if new_path ∈ paths then
        some (paths.map fun p => if p = new_path then (f p).again now else f p)
      else none := by
  induction paths with
  | nil => rfl
  | cons p paths ih =>
      obtain ⟨hnew, hnodup⟩ := List.nodup_cons.mp h
      rw [List.map_cons, visitAgain]
      by_cases hp : p = new_path
      · have hrest : ∀ q ∈ paths, (if q = new_path then (f q).again now else f q) = f q := by
          intro q hq
          exact if_neg fun heq : q = new_path => hnew (hp.trans heq.symm ▸ hq)
        rw [if_pos ((hf p).trans hp), if_pos (hp ▸ List.mem_cons_self), List.map_cons, if_pos hp,
          List.map_congr_left hrest]
        rfl
      · have hmem : new_path ∈ p :: paths ↔ new_path ∈ paths := by
          rw [List.mem_cons, or_iff_right (fun heq => hp heq.symm)]
        rw [if_neg (fun heq => hp ((hf p).symm.trans heq)), ih hnodup]
        by_cases hin : new_path ∈ paths
        · rw [if_pos hin, if_pos (hmem.mpr hin), List.map_cons, if_neg hp]
          rfl
        · rw [if_neg hin, if_neg (mt hmem.mp hin)]
          rfl

theorem visitEntries_table {visits : List Visit} (v : Visit) (h : visits.length + 1 < 2 ^ 31) :
    visitEntries v.path v.time (table visits) = table (visits ++ [v]) := by
  have hother : ∀ p ∈ kept Visit.path maxEntries visits, p ≠ v.path →
      summary visits p = summary (visits ++ [v]) p :=
    fun p _ hne => (summary_concat_of_ne visits hne.symm).symm
  rw [visitEntries, table, visitAgain_map (fun _ => rfl) _ _ (nodup_kept _), table, kept_concat]
  by_cases hmem : v.path ∈ kept Visit.path maxEntries visits
  · simp only [hmem, not_true_eq_false, false_and, if_true, if_false]
    apply List.map_congr_left
    intro p hp
    by_cases heq : p = v.path
    · rw [if_pos heq, heq, summary_concat_self v h]
    · rw [if_neg heq, hother p hp heq]
  · have hrows : (kept Visit.path maxEntries visits).map (summary visits) =
        (kept Visit.path maxEntries visits).map (summary (visits ++ [v])) :=
      List.map_congr_left fun p hp => hother p hp fun heq => hmem (heq ▸ hp)
    simp only [if_neg hmem, List.length_map]
    by_cases hroom : (kept Visit.path maxEntries visits).length < maxEntries
    · have hnew : ∀ u ∈ visits, u.path ≠ v.path := by
        intro u hu heq
        have hkept : kept Visit.path maxEntries visits = keys Visit.path visits := by
          apply List.take_of_length_le
          rw [kept, List.length_take] at hroom
          omega
        exact hmem (hkept ▸ mem_keys.mpr ⟨u, hu, heq⟩)
      rw [if_pos hroom, if_pos ⟨hmem, hroom⟩, List.map_append, List.map_singleton,
        summary_concat_new v hnew, hrows]
    · rw [if_neg hroom, if_neg (fun hnew => hroom hnew.2), hrows]

/-! ## Printing and reading -/

/-- An entry that is read as it was printed. -/
structure FrecencyEntry.Printable (e : FrecencyEntry) : Prop where
  absolute : e.path.head? = some '/'
  one_line : '\n' ∉ e.path
  frequency : 0 ≤ e.frequency ∧ e.frequency < 2 ^ 31
  recency : 0 ≤ e.recency ∧ e.recency < 2 ^ 63

theorem scanEntry_printEntry {e : FrecencyEntry} (h : e.Printable) (rest : List Char) :
    scanEntry (printEntry e ++ rest) = some (e, '\n' :: rest) := by
  obtain ⟨path, frequency, recency⟩ := e
  obtain ⟨habs, hline, hfreq, hrec⟩ := h
  obtain ⟨tail, rfl⟩ : ∃ tail, path = '/' :: tail := by
    cases path with
    | nil => cases habs
    | cons c tail => exact ⟨tail, by rw [Option.some.inj habs]⟩
  have hspace (text : List Char) : Stops (' ' :: text) := by
    intro c hc
    cases hc
    rfl
  simp only [printEntry, List.append_assoc, List.cons_append, List.nil_append]
  rw [scanEntry, scanInt_printInt _ (hspace _)]
  simp only [scanInt_skip (show isSpace ' ' = true from rfl), scanInt_printInt _ (hspace _)]
  rw [skipSpace_cons rfl, skipSpace_cons_of_not rfl, ← List.cons_append, Split.takeWhile_ne hline,
    Split.dropWhile_ne hline, if_neg (List.cons_ne_nil _ _), toInt_of_range (by omega) hfreq.2,
    toLong_of_range (by omega) hrec.2]

theorem readEntries_newline (n : ℕ) (text : List Char) :
    readEntries n ('\n' :: text) = readEntries n text := by
  cases n with
  | zero => rfl
  | succ n => rw [readEntries, readEntries, scanEntry, scanEntry, scanInt_skip rfl]

theorem readEntries_printEntry (n : ℕ) {entries : List FrecencyEntry}
    (h : ∀ e ∈ entries, e.Printable) :
    readEntries n (entries.flatMap printEntry) = entries.take n := by
  induction entries generalizing n with
  | nil => cases n <;> rfl
  | cons e entries ih =>
      cases n with
      | zero => rfl
      | succ n =>
          rw [List.flatMap_cons, readEntries, scanEntry_printEntry (h e List.mem_cons_self)]
          simp only [readEntries_newline, List.take_succ_cons]
          rw [ih _ fun e he => h e (List.mem_cons_of_mem _ he)]

theorem length_le_flatMap_printEntry (entries : List FrecencyEntry) :
    entries.length ≤ (entries.flatMap printEntry).length := by
  induction entries with
  | nil => exact Nat.le_refl 0
  | cons e entries ih =>
      rw [List.flatMap_cons, List.length_append, List.length_cons]
      have hpos : 1 ≤ (printEntry e).length := by
        simp only [printEntry, List.length_append, List.length_cons]
        omega
      omega

/-- Hops to directories whose paths are single lines, at times that a clock shows. -/
structure Recordable (visits : List Visit) : Prop where
  absolute : ∀ v ∈ visits, v.path.head? = some '/'
  one_line : ∀ v ∈ visits, '\n' ∉ v.path
  time : ∀ v ∈ visits, 0 ≤ v.time ∧ v.time < 2 ^ 63
  count : visits.length < 2 ^ 31

theorem Recordable.of_concat {visits : List Visit} {v : Visit}
    (h : Recordable (visits ++ [v])) : Recordable visits where
  absolute u hu := h.absolute u (List.mem_append_left _ hu)
  one_line u hu := h.one_line u (List.mem_append_left _ hu)
  time u hu := h.time u (List.mem_append_left _ hu)
  count := by
    have hcount := h.count
    rw [List.length_append] at hcount
    omega

theorem lastTime_spec {visits : List Visit} {path : Path} (h : ∃ v ∈ visits, v.path = path) :
    ∃ v ∈ visits, lastTime visits path = v.time := by
  have hne : visits.filter (·.path = path) ≠ [] := by
    obtain ⟨v, hv, hpath⟩ := h
    exact List.ne_nil_of_mem (List.mem_filter.mpr ⟨hv, by simpa using hpath⟩)
  refine ⟨(visits.filter (·.path = path)).getLast hne,
    (List.mem_filter.mp (List.getLast_mem hne)).1, ?_⟩
  rw [lastTime, List.getLast?_eq_getLast_of_ne_nil hne]
  rfl

theorem Recordable.printable {visits : List Visit} (h : Recordable visits) :
    ∀ e ∈ table visits, e.Printable := by
  intro e he
  obtain ⟨path, hpath, rfl⟩ := List.mem_map.mp he
  obtain ⟨v, hv, rfl⟩ := mem_of_mem_kept hpath
  obtain ⟨u, hu, htime⟩ := lastTime_spec ⟨v, hv, rfl⟩
  have hcount : visits.countP (·.path = v.path) ≤ visits.length := List.countP_le_length
  have hlt := h.count
  refine ⟨h.absolute v hv, h.one_line v hv, ?_, ?_⟩
  · simp only [summary]
    omega
  · simp only [summary, htime]
    exact h.time u hu

theorem length_table_le (visits : List Visit) : (table visits).length ≤ maxEntries := by
  rw [table, List.length_map, kept, List.length_take]
  exact Nat.min_le_left _ _

/-! ## Sessions -/

variable {Dir : Type}

/-- A command `hop`, with the files as they are at that time and what is in the local arrays
when it begins. -/
structure Call (Dir : Type) where
  files : Files Dir
  now : ℤ
  args : List (Path × ℤ)
  buffers : Buffers

def run (shell_home : Path) (calls : List (Call Dir)) (s : State Dir) : State Dir :=
  calls.foldl
    (fun s call => executeHop call.files shell_home call.now call.args call.buffers s) s

/-- A shell without a history file. -/
def start (cwd : Dir) (prev_dir : Path) : State Dir := ⟨cwd, prev_dir, none, [], []⟩

/-- The history file can be read and written during all the commands. -/
def HistoryUsable (calls : List (Call Dir)) : Prop :=
  ∀ call ∈ calls, call.files.readable = true ∧ call.files.writable = true

/-- Every path fits into the buffer of `getcwd`. -/
def Fits (visits : List Visit) : Prop := ∀ v ∈ visits, v.path.length < pathSize

def Current (s : State Dir) : Prop :=
  Recordable s.visits → Fits s.visits → s.history.getD [] = (table s.visits).flatMap printEntry

section

variable {fs : Files Dir} {shell_home : Path} {s : State Dir}

/-- The end of an iteration keeps the property, whether a directory was found or not. -/
def Keeps (fs : Files Dir) (P : State Dir → Prop) : Prop :=
  ∀ (x : Frame Dir) now found, P x.state → P (finish fs now (x.enter found)).state

theorem hopArg_keeps {P : State Dir → Prop} (hfinish : Keeps fs P) (arg : Path × ℤ)
    {x : Frame Dir} (h : P x.state) : P (hopArg fs shell_home x arg).state := by
  rw [hopArg_eq]
  cases tried fs shell_home x.state arg.1 with
  | none => exact h
  | some found => exact hfinish (x.saveCwd fs) _ _ h

theorem executeHop_keeps {P : State Dir → Prop} (hfinish : Keeps fs P) (now : ℤ)
    (args : List (Path × ℤ)) (buffers : Buffers) (h : P s) :
    P (executeHop fs shell_home now args buffers s) := by
  unfold executeHop
  dsimp only
  split
  · exact hfinish _ _ _ h
  · exact List.foldlRecOn (motive := fun x : Frame Dir => P x.state) args _ h
      fun _ hx arg _ => hopArg_keeps hfinish arg hx

theorem run_keeps {P : State Dir → Prop} {calls : List (Call Dir)}
    (hfinish : ∀ call ∈ calls, Keeps call.files P) (h : P s) : P (run shell_home calls s) :=
  List.foldlRecOn calls _ h fun _ hs call hcall =>
    executeHop_keeps (hfinish call hcall) call.now call.args call.buffers hs

theorem savedEntries_of_text {visits : List Visit} {history : Option (List Char)}
    (hvisits : Recordable visits)
    (h : history.getD [] = (table visits).flatMap printEntry) :
    savedEntries history = table visits := by
  rw [savedEntries, h, readEntries_printEntry _ hvisits.printable,
    List.take_of_length_le (length_table_le visits)]

theorem allEntries_of_text {visits : List Visit} {history : Option (List Char)}
    (hvisits : Recordable visits)
    (h : history.getD [] = (table visits).flatMap printEntry) :
    allEntries history = table visits := by
  rw [allEntries, h, readEntries_printEntry _ hvisits.printable,
    List.take_of_length_le (length_le_flatMap_printEntry _)]

/-- A hop reads the table, puts the visit into it and prints it again. -/
theorem finish_current (hreadable : fs.readable = true) (hwritable : fs.writable = true) :
    Keeps fs Current := by
  intro x now found h
  cases found with
  | none => exact h
  | some d =>
      rw [finish_enter_some]
      intro hvisits hfits
      have hgetcwd : fs.getcwd d x.buffers.new_cwd = fs.path d :=
        if_pos (hfits ⟨fs.path d, now⟩ (List.mem_append_right _ (List.mem_singleton_self _)))
      have hbefore : Recordable x.state.visits := hvisits.of_concat
      have hsaved : savedEntries x.state.history = table x.state.visits :=
        savedEntries_of_text hbefore
          (h hbefore fun v hv => hfits v (List.mem_append_left _ hv))
      have hcount : x.state.visits.length + 1 < 2 ^ 31 := by
        have hcount := hvisits.count
        rwa [List.length_append] at hcount
      have hstep := visitEntries_table ⟨fs.path d, now⟩ hcount
      simp only [hreadable, hwritable, if_true, Option.getD_some, updateFrecency, hgetcwd,
        hsaved, hstep]

theorem run_current {calls : List (Call Dir)} (hfiles : HistoryUsable calls) (cwd : Dir)
    (prev_dir : Path) : Current (run shell_home calls (start cwd prev_dir)) := by
  apply run_keeps
  · intro call hcall
    exact finish_current (hfiles call hcall).1 (hfiles call hcall).2
  · intro _ _
    rfl

end

/-- Both readers find the table in the history file of every session whose directories have
paths that fit into the buffer. -/
theorem history_holds_table (shell_home : Path) (calls : List (Call Dir)) (cwd : Dir)
    (prev_dir : Path) (hfiles : HistoryUsable calls)
    (hvisits : Recordable (run shell_home calls (start cwd prev_dir)).visits)
    (hfits : Fits (run shell_home calls (start cwd prev_dir)).visits) :
    savedEntries (run shell_home calls (start cwd prev_dir)).history =
        table (run shell_home calls (start cwd prev_dir)).visits ∧
      allEntries (run shell_home calls (start cwd prev_dir)).history =
        table (run shell_home calls (start cwd prev_dir)).visits := by
  have htext := run_current hfiles cwd prev_dir hvisits hfits
  exact ⟨savedEntries_of_text hvisits htext, allEntries_of_text hvisits htext⟩

/-- Every absolute path is a directory. -/
def allDirs : Files Path where
  chdir _ path := if path.head? = some '/' then some path else none
  chdir_nil _ := rfl
  path := id
  access _ := true
  readable := true
  writable := true

/-- `hop /a /b`, then `hop /a`. -/
def threeHops : List (Call Path) :=
  [⟨allDirs, 0, [("/a".toList, 5), ("/b".toList, 6)], ⟨[], []⟩⟩,
    ⟨allDirs, 0, [("/a".toList, 7)], ⟨"/x".toList, "/y".toList⟩⟩]

theorem visits_threeHops : (run "/h".toList threeHops (start "/".toList [])).visits =
    [⟨"/a".toList, 5⟩, ⟨"/b".toList, 6⟩, ⟨"/a".toList, 7⟩] := by
  decide

theorem historyUsable_threeHops : HistoryUsable threeHops := by
  unfold HistoryUsable
  decide

theorem recordable_threeHops :
    Recordable (run "/h".toList threeHops (start "/".toList [])).visits := by
  rw [visits_threeHops]
  exact ⟨by decide, by decide, by decide, by decide⟩

theorem fits_threeHops : Fits (run "/h".toList threeHops (start "/".toList [])).visits := by
  rw [visits_threeHops]
  unfold Fits
  decide

theorem history_after_three_hops :
    savedEntries (run "/h".toList threeHops (start "/".toList [])).history =
        [⟨"/a".toList, 2, 7⟩, ⟨"/b".toList, 1, 6⟩] ∧
      allEntries (run "/h".toList threeHops (start "/".toList [])).history =
        [⟨"/a".toList, 2, 7⟩, ⟨"/b".toList, 1, 6⟩] := by
  have htable : table [⟨"/a".toList, 5⟩, ⟨"/b".toList, 6⟩, ⟨"/a".toList, 7⟩] =
      [⟨"/a".toList, 2, 7⟩, ⟨"/b".toList, 1, 6⟩] := by decide
  rw [← htable, ← visits_threeHops]
  exact history_holds_table _ _ _ _ historyUsable_threeHops recordable_threeHops fits_threeHops

/-! ### Deep directories -/

/-- Every path is a directory; the system takes paths of less than `pathSize` bytes. -/
def deepDirs : Files Path where
  chdir cwd path :=
    if path = [] ∨ pathSize ≤ path.length then none
    else if path.head? = some '/' then some path
    else some (cwd ++ '/' :: path)
  chdir_nil _ := rfl
  path := id
  access path := path.length < pathSize
  readable := true
  writable := true

def longName : Path := List.replicate 199 'a'

def deepDir : Path := (List.replicate 20 ('/' :: longName)).flatten

/-- `/x` is left in `new_cwd` from an earlier call. -/
def deepHop : List (Call Path) := [⟨deepDirs, 0, [(longName, 5)], ⟨[], "/x".toList⟩⟩]

theorem length_longName : longName.length = 199 := List.length_replicate

theorem length_deepDir : (deepDir ++ '/' :: longName).length = 4200 := by
  simp only [deepDir, List.length_append, List.length_cons, List.length_flatten,
    List.map_replicate, List.sum_replicate_nat, length_longName]

theorem mem_deepDir {c : Char} (h : c ∈ deepDir ++ '/' :: longName) : c = '/' ∨ c = 'a' := by
  have hname : c ∈ '/' :: longName → c = '/' ∨ c = 'a' := fun hc =>
    (List.mem_cons.mp hc).imp_right List.eq_of_mem_replicate
  rcases List.mem_append.mp h with hdir | hc
  · obtain ⟨level, hlevel, hc⟩ := List.mem_flatten.mp hdir
    exact hname (List.eq_of_mem_replicate hlevel ▸ hc)
  · exact hname hc

theorem run_deepHop :
    run "/h".toList deepHop (start deepDir []) =
      (finish deepDirs 5 ((Frame.saveCwd deepDirs
        ⟨start deepDir [], ⟨[], "/x".toList⟩, true⟩).enter
          (some (deepDir ++ '/' :: longName)))).state := by
  have hchdir : deepDirs.chdir deepDir longName = some (deepDir ++ '/' :: longName) := by
    simp only [deepDirs, length_longName]
    rw [if_neg (by decide), if_neg (by decide)]
  have htried : tried deepDirs "/h".toList (start deepDir []) longName =
      some (some (deepDir ++ '/' :: longName)) := by
    rw [tried, if_neg (by decide), if_neg (by decide), if_neg (by decide), findDir]
    simp only [start, hchdir]
  rw [run, deepHop, List.foldl_cons, List.foldl_nil, executeHop_of_ne_nil _ (List.cons_ne_nil _ _),
    List.foldl_cons, List.foldl_nil, hopArg_eq]
  dsimp only
  rw [htried, Option.elim_some]

theorem visits_deepHop :
    (run "/h".toList deepHop (start deepDir [])).visits = [⟨deepDir ++ '/' :: longName, 5⟩] := by
  rw [run_deepHop]
  rfl

/-- `getcwd` fails, and whatever the buffer holds is recorded. -/
theorem history_deepHop :
    (run "/h".toList deepHop (start deepDir [])).history =
      some (updateFrecency none "/x".toList 5) := by
  have hgetcwd : deepDirs.getcwd (deepDir ++ '/' :: longName) "/x".toList = "/x".toList := by
    apply if_neg
    show ¬(deepDir ++ '/' :: longName).length < pathSize
    rw [length_deepDir]
    decide
  rw [run_deepHop, finish_enter_some]
  simp only [Frame.saveCwd, hgetcwd]
  rfl

/-- The new directory has a path of 4200 bytes, and another path is in the history. -/
theorem deep_directory_not_recorded :
    HistoryUsable deepHop ∧
      Recordable (run "/h".toList deepHop (start deepDir [])).visits ∧
      savedEntries (run "/h".toList deepHop (start deepDir [])).history ≠
        table (run "/h".toList deepHop (start deepDir [])).visits := by
  rw [visits_deepHop, history_deepHop]
  refine ⟨?_, ⟨?_, ?_, by simp, by decide⟩, ?_⟩
  · unfold HistoryUsable
    decide
  · intro v hv
    rw [List.mem_singleton.mp hv]
    rfl
  · intro v hv hline
    rw [List.mem_singleton.mp hv] at hline
    rcases mem_deepDir hline with heq | heq <;> cases heq
  · have hsaved : savedEntries (some (updateFrecency none "/x".toList 5)) =
        [⟨"/x".toList, 1, 5⟩] := by decide
    rw [hsaved]
    intro heq
    have hpath : "/x".toList = deepDir ++ '/' :: longName :=
      congrArg FrecencyEntry.path (List.cons.inj heq).1
    have hlen := congrArg List.length hpath
    rw [length_deepDir] at hlen
    cases hlen

/-! ## Finding a directory again -/

/-- The last directory is found by each string that is in its path and in no other path of a
directory that exists. -/
def FindsLast (isDir access : Path → Bool) (s : State Dir) (target : Path) : Prop :=
  ∀ v, s.visits.getLast? = some v → target <:+: v.path → isDir v.path = true →
    (∀ u ∈ s.visits, target <:+: u.path → isDir u.path = true → u.path = v.path) →
    searchFrecency access s.history target = some v.path

theorem searchFrecency_eq_some {access : Path → Bool} {target d : Path}
    {entries : List FrecencyEntry} {history : Option (List Char)}
    (hentries : allEntries history = entries) (hscore : ∀ e ∈ entries, 0 ≤ score e)
    (hd : d ∈ entries.map FrecencyEntry.path) (hsub : target <:+: d) (hex : access d = true)
    (honly : ∀ e ∈ entries, target <:+: e.path → access e.path = true → e.path = d) :
    searchFrecency access history target = some d := by
  subst hentries
  obtain ⟨e, he, rfl⟩ := List.mem_map.mp hd
  obtain ⟨before, w, after, hcut, hmatch, -, -, hfound⟩ :=
    searchFrecency_first_best (fun e he _ => hscore e he) ⟨e, he, hsub, hex⟩
  have hw : w ∈ allEntries history := by
    rw [hcut]
    exact List.mem_append_right _ List.mem_cons_self
  rw [hfound, honly w hw hmatch.1 hmatch.2]

/-- A score is not negative while the clock shows less than `2 ^ 62`. -/
theorem score_nonneg {visits : List Visit} (hvisits : Recordable visits)
    (htime : ∀ v ∈ visits, v.time < 2 ^ 62) :
    ∀ e ∈ table visits, 0 ≤ score e := by
  intro e he
  have hfreq := (hvisits.printable e he).frequency
  have hrec := (hvisits.printable e he).recency.1
  have hlate : e.recency < 2 ^ 62 := by
    obtain ⟨path, hpath, rfl⟩ := List.mem_map.mp he
    obtain ⟨u, hu, hlast⟩ := lastTime_spec (mem_of_mem_kept hpath)
    simp only [summary, hlast]
    exact htime u hu
  rw [score, Int.bmod_eq_of_le_mul_two (by omega) (by omega)]
  omega

/-- A directory that has a row is found by each string that is in its path and in no other
path that exists. -/
theorem search_finds_visited (shell_home : Path) (calls : List (Call Dir)) (cwd : Dir)
    (prev_dir : Path) (hfiles : HistoryUsable calls)
    (hvisits : Recordable (run shell_home calls (start cwd prev_dir)).visits)
    (hfits : Fits (run shell_home calls (start cwd prev_dir)).visits)
    (htime : ∀ v ∈ (run shell_home calls (start cwd prev_dir)).visits, v.time < 2 ^ 62)
    (access : Path → Bool) (target d : Path)
    (hd : d ∈ kept Visit.path maxEntries (run shell_home calls (start cwd prev_dir)).visits)
    (hsub : target <:+: d) (hex : access d = true)
    (honly : ∀ v ∈ (run shell_home calls (start cwd prev_dir)).visits,
      target <:+: v.path → access v.path = true → v.path = d) :
    searchFrecency access (run shell_home calls (start cwd prev_dir)).history target =
      some d := by
  have htext := run_current hfiles cwd prev_dir hvisits hfits
  apply searchFrecency_eq_some (allEntries_of_text hvisits htext) (score_nonneg hvisits htime) _
    hsub hex
  · intro e he
    obtain ⟨path, hpath, rfl⟩ := List.mem_map.mp he
    obtain ⟨v, hv, rfl⟩ := mem_of_mem_kept hpath
    exact honly v hv
  · rw [table, List.map_map]
    exact List.mem_map.mpr ⟨d, hd, rfl⟩

/-- After `hop /a /b` and `hop /a`, the string `a` leads to `/a`. -/
theorem search_finds_a :
    searchFrecency (fun _ => true) (run "/h".toList threeHops (start "/".toList [])).history
      "a".toList = some "/a".toList := by
  apply search_finds_visited _ _ _ _ historyUsable_threeHops recordable_threeHops fits_threeHops
  · rw [visits_threeHops]
    decide
  · rw [visits_threeHops]
    decide
  · decide
  · rfl
  · rw [visits_threeHops]
    decide

/-! ### Directories that are not found -/

def level (k : ℕ) : Path := '/' :: List.replicate (k + 1) 'a'

/-- `hop /a /aa /aaa …`, one directory more than the table has rows. -/
def manyHops : List (Call Path) :=
  [⟨allDirs, 0, (List.range (maxEntries + 1)).map fun k => (level k, 0), ⟨[], []⟩⟩]

theorem length_level (k : ℕ) : (level k).length = k + 2 := by
  rw [level, List.length_cons, List.length_replicate]

theorem level_injective : Function.Injective level := by
  intro j k h
  have hlen := congrArg List.length h
  rw [length_level, length_level] at hlen
  omega

theorem tried_level (shell_home : Path) (s : State Path) (k : ℕ) :
    tried allDirs shell_home s (level k) = some (some (level k)) := by
  have hne : ∀ c, level k ≠ [c] := by
    intro c heq
    have hlen := congrArg List.length heq
    rw [length_level, List.length_singleton] at hlen
    omega
  rw [tried, if_neg (hne _), if_neg (hne _), if_neg (hne _)]
  rfl

theorem visits_levels (shell_home : Path) (ks : List ℕ) (x : Frame Path) :
    ((ks.map fun k => (level k, (0 : ℤ))).foldl (hopArg allDirs shell_home) x).state.visits =
      x.state.visits ++ ks.map fun k => ⟨level k, 0⟩ := by
  induction ks generalizing x with
  | nil => exact (List.append_nil _).symm
  | cons k ks ih =>
      rw [List.map_cons, List.foldl_cons, ih, List.map_cons, hopArg_eq, tried_level,
        Option.elim_some, finish_enter_some, List.append_assoc]
      rfl

theorem visits_manyHops :
    (run "/h".toList manyHops (start "/".toList [])).visits =
      (List.range (maxEntries + 1)).map fun k => ⟨level k, 0⟩ := by
  rw [run, manyHops, List.foldl_cons, List.foldl_nil, executeHop_of_ne_nil _ (by decide),
    visits_levels]
  rfl

theorem kept_manyHops :
    kept Visit.path maxEntries (run "/h".toList manyHops (start "/".toList [])).visits =
      (List.range maxEntries).map level := by
  have hmap : ((List.range (maxEntries + 1)).map fun k => (⟨level k, 0⟩ : Visit)).map Visit.path =
      (List.range (maxEntries + 1)).map level := List.map_map
  rw [visits_manyHops, kept, keys_of_nodup, hmap, ← List.map_take, List.take_range]
  · rfl
  · rw [hmap]
    exact List.nodup_range.map level_injective

theorem recordable_manyHops :
    Recordable (run "/h".toList manyHops (start "/".toList [])).visits := by
  rw [visits_manyHops]
  refine ⟨?_, ?_, ?_, ?_⟩
  · intro v hv
    obtain ⟨k, -, rfl⟩ := List.mem_map.mp hv
    rfl
  · intro v hv hline
    obtain ⟨k, -, rfl⟩ := List.mem_map.mp hv
    rcases List.mem_cons.mp hline with heq | hmem
    · cases heq
    · cases List.eq_of_mem_replicate hmem
  · intro v hv
    obtain ⟨k, -, rfl⟩ := List.mem_map.mp hv
    exact ⟨Int.le_refl 0, show (0 : ℤ) < 2 ^ 63 by decide⟩
  · rw [List.length_map, List.length_range]
    decide

theorem fits_manyHops : Fits (run "/h".toList manyHops (start "/".toList [])).visits := by
  rw [visits_manyHops]
  intro v hv
  obtain ⟨k, hk, rfl⟩ := List.mem_map.mp hv
  have hlt := List.mem_range.mp hk
  simp only [length_level, pathSize, maxEntries] at hlt ⊢
  omega

theorem historyUsable_manyHops : HistoryUsable manyHops := by
  intro call hcall
  rw [List.mem_singleton.mp hcall]
  exact ⟨rfl, rfl⟩

theorem search_manyHops :
    searchFrecency (fun _ => true) (run "/h".toList manyHops (start "/".toList [])).history
      (level maxEntries) = none := by
  have htext := run_current historyUsable_manyHops _ _ recordable_manyHops fits_manyHops
  apply searchFrecency_eq_none
  rw [allEntries_of_text recordable_manyHops htext]
  rintro e he ⟨hsub, -⟩
  obtain ⟨path, hpath, rfl⟩ := List.mem_map.mp he
  rw [kept_manyHops] at hpath
  obtain ⟨k, hk, rfl⟩ := List.mem_map.mp hpath
  have hlen := hsub.length_le
  have hlt := List.mem_range.mp hk
  simp only [summary, length_level] at hlen
  omega

theorem not_findsLast_manyHops :
    ¬FindsLast (fun _ => true) (fun _ => true)
      (run "/h".toList manyHops (start "/".toList [])) (level maxEntries) := by
  intro h
  have hfound := h ⟨level maxEntries, 0⟩ (by rw [visits_manyHops]; rfl) (List.infix_refl _) rfl
    (by
      rw [visits_manyHops]
      intro u hu hsub _
      obtain ⟨k, hk, rfl⟩ := List.mem_map.mp hu
      have hlen := hsub.length_le
      have hlt := List.mem_range.mp hk
      simp only [length_level] at hlen
      rw [show k = maxEntries by omega])
  rw [search_manyHops] at hfound
  cases hfound

theorem not_findsLast_deepHop :
    ¬FindsLast (fun _ => true) (fun _ => true) (run "/h".toList deepHop (start deepDir []))
      longName := by
  intro h
  have hfound := h ⟨deepDir ++ '/' :: longName, 5⟩ (by rw [visits_deepHop]; rfl)
    ⟨deepDir ++ ['/'], [], by simp⟩ rfl
    (by
      rw [visits_deepHop]
      intro u hu _ _
      rw [List.mem_singleton.mp hu])
  have hentries : allEntries (some (updateFrecency none "/x".toList 5)) =
      [⟨"/x".toList, 1, 5⟩] := by decide
  rw [history_deepHop, searchFrecency_eq_none] at hfound
  · cases hfound
  · rw [hentries]
    rintro e he ⟨hsub, -⟩
    rw [List.mem_singleton.mp he] at hsub
    have hlen := hsub.length_le
    rw [length_longName] at hlen
    exact absurd hlen (by decide)

def hops (fs : Files Path) (args : List (Path × ℤ)) : State Path :=
  run "/h".toList [⟨fs, 0, args, ⟨[], []⟩⟩] (start "/".toList [])

/-- The directory is not found if the table is full, and also if its path has two lines, if
the clock shows a time long before 1970, if something else is now where another directory
was, if the path does not fit into the buffer, and if the history cannot be written. -/
theorem last_directory_not_found :
    ¬FindsLast (fun _ => true) (fun _ => true)
        (run "/h".toList manyHops (start "/".toList [])) (level maxEntries) ∧
      ¬FindsLast (fun _ => true) (fun _ => true) (hops allDirs [("/a\nb".toList, 0)])
        "b".toList ∧
      ¬FindsLast (fun _ => true) (fun _ => true) (hops allDirs [("/a".toList, -100000000)])
        "a".toList ∧
      ¬FindsLast (fun path => path = "/a".toList) (fun _ => true)
        (hops allDirs [("/ab".toList, 0), ("/ab".toList, 0), ("/a".toList, 0)]) "a".toList ∧
      ¬FindsLast (fun _ => true) (fun _ => true) (run "/h".toList deepHop (start deepDir []))
        longName ∧
      ¬FindsLast (fun _ => true) (fun _ => true)
        (hops { allDirs with writable := false } [("/a".toList, 0)]) "a".toList := by
  refine ⟨not_findsLast_manyHops, ?_, ?_, ?_, not_findsLast_deepHop, ?_⟩
  · intro h
    exact absurd (h ⟨"/a\nb".toList, 0⟩ (by decide) (by decide) rfl (by decide)) (by decide)
  · intro h
    exact absurd (h ⟨"/a".toList, -100000000⟩ (by decide) (by decide) rfl (by decide))
      (by decide)
  · intro h
    exact absurd (h ⟨"/a".toList, 0⟩ (by decide) (by decide) (by decide) (by decide)) (by decide)
  · intro h
    exact absurd (h ⟨"/a".toList, 0⟩ (by decide) (by decide) rfl (by decide)) (by decide)

end ShellXv6.Shell.Hop
