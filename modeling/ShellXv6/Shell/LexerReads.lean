import ShellXv6.Shell.QuoteStatus

/-!
# Where the lexer reads and writes

Every iteration of `lexer` reads the character at `curr_char`, in three places also the one
behind it, and writes at most two characters or a NUL to `buffer`.  The trace lists these
indices and tells whether the loop has been left.  It stops at a read outside of the line and
at a write outside of `buffer`, as nothing is known about the program from there on.
-/

namespace ShellXv6.Shell

open Lexer IntConversion

/-- The line with its NUL. -/
def InLine (line : List Char) (i : ℤ) : Prop := 0 ≤ i ∧ i ≤ line.length

namespace Lexer

structure Trace where
  reads : List ℤ
  writes : List ℕ
  ended : Bool

def Trace.after (reads : List ℤ) (writes : List ℕ) (rest : Trace) : Trace :=
  ⟨reads ++ rest.reads, writes ++ rest.writes, rest.ended⟩

/-- The indices of the line that an iteration reads. -/
def readsHere (line : List Char) (v : Vars) : List ℤ :=
  v.curr_char :: match charAt line v.curr_char with
    | some c => if looksAhead v.curr_state c then [(v.advance 1).curr_char] else []
    | none => []

def writesOf (v : Vars) : Action → List ℕ
  | .put _ cs _ => List.range' v.buffer.length cs.length
  | .endWord => [v.buffer.length]
  | _ => []

/-- The indices of `buffer` that an iteration writes. -/
def writesHere (line : List Char) (v : Vars) : List ℕ :=
  match chars line v with
  | some (c, next_char) => writesOf v (action v.curr_state c next_char)
  | none => []

/-- The NUL behind a word after the loop. -/
def finishWrites (v : Vars) : List ℕ :=
  if v.curr_state = .IN_WORD ∧ 0 < v.buffer.length then [v.buffer.length] else []

def trace (line : List Char) : ℕ → Vars → Trace
  | 0, _ => ⟨[], [], false⟩
  | fuel + 1, v =>
      .after (readsHere line v) (writesHere line v) <|
        match iterate line v with
        | .left w => ⟨[], finishWrites w, true⟩
        | .again w => trace line fuel w
        | .undefined => ⟨[], [], false⟩

end Lexer

/-- The loop ends, and all reads are in the line or at its NUL. -/
def ReadsBounded (line : List Char) : Prop :=
  ∃ fuel, (trace line fuel start).ended = true ∧
    ∀ i ∈ (trace line fuel start).reads, InLine line i

/-- The loop ends, and all writes are in `buffer`. -/
def WritesBounded (line : List Char) : Prop :=
  ∃ fuel, (trace line fuel start).ended = true ∧
    ∀ i ∈ (trace line fuel start).writes, i < bufferSize

/-! ## Iterations that are defined -/

section

variable {line : List Char} {v w : Vars}

theorem inLine_of_charAt {i : ℤ} {c : Char} (h : charAt line i = some c) : InLine line i := by
  unfold charAt at h
  split_ifs at h with hin
  exact hin

theorem readsHere_inLine {c d : Char} (h : chars line v = some (c, d)) :
    ∀ i ∈ readsHere line v, InLine line i := by
  obtain ⟨hc, hd⟩ := chars_eq_some h
  rw [readsHere, hc, List.forall_mem_cons]
  refine ⟨inLine_of_charAt hc, fun i hi => ?_⟩
  dsimp only at hi
  split_ifs at hi with hlook
  · rw [List.mem_singleton.mp hi]
    exact inLine_of_charAt (hd hlook)
  · exact absurd hi List.not_mem_nil

theorem writesOf_lt {a : Action} (h : perform v a ≠ .undefined) :
    ∀ i ∈ writesOf v a, i < bufferSize := by
  intro i hi
  cases a with
  | put s cs n =>
      have hroom : v.buffer.length + cs.length ≤ bufferSize := by
        by_contra hroom
        exact h (if_neg hroom)
      have hlt := (List.mem_range'_1.mp hi).2
      omega
  | endWord =>
      have hroom : v.buffer.length < bufferSize := by
        by_contra hroom
        exact h (if_neg hroom)
      rwa [List.mem_singleton.mp hi]
  | stop => cases hi
  | fail => cases hi
  | goto s => cases hi
  | append content type n => cases hi

/-- An iteration that is not lost stays within its bounds. -/
theorem iterate_bounded (h : iterate line v ≠ .undefined) :
    (∀ i ∈ readsHere line v, InLine line i) ∧ ∀ i ∈ writesHere line v, i < bufferSize := by
  cases hchars : chars line v with
  | none =>
      rw [iterate, hchars] at h
      exact absurd rfl h
  | some x =>
      obtain ⟨c, d⟩ := x
      rw [iterate, hchars] at h
      rw [writesHere, hchars]
      exact ⟨readsHere_inLine hchars, writesOf_lt h⟩

/-- The loop is not left inside a word. -/
theorem curr_state_left (h : iterate line v = .left w) : w.curr_state ≠ .IN_WORD := by
  obtain ⟨c, d, -, hact⟩ := iterate_left h
  rcases hact with ⟨hstop, rfl⟩ | ⟨hfail, rfl⟩
  · rw [(action_stop hstop).1]
    decide
  · exact (action_fail hfail).2

theorem finish_isSome (h : w.curr_state ≠ .IN_WORD) : (finish w).isSome = true := by
  rw [finish, if_neg fun hword => h hword.1]
  split_ifs <;> rfl

theorem trace_ended (fuel : ℕ) (v : Vars) :
    (trace line fuel v).ended = (loop line fuel v).isSome := by
  induction fuel generalizing v with
  | zero => rfl
  | succ fuel ih =>
      rw [trace, loop]
      cases hit : iterate line v with
      | left w => exact (finish_isSome (curr_state_left hit)).symm
      | again w => exact ih w
      | undefined => rfl

theorem trace_bounded (fuel : ℕ) (v : Vars) (h : (trace line fuel v).ended = true) :
    (∀ i ∈ (trace line fuel v).reads, InLine line i) ∧
      ∀ i ∈ (trace line fuel v).writes, i < bufferSize := by
  induction fuel generalizing v with
  | zero => cases h
  | succ fuel ih =>
      rw [trace] at h ⊢
      have hhere : iterate line v ≠ .undefined := by
        intro hit
        rw [hit] at h
        cases h
      obtain ⟨hreads, hwrites⟩ := iterate_bounded hhere
      simp only [Trace.after, List.forall_mem_append]
      cases hit : iterate line v with
      | left w =>
          have hnone : finishWrites w = [] := if_neg fun hword => curr_state_left hit hword.1
          simp only [hnone]
          exact ⟨⟨hreads, List.forall_mem_nil _⟩, hwrites, List.forall_mem_nil _⟩
      | again w =>
          rw [hit] at h
          obtain ⟨hr, hw⟩ := ih w h
          exact ⟨⟨hreads, hr⟩, hwrites, hw⟩
      | undefined => exact absurd hit hhere

theorem loop_isSome_mono {fuel fuel' : ℕ} (hle : fuel ≤ fuel')
    (h : (loop line fuel v).isSome = true) : (loop line fuel' v).isSome = true := by
  induction fuel generalizing fuel' v with
  | zero => cases h
  | succ fuel ih =>
      obtain ⟨fuel', rfl⟩ : ∃ k, fuel' = k + 1 := ⟨fuel' - 1, by omega⟩
      rw [loop] at h ⊢
      cases hit : iterate line v with
      | left w => simpa only [hit] using h
      | again w =>
          rw [hit] at h
          exact ih (Nat.le_of_succ_le_succ hle) h
      | undefined =>
          rw [hit] at h
          cases h

end

/-! ## The bounds -/

/-- The loop is left just when the lexer has a result. -/
theorem ended_iff (line : List Char) : (∃ fuel, (trace line fuel start).ended = true) ↔
    WordsFit (beforeNul line) ∧ (beforeNul line).length < 2 ^ 31 := by
  rw [← lexer_isSome_iff]
  simp only [trace_ended]
  refine ⟨fun ⟨fuel, hsome⟩ => ?_, fun hsome => ⟨_, hsome⟩⟩
  by_cases hm : (beforeNul line).length < 2 ^ 31
  · have hmore := loop_isSome_mono (Nat.le_add_right fuel (2 * line.length + 2)) hsome
    have hwork : work line start.curr_state 0 ≤ 2 * line.length + 2 := by simp [work, start]
    rw [loop_eq_scan hm _ start 0 rfl (Nat.zero_le _) rfl (by omega), Option.isSome_map] at hmore
    rw [lexer_eq_scan hm]
    exact hmore
  · rw [loop_eq_none (Nat.le_of_not_lt hm) fuel (by decide)] at hsome
    cases hsome

theorem readsBounded_iff (line : List Char) : ReadsBounded line ↔
    WordsFit (beforeNul line) ∧ (beforeNul line).length < 2 ^ 31 := by
  rw [← ended_iff]
  exact exists_congr fun fuel => and_iff_left_of_imp fun h => (trace_bounded fuel start h).1

theorem writesBounded_iff (line : List Char) : WritesBounded line ↔
    WordsFit (beforeNul line) ∧ (beforeNul line).length < 2 ^ 31 := by
  rw [← ended_iff]
  exact exists_congr fun fuel => and_iff_left_of_imp fun h => (trace_bounded fuel start h).2

/-- Every line that fits the two limits is read up to its NUL and not beyond. -/
theorem reads_bounded_iff {line : List Char} (hnul : nul ∉ line) :
    ReadsBounded line ↔ WordsFit line ∧ line.length < 2 ^ 31 := by
  rw [readsBounded_iff, beforeNul_eq_self hnul]

theorem reads_bounded_redirect :
    nul ∉ "a>>\"\\\"\"<".toList ∧ ReadsBounded "a>>\"\\\"\"<".toList :=
  ⟨by decide, (reads_bounded_iff (by decide)).mpr ⟨by decide, by decide⟩⟩

/-! ## Lines that are too long -/

theorem charAt_blanks {n k : ℕ} (hk : k < n) : charAt (List.replicate n ' ') k = some ' ' := by
  obtain ⟨d, hd⟩ : ∃ d, n - k = d + 1 := ⟨n - k - 1, by omega⟩
  rw [charAt_natCast (by rw [List.length_replicate]; omega), List.drop_replicate, hd]
  rfl

theorem iterate_blanks {n k : ℕ} (hk : k < n) :
    iterate (List.replicate n ' ') ⟨.START, k, [], [], true⟩ =
      .again ⟨.START, toInt (k + 1 : ℕ), [], [], true⟩ := by
  simp [iterate, chars, charAt_blanks hk, nextChar, looksAhead, action, isBlank, nul, perform,
    Vars.advance]

theorem curr_char_mem_reads (line : List Char) (fuel : ℕ) (v : Vars) :
    v.curr_char ∈ (trace line (fuel + 1) v).reads := by
  rw [trace]
  exact List.mem_append_left _ List.mem_cons_self

theorem reads_again {line : List Char} {v w : Vars} (h : iterate line v = .again w) (fuel : ℕ)
    {i : ℤ} (hi : i ∈ (trace line fuel w).reads) : i ∈ (trace line (fuel + 1) v).reads := by
  rw [trace, h]
  exact List.mem_append_right _ hi

/-- Blanks bring `curr_char` to `2 ^ 31`, which is negative. -/
theorem reads_blanks {n : ℕ} (hn : 2 ^ 31 ≤ n) (m k : ℕ) (hk : k + m + 1 = 2 ^ 31) :
    ∃ i ∈ (trace (List.replicate n ' ') (m + 2) ⟨.START, k, [], [], true⟩).reads, i < 0 := by
  induction m generalizing k with
  | zero =>
      have hread := curr_char_mem_reads (List.replicate n ' ') 0
        ⟨.START, toInt (k + 1 : ℕ), [], [], true⟩
      have hneg : toInt (k + 1 : ℕ) < 0 := toInt_neg (by omega) (by omega)
      have hstep := iterate_blanks (n := n) (k := k) (by omega)
      dsimp only at hread
      exact ⟨_, reads_again hstep (0 + 1) hread, hneg⟩
  | succ m ih =>
      obtain ⟨i, hi, hneg⟩ := ih (k + 1) (by omega)
      have hstep := iterate_blanks (n := n) (k := k) (by omega)
      rw [toInt_of_lt (by omega)] at hstep
      exact ⟨i, reads_again hstep (m + 2) hi, hneg⟩

/-- `2 ^ 31` blanks are read at a negative index; a word of 4097 letters is written behind
the buffer. -/
theorem reads_unbounded :
    (nul ∉ List.replicate (2 ^ 31) ' ' ∧ ¬ReadsBounded (List.replicate (2 ^ 31) ' ') ∧
      ∃ i ∈ (trace (List.replicate (2 ^ 31) ' ') (2 ^ 31 + 1) start).reads, i < 0) ∧
    nul ∉ List.replicate 4097 'a' ∧ ¬ReadsBounded (List.replicate 4097 'a') := by
  have hblanks : nul ∉ List.replicate (2 ^ 31) ' ' := fun h =>
    absurd (List.eq_of_mem_replicate h) (by decide)
  have hletters : nul ∉ List.replicate 4097 'a' := fun h =>
    absurd (List.eq_of_mem_replicate h) (by decide)
  have hreads := reads_blanks (Nat.le_refl (2 ^ 31)) (2 ^ 31 - 1) 0 (by omega)
  have hfuel : 2 ^ 31 - 1 + 2 = 2 ^ 31 + 1 := by omega
  rw [hfuel] at hreads
  refine ⟨⟨hblanks, ?_, hreads⟩, hletters, ?_⟩
  · rw [reads_bounded_iff hblanks, List.length_replicate]
    exact fun h => Nat.lt_irrefl _ h.2
  · rw [reads_bounded_iff hletters]
    exact fun h => not_wordsFit_letters (n := 4096) (by decide) h.1

/-! ## Lines that `getline` returns -/

/-- `line[strcspn(line, "\n")] = '\0'` -/
def cutNewline (line : List Char) : List Char :=
  line.set (line.takeWhile fun c => c != nul && c != '\n').length nul

theorem beforeNul_cutNewline {line : List Char} (h : ∀ c ∈ line, c ≠ nul ∧ c ≠ '\n') :
    beforeNul (cutNewline (line ++ ['\n'])) = line := by
  have htake : (line ++ ['\n']).takeWhile (fun c => c != nul && c != '\n') = line := by
    rw [List.takeWhile_append_of_pos (by simpa using h)]
    simp
  rw [cutNewline, htake, List.set_append_right _ _ (Nat.le_refl _), Nat.sub_self,
    List.set_cons_zero, beforeNul,
    List.takeWhile_append_of_pos (fun c hc => bne_iff_ne.mpr (h c hc).1)]
  simp

/-- The lexer stays inside `buffer[4096]` just when every word takes at most that many
bytes and the line can be indexed by an `int`. -/
theorem buffer_indices_lt_iff (line : List Char) : WritesBounded (cutNewline line) ↔
    WordsFit (beforeNul (cutNewline line)) ∧ (beforeNul (cutNewline line)).length < 2 ^ 31 :=
  writesBounded_iff (cutNewline line)

theorem writesHere_eq {line : List Char} (hm : (beforeNul line).length < 2 ^ 31) {v : Vars} {i : ℕ}
    (hv : v.curr_char = i) (hi : i ≤ (beforeNul line).length) :
    writesHere line v = writesOf v
      (action v.curr_state ((line.drop i).headD nul) ((line.drop i).tail.headD nul)) := by
  rw [writesHere, chars_eq hm hv hi]
  by_cases hlook : looksAhead v.curr_state ((line.drop i).headD nul) = true
  · simp only [if_pos hlook]
  · simp only [if_neg hlook]
    rw [action_of_not_looksAhead (Bool.eq_false_iff.mpr hlook)]

/-- In a line that can be indexed nothing but a write can go wrong. -/
theorem ended_of_writes {line : List Char} (hm : (beforeNul line).length < 2 ^ 31) (fuel : ℕ)
    (v : Vars) (i : ℕ) (hv : v.curr_char = i) (hi : i ≤ (beforeNul line).length)
    (hbuffer : v.buffer.length ≤ bufferSize) (hfuel : work line v.curr_state i ≤ fuel)
    (h : ∀ j ∈ (trace line fuel v).writes, j < bufferSize) :
    (trace line fuel v).ended = true := by
  induction fuel generalizing v i with
  | zero => exact absurd (work_pos line v.curr_state i) (by omega)
  | succ fuel ih =>
      rw [trace, iterate_eq hm hv hi] at h ⊢
      obtain ⟨hhere, hrest⟩ := List.forall_mem_append.mp h
      rw [writesHere_eq hm hv hi] at hhere
      cases hact : action v.curr_state ((line.drop i).headD nul)
          ((line.drop i).tail.headD nul) with
      | stop => rfl
      | fail => rfl
      | goto s =>
          rw [hact] at hrest
          have hn := add_le_length hi (action_goto hact) (.inl rfl)
          exact ih _ (i + 1) (curr_char_advance hm hv hn) hn hbuffer
            (work_le Nat.one_pos hn hfuel) hrest
      | append content type n =>
          rw [hact] at hrest
          obtain ⟨hne, hsteps⟩ := action_append hact
          have hn := add_le_length hi hne hsteps
          exact ih _ (i + n) (curr_char_advance hm hv hn) hn hbuffer
            (work_le hsteps.pos hn hfuel) hrest
      | put s cs n =>
          rw [hact] at hhere hrest
          obtain ⟨hne, hsteps⟩ := action_put hact
          have hn := add_le_length hi hne hsteps
          have hroom : v.buffer.length + cs.length ≤ bufferSize := by
            by_contra hroom
            -- the first byte behind the buffer is among those written
            have hlast := hhere bufferSize (List.mem_range'_1.mpr ⟨hbuffer, by omega⟩)
            exact Nat.lt_irrefl _ hlast
          simp only [perform, if_pos hroom] at hrest ⊢
          exact ih _ (i + n) (curr_char_advance hm hv hn) hn (by simpa using hroom)
            (work_le hsteps.pos hn hfuel) hrest
      | endWord =>
          rw [hact] at hhere hrest
          have hst := action_endWord hact
          have hroom : v.buffer.length < bufferSize := hhere _ (List.mem_singleton_self _)
          simp only [perform, if_pos hroom] at hrest ⊢
          exact ih _ i hv hi (Nat.zero_le _) (by simp [work, hst] at hfuel ⊢; omega) hrest

/-- A word of 4096 letters: its NUL is written behind the buffer. -/
theorem buffer_index_out_of_bounds :
    ¬WritesBounded (cutNewline (List.replicate 4096 'a' ++ ['\n'])) ∧
      ∃ fuel, ∃ i ∈ (trace (cutNewline (List.replicate 4096 'a' ++ ['\n'])) fuel start).writes,
        bufferSize ≤ i := by
  have hline : ∀ c ∈ List.replicate 4096 'a', c ≠ nul ∧ c ≠ '\n' := by
    intro c hc
    rw [List.eq_of_mem_replicate hc]
    decide
  have hletters := beforeNul_cutNewline hline
  have hnot : ¬WritesBounded (cutNewline (List.replicate 4096 'a' ++ ['\n'])) := by
    rw [buffer_indices_lt_iff, hletters]
    exact fun h => not_wordsFit_letters (n := 4095) (Nat.le_refl _) h.1
  have hm : (beforeNul (cutNewline (List.replicate 4096 'a' ++ ['\n']))).length < 2 ^ 31 := by
    rw [hletters, List.length_replicate]
    decide
  generalize cutNewline (List.replicate 4096 'a' ++ ['\n']) = line at hnot hm ⊢
  refine ⟨hnot, work line .START 0, ?_⟩
  by_contra hnone
  have hall : ∀ j ∈ (trace line (work line .START 0) start).writes, j < bufferSize :=
    fun j hj => Nat.lt_of_not_le fun hle => hnone ⟨j, hj, hle⟩
  have hended := ended_of_writes hm _ start 0 rfl (Nat.zero_le _) (Nat.zero_le _) (Nat.le_refl _)
    hall
  exact hnot ⟨_, hended, hall⟩

end ShellXv6.Shell
