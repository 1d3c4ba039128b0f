import ShellXv6.Shell.ReadLoop

/-!
# Two ends of file in a row

With stopped jobs the first end of file gives a warning, and only another one right after
it leaves the loop.  `ctrl_d_count` remembers the first.  A line sets it back if it has
more than one byte or is a newline, so one byte without a newline is forgotten.
-/

namespace ShellXv6.Shell.ReadLoop

def Read.isInterruption : Read → Bool
  | .failed e => e = eintr
  | _ => false

/-- `getline` gives no line and was not interrupted. -/
def Read.isEnd : Read → Bool
  | .line _ _ => false
  | .failed e => e ≠ eintr
  | .eof => true

/-- The last line of an input that does not end with a newline, if it has one byte. -/
def Read.isLoneByte : Read → Bool
  | .line c [] => c ≠ '\n'
  | _ => false

/-- Keep what has been read, the newest first. -/
def note (_ : State) : Event → List Read → List Read
  | .iterate r _, past => r :: past
  | _, past => past

/-- At the end of the file `errno` is not left behind by an interruption. -/
def Honest (s : State) : Event → Prop
  | .iterate .eof _ => (displayPrompt s).errno ≠ eintr
  | _ => True

instance (s : State) (e : Event) : Decidable (Honest s e) := by
  unfold Honest
  split <;> infer_instance

def lastRead (past : List Read) : Option Read := past.find? fun r => !r.isInterruption

def lastCounted (past : List Read) : Option Read :=
  past.find? fun r => !r.isInterruption && !r.isLoneByte

/-- The last read that counts was an end of file. -/
def EndCounted (past : List Read) : Prop := ∃ last ∈ lastCounted past, last.isEnd = true

/-- An end of file with no stopped process, or right after another one. -/
def LeavesByRule (s : State) (past : List Read) : Event → Prop
  | .iterate r _ =>
      r.isEnd = true ∧ (hasStopped s.jobs = false ∨ ∃ last ∈ lastRead past, last.isEnd = true)
  | _ => False

/-- Between two ends of file there was input, but only single bytes. -/
def LoneBytesBetween (s : State) (past : List Read) : Event → Prop
  | .iterate r _ =>
      r.isEnd = true ∧ hasStopped s.jobs = true ∧ (∃ last ∈ lastRead past, last.isLoneByte = true) ∧
        EndCounted past
  | _ => False

theorem isLoneByte_of_isEnd {r : Read} (h : r.isEnd = true) : r.isLoneByte = false := by
  cases r with
  | line c rest => cases h
  | failed e => rfl
  | eof => rfl

theorem isEnd_of_failed {e : Errno} (h : (Read.failed e).isInterruption = false) :
    (Read.failed e).isEnd = true :=
  decide_eq_true (of_decide_eq_false h)

/-! ## One iteration -/

theorem displayPrompt_jobs (s : State) : (displayPrompt s).jobs = s.jobs := by
  rw [displayPrompt]
  cases promptError s with
  | some e => rfl
  | none => rfl

/-- The two ways on from the branch `nread == -1` when nothing was interrupted. -/
theorem noLine_of_ne {s : State} (h : s.errno ≠ eintr) :
    (noLine s = .warned { s with ctrl_d_count := s.ctrl_d_count + 1 } ∧
        hasStopped s.jobs = true ∧ s.ctrl_d_count = 0) ∨
      (noLine s = .exit (hangUp s.jobs) ∧ (hasStopped s.jobs = false ∨ s.ctrl_d_count ≠ 0)) := by
  rw [noLine, if_neg h]
  by_cases hwarn : hasStopped s.jobs = true ∧ s.ctrl_d_count = 0
  · exact .inl ⟨if_pos hwarn, hwarn⟩
  · refine .inr ⟨if_neg hwarn, ?_⟩
    rw [not_and_or, Bool.not_eq_true] at hwarn
    exact hwarn

theorem iteration_isEnd {s : State} {r : Read} {effect : Effect}
    (hhonest : Honest s (.iterate r effect)) (hr : r.isEnd = true) :
    (∃ t, iteration s r = .warned t ∧ t.ctrl_d_count ≠ 0 ∧
        hasStopped s.jobs = true ∧ s.ctrl_d_count = 0) ∨
      (∃ signals, iteration s r = .exit signals) ∧
        (hasStopped s.jobs = false ∨ s.ctrl_d_count ≠ 0) := by
  have hcount := displayPrompt_ctrl_d_count s
  have hjobs := displayPrompt_jobs s
  cases r with
  | line c rest => cases hr
  | failed e =>
      rcases noLine_of_ne (s := { displayPrompt s with errno := e }) (of_decide_eq_true hr) with
        ⟨hwarn, hst, hzero⟩ | ⟨hexit, hleave⟩
      · exact .inl ⟨_, hwarn, Nat.succ_ne_zero _, hjobs ▸ hst, hcount ▸ hzero⟩
      · exact .inr ⟨⟨_, hexit⟩, hjobs ▸ hcount ▸ hleave⟩
  | eof =>
      rcases noLine_of_ne (s := displayPrompt s) hhonest with ⟨hwarn, hst, hzero⟩ | ⟨hexit, hleave⟩
      · exact .inl ⟨_, hwarn, Nat.succ_ne_zero _, hjobs ▸ hst, hcount ▸ hzero⟩
      · exact .inr ⟨⟨_, hexit⟩, hjobs ▸ hcount ▸ hleave⟩

theorem step_interruption {s : State} {r : Read} (effect : Effect) (hr : r.isInterruption = true) :
    ∃ t, step s (.iterate r effect) = some t ∧ t.ctrl_d_count = s.ctrl_d_count := by
  cases r with
  | line c rest => cases hr
  | eof => cases hr
  | failed e =>
      have he : e = eintr := of_decide_eq_true hr
      have hagain : iteration s (.failed e) = .again { displayPrompt s with errno := e } :=
        if_pos he
      refine ⟨_, by rw [step, hagain], ?_⟩
      exact displayPrompt_ctrl_d_count s

theorem step_line (s : State) (c : Char) (rest : List Char) (effect : Effect) :
    ∃ t, step s (.iterate (.line c rest) effect) = some t ∧
      t.ctrl_d_count = if (Read.line c rest).isLoneByte = true then s.ctrl_d_count else 0 := by
  refine ⟨_, rfl, ?_⟩
  rw [← displayPrompt_ctrl_d_count s]
  cases rest with
  | nil =>
      by_cases hc : c = '\n'
      · simp [resetCtrlD, Read.isLoneByte, hc]
      · simp [resetCtrlD, Read.isLoneByte, hc]
  | cons d rest => simp [resetCtrlD, Read.isLoneByte]

theorem step_eq_none_iff {s : State} {r : Read} {effect : Effect}
    (hhonest : Honest s (.iterate r effect)) :
    step s (.iterate r effect) = none ↔
      r.isEnd = true ∧ (hasStopped s.jobs = false ∨ s.ctrl_d_count ≠ 0) := by
  by_cases hr : r.isEnd = true
  · rcases iteration_isEnd hhonest hr with ⟨t, hwarn, -, hst, hzero⟩ | ⟨⟨signals, hexit⟩, hleave⟩
    · simp [step, hwarn, hst, hzero]
    · simp [step, hexit, hr, hleave]
  · refine iff_of_false ?_ fun h => hr h.1
    cases r with
    | line c rest =>
        obtain ⟨t, ht, -⟩ := step_line s c rest effect
        simp [ht]
    | failed e =>
        have hint : (Read.failed e).isInterruption = true := by
          by_contra hne
          exact hr (isEnd_of_failed (Bool.eq_false_iff.mpr hne))
        obtain ⟨t, ht, -⟩ := step_interruption (s := s) effect hint
        simp [ht]
    | eof => exact absurd rfl hr

/-! ## Runs -/

theorem lastCounted_skip {r : Read} (past : List Read)
    (h : r.isInterruption = true ∨ r.isLoneByte = true) :
    lastCounted (r :: past) = lastCounted past :=
  List.find?_cons_of_neg (by rcases h with h | h <;> simp [h])

theorem endCounted_cons {r : Read} (past : List Read) (hint : r.isInterruption = false)
    (hlone : r.isLoneByte = false) : EndCounted (r :: past) ↔ r.isEnd = true := by
  have hfind : lastCounted (r :: past) = some r := List.find?_cons_of_pos (by simp [hint, hlone])
  simp [EndCounted, hfind]

/-- The counter remembers the end of file over every step. -/
theorem step_count {s t : State} {e : Event} {past : List Read} (hhonest : Honest s e)
    (hstep : step s e = some t) (hcount : s.ctrl_d_count ≠ 0 ↔ EndCounted past) :
    t.ctrl_d_count ≠ 0 ↔ EndCounted (note s e past) := by
  cases e with
  | sigchld p status =>
      cases hstep
      exact hcount
  | environment getcwd stdout =>
      cases hstep
      exact hcount
  | iterate r effect =>
      by_cases hint : r.isInterruption = true
      · obtain ⟨u, hu, hkept⟩ := step_interruption (s := s) effect hint
        obtain rfl : u = t := Option.some.inj (hu.symm.trans hstep)
        rw [hkept, note, EndCounted, lastCounted_skip past (.inl hint)]
        exact hcount
      · rw [Bool.not_eq_true] at hint
        by_cases hend : r.isEnd = true
        · rw [note, endCounted_cons past hint (isLoneByte_of_isEnd hend)]
          rcases iteration_isEnd hhonest hend with ⟨u, hwarn, hne, -⟩ | ⟨⟨signals, hexit⟩, -⟩
          · rw [step, hwarn] at hstep
            cases hstep
            exact iff_of_true hne hend
          · rw [step, hexit] at hstep
            cases hstep
        · cases r with
          | line c rest =>
              obtain ⟨u, hu, hset⟩ := step_line s c rest effect
              obtain rfl : u = t := Option.some.inj (hu.symm.trans hstep)
              rw [hset]
              split_ifs with hlone
              · rw [note, EndCounted, lastCounted_skip past (.inr hlone)]
                exact hcount
              · rw [note, endCounted_cons past hint (Bool.eq_false_iff.mpr hlone)]
                exact iff_of_false (fun h => h rfl) hend
          | failed e => exact absurd (isEnd_of_failed hint) hend
          | eof => exact absurd rfl hend

/-- The runs with the reads kept beside them. -/
def Reached (x : State × List Read) : Prop :=
  Run.Reach (fun y => init y.1 ∧ y.2 = []) (Run.recorded step note) (fun y e => Honest y.1 e) x

theorem Reached.count {x : State × List Read} (hx : Reached x) :
    x.1.ctrl_d_count ≠ 0 ↔ EndCounted x.2 := by
  apply Run.Reach.invariant hx
  · intro y hy
    rw [hy.1.1, hy.2]
    simp [EndCounted, lastCounted]
  · intro y e z _ ih hhonest hstep
    obtain ⟨hstep, hnote⟩ := Run.recorded_eq_some_iff.mp hstep
    rw [hnote]
    exact step_count hhonest hstep ih

theorem lastCounted_eq_lastRead {past : List Read}
    (h : ∀ last ∈ lastRead past, last.isLoneByte = false) : lastCounted past = lastRead past := by
  induction past with
  | nil => rfl
  | cons r past ih =>
      cases hint : r.isInterruption with
      | true =>
          have hskip : lastRead (r :: past) = lastRead past :=
            List.find?_cons_of_neg (by simp [hint])
          rw [hskip] at h ⊢
          rw [lastCounted_skip past (.inl hint), ih h]
      | false =>
          have hhead : lastRead (r :: past) = some r := List.find?_cons_of_pos (by simp [hint])
          rw [hhead] at h ⊢
          exact List.find?_cons_of_pos (by simp [hint, h r rfl])

/-- The loop is left by the rule, except when only single bytes came between two ends of
file. -/
theorem leaves_by_rule_iff {x : State × List Read} (hx : Reached x) {e : Event}
    (he : Honest x.1 e) :
    (step x.1 e = none ↔ LeavesByRule x.1 x.2 e) ↔ ¬LoneBytesBetween x.1 x.2 e := by
  cases e with
  | sigchld p status => simp [step, LeavesByRule, LoneBytesBetween]
  | environment getcwd stdout => simp [step, LeavesByRule, LoneBytesBetween]
  | iterate r effect =>
      rw [step_eq_none_iff he, hx.count, LeavesByRule, LoneBytesBetween]
      by_cases hlone : ∃ last ∈ lastRead x.2, last.isLoneByte = true
      · have hnot : ¬∃ last ∈ lastRead x.2, last.isEnd = true := by
          rintro ⟨last, hlast, hend⟩
          obtain ⟨other, hother, hbyte⟩ := hlone
          obtain rfl := Option.mem_unique hlast hother
          rw [isLoneByte_of_isEnd hend] at hbyte
          cases hbyte
        rw [eq_false hnot, eq_true hlone]
        cases hasStopped x.1.jobs with
        | false => simp
        | true => simp
      · have heq : lastCounted x.2 = lastRead x.2 := by
          apply lastCounted_eq_lastRead
          intro last hlast
          exact Bool.eq_false_iff.mpr fun hbyte => hlone ⟨last, hlast, hbyte⟩
        rw [EndCounted, heq]
        exact iff_of_true Iff.rfl fun h => hlone h.2.2.1

/-- A command that has left a stopped process behind. -/
def stoppedEffect : Effect := ⟨0, [⟨1, 10, [⟨10, "vi", .stopped⟩]⟩], none, none⟩

/-- A process is stopped and the end of file has given the warning. -/
def warned : State × List Read :=
  (⟨0, 1, stoppedEffect.jobs, none, none⟩, [.eof, .line 'v' ['i', '\n']])

theorem reached_warned : Reached warned := by
  have hstart : Reached (⟨0, 0, [], none, none⟩, []) := .start ⟨⟨rfl, rfl⟩, rfl⟩
  have hstopped : Reached (⟨0, 0, stoppedEffect.jobs, none, none⟩, [.line 'v' ['i', '\n']]) :=
    .next (a := .iterate (.line 'v' ['i', '\n']) stoppedEffect) hstart trivial rfl
  exact .next (a := .iterate .eof stoppedEffect) hstopped (by decide) rfl

theorem leaves_by_rule_again :
    step warned.1 (.iterate .eof stoppedEffect) = none ↔
      LeavesByRule warned.1 warned.2 (.iterate .eof stoppedEffect) :=
  (leaves_by_rule_iff reached_warned (by decide)).mpr fun h => by
    obtain ⟨-, -, ⟨last, hlast, hbyte⟩, -⟩ := h
    cases hlast
    cases hbyte

/-- The letter before the second end of file is not counted as input. -/
theorem leaves_after_lone_byte :
    ∃ x, Reached x ∧ Honest x.1 (.iterate .eof stoppedEffect) ∧
      step x.1 (.iterate .eof stoppedEffect) = none ∧
        ¬LeavesByRule x.1 x.2 (.iterate .eof stoppedEffect) := by
  refine ⟨(warned.1, .line 'a' [] :: warned.2), ?_, by decide, rfl, ?_⟩
  · exact .next (a := .iterate (.line 'a' []) stoppedEffect) reached_warned trivial rfl
  · rintro ⟨-, hst | ⟨last, hlast, hend⟩⟩
    · cases hst
    · cases hlast
      cases hend

end ShellXv6.Shell.ReadLoop
