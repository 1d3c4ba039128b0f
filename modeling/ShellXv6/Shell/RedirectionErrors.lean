import ShellXv6.Lib.DescriptorTable
import ShellXv6.Shell.Redirection

/-!
# The descriptors of the shell around a single command

`execute_single` saves descriptors 0 and 1, and three functions open and close
others on more than ten ways out.  The model keeps the table of open descriptors and
asks a record of answers whether a call succeeds.  A builtin opens files too, but
closes each before it opens the next.
-/

namespace ShellXv6.Shell.RedirectionErrors

open DescriptorTable

variable {F : Type}

/-- What the calls of the system answer, and the files behind the new descriptors.
The redirections are numbered from 0 in each loop. -/
structure Answers (F : Type) where
  dup : ℕ → Bool
  clean_args : Bool
  input_tmpfile : Option F
  /-- `open` of an input file. -/
  input : ℕ → Option F
  /-- All calls of `read` and `fwrite` for it succeed. -/
  copied : ℕ → Bool
  input_lseek : Bool
  input_dup2 : Bool
  /-- `open` of a target before the command. -/
  target : ℕ → Option F
  output_tmpfile : Option F
  output_dup2 : Bool
  /-- What the command opens. -/
  used : List F
  /-- `lseek`, `malloc`, `realloc` and `read` in `distribute_output`. -/
  collected : Bool
  /-- `open` of a target after the command. -/
  target_again : ℕ → Option F
  distributed : ℕ → Bool

/-! ## The functions -/

def dup (ok : Bool) (t : Table F) (fd : ℕ) : Table F × Option ℕ :=
  match ok, t.file fd with
  | true, some f => ((t.openNew f).1, some (t.openNew f).2)
  | _, _ => (t, none)

def closeSome (t : Table F) : Option ℕ → Table F
  | none => t
  | some fd => t.close fd

/-- The end of `setup_input_redirection`. -/
def finishInput (a : Answers F) (t : Table F) : Option ℕ → Table F × ℤ
  | none => (t, 0)
  | some tmp =>
      if a.input_lseek && a.input_dup2 then ((t.assign 0 (t.file tmp)).close tmp, 1)
      else (t.close tmp, -1)

/-- The stream, made for the first redirection. -/
def inputStream (a : Answers F) (t : Table F) : Option ℕ → Option (Table F × ℕ)
  | none => a.input_tmpfile.map t.openNew
  | some tmp => some (t, tmp)

/-- The loop of `setup_input_redirection`, with the descriptor of the stream. -/
def inputLoop (a : Answers F) (k : ℕ) (t : Table F) (tmp : Option ℕ) : List Path → Table F × ℤ
  | [] => finishInput a t tmp
  | [arg] => if isInput arg then (t, -1) else finishInput a t tmp
  | arg :: filename :: rest =>
      if isInput arg then
        match inputStream a t tmp with
        | none => (t, -1)
        | some (t, tmp) =>
            match a.input k with
            | none => (t.close tmp, -1)
            | some f =>
                let t := (t.openNew f).1.close (t.openNew f).2
                if a.copied k then inputLoop a (k + 1) t (some tmp) rest
                else (t.close tmp, -1)
      else inputLoop a k t tmp (filename :: rest)

/-- The end of `setup_output_redirection`, with the descriptor of the stream. -/
def finishOutput (a : Answers F) (k : ℕ) (t : Table F) : Table F × ℤ × Option ℕ :=
  if k = 0 then (t, 0, none)
  else
    match a.output_tmpfile with
    | none => (t, -1, none)
    | some f =>
        let (t, tmp) := t.openNew f
        if a.output_dup2 then (t.assign 1 (t.file tmp), 1, some tmp)
        else (t.close tmp, -1, none)

def outputLoop (a : Answers F) (k : ℕ) (t : Table F) : List Path → Table F × ℤ × Option ℕ
  | [] => finishOutput a k t
  | [arg] => if isOutput arg then (t, -1, none) else finishOutput a k t
  | arg :: filename :: rest =>
      if isOutput arg then
        match a.target k with
        | none => (t, -1, none)
        | some f => outputLoop a (k + 1) ((t.openNew f).1.close (t.openNew f).2) rest
      else outputLoop a k t (filename :: rest)

/-- The builtins open their files one after the other, and a program has a table of its
own. -/
def command (a : Answers F) (t : Table F) : Table F :=
  a.used.foldl (fun t f => (t.openNew f).1.close (t.openNew f).2) t

def distributeLoop (a : Answers F) (k : ℕ) (t : Table F) (tmp : ℕ) : List Path → Table F
  | [] => t.close tmp
  | [_] => t.close tmp
  | arg :: filename :: rest =>
      if isOutput arg then
        match a.target_again k with
        | none => t.close tmp
        | some f =>
            let t := (t.openNew f).1.close (t.openNew f).2
            if a.distributed k then distributeLoop a (k + 1) t tmp rest else t.close tmp
      else distributeLoop a k t tmp (filename :: rest)

def distributeOutput (a : Answers F) (t : Table F) (tmp : ℕ) (args : List Path) : Table F :=
  if a.collected then distributeLoop a 0 t tmp args else t.close tmp

/-- `dup2` of the saved descriptors back to 0 and 1, and `close`. -/
def restore (t : Table F) (saved_stdin saved_stdout : ℕ) : Table F :=
  let t := t.assign 0 (t.file saved_stdin)
  let t := t.assign 1 (t.file saved_stdout)
  (t.close saved_stdin).close saved_stdout

/-- `execute_single` from the set-up of the output on. -/
def runInput (a : Answers F) (t : Table F) (saved_stdin saved_stdout : ℕ) (args : List Path) :
    Table F :=
  let (t, output_status, output_tmp) := outputLoop a 0 t args
  if output_status = -1 then restore t saved_stdin saved_stdout
  else
    let t := restore (command a t) saved_stdin saved_stdout
    match output_tmp with
    | none => t
    | some tmp => distributeOutput a t tmp args

/-- `execute_single` from the set-up of the input on. -/
def runSaved (a : Answers F) (t : Table F) (saved_stdin saved_stdout : ℕ) (args : List Path) :
    Table F :=
  let (t, input_status) := inputLoop a 0 t none args
  if input_status = -1 then restore t saved_stdin saved_stdout
  else runInput a t saved_stdin saved_stdout args

def executeSingle (a : Answers F) (t : Table F) (args : List Path) : Table F :=
  let (t, saved_stdin) := dup (a.dup 0) t 0
  let (t, saved_stdout) := dup (a.dup 1) t 1
  match saved_stdin, saved_stdout with
  | some saved_stdin, some saved_stdout =>
      if !a.clean_args || cleanArgs args = [] then (t.close saved_stdin).close saved_stdout
      else runSaved a t saved_stdin saved_stdout args
  | saved_stdin, saved_stdout => closeSome (closeSome t saved_stdin) saved_stdout

/-! ## What each function leaves -/

section

variable {a : Answers F} {t : Table F}

/-- The input loop comes to a last `<` without a file name, and everything before it
succeeds from the `k`-th redirection on. -/
def Dangling (a : Answers F) (k : ℕ) (args : List Path) : Prop :=
  let input := setupInputRedirection (fun _ _ => true) args
  input.failed = true ∧
    ∀ j < input.opened.length, (a.input (k + j)).isSome = true ∧ a.copied (k + j) = true

theorem dangling_nil (k : ℕ) : ¬Dangling a k [] := by
  rintro ⟨hfailed, -⟩
  cases hfailed

theorem dangling_singleton (k : ℕ) (arg : Path) : Dangling a k [arg] ↔ isInput arg = true := by
  simp [Dangling, setupInputRedirection, setupRedirection]

theorem dangling_word {arg : Path} (h : isInput arg = false) (k : ℕ) (filename : Path)
    (rest : List Path) :
    Dangling a k (arg :: filename :: rest) ↔ Dangling a k (filename :: rest) := by
  simp [Dangling, setupInputRedirection, setupRedirection, h]

theorem dangling_input {arg : Path} (h : isInput arg = true) (k : ℕ) (filename : Path)
    (rest : List Path) :
    Dangling a k (arg :: filename :: rest) ↔
      ((a.input k).isSome = true ∧ a.copied k = true) ∧ Dangling a (k + 1) rest := by
  simp only [Dangling, setupInputRedirection, setupRedirection, h, if_true, List.length_cons]
  constructor
  · rintro ⟨hfailed, hall⟩
    refine ⟨hall 0 (Nat.succ_pos _), hfailed, fun j hj => ?_⟩
    rw [Nat.add_assoc, Nat.add_comm 1 j]
    exact hall (j + 1) (Nat.succ_lt_succ hj)
  · rintro ⟨hfirst, hfailed, hall⟩
    refine ⟨hfailed, fun j hj => ?_⟩
    cases j with
    | zero => exact hfirst
    | succ j =>
        rw [Nat.add_comm j 1, ← Nat.add_assoc]
        exact hall j (Nat.lt_of_succ_lt_succ hj)

/-- The stream behind descriptor 0, without the descriptor of its own. -/
theorem assign_zero_openNew (hzero : t.file 0 ≠ none) (f : F) :
    ((t.openNew f).1.assign 0 ((t.openNew f).1.file (t.openNew f).2)).close (t.openNew f).2 =
      t.assign 0 (some f) := by
  have hfile : (t.openNew f).1.file (t.openNew f).2 = some f := by simp [Table.openNew]
  have hne : (0 : ℕ) ≠ (t.openNew f).2 := (t.lowest_ne hzero).symm
  rw [hfile, Table.close, Table.assign_comm _ hne, ← Table.close, Table.close_openNew]

/-- How the input loop ends with the stream open: at a last `<` it stays so. -/
theorem inputLoop_stream (k tmp : ℕ) (args : List Path) :
    Dangling a k args ∧ inputLoop a k t (some tmp) args = (t, -1) ∨
      ¬Dangling a k args ∧ (inputLoop a k t (some tmp) args = (t.close tmp, -1) ∨
        inputLoop a k t (some tmp) args = ((t.assign 0 (t.file tmp)).close tmp, 1)) := by
  have hfinish : finishInput a t (some tmp) = (t.close tmp, -1) ∨
      finishInput a t (some tmp) = ((t.assign 0 (t.file tmp)).close tmp, 1) := by
    unfold finishInput
    split_ifs
    · exact Or.inr rfl
    · exact Or.inl rfl
  induction args using setupRedirection.induct isInput (fun _ => .O_RDONLY) (fun _ _ => true)
    generalizing k with
  | case1 => exact Or.inr ⟨dangling_nil k, hfinish⟩
  | case2 arg =>
      rw [dangling_singleton, inputLoop]
      by_cases harg : isInput arg = true
      · rw [if_pos harg]
        exact Or.inl ⟨harg, rfl⟩
      · rw [if_neg harg]
        exact Or.inr ⟨harg, hfinish⟩
  | case3 arg filename rest harg _ ih =>
      rw [dangling_input harg, inputLoop, if_pos harg]
      cases hopen : a.input k with
      | none => exact Or.inr ⟨by simp, Or.inl (by simp [inputStream])⟩
      | some f =>
          cases hcopied : a.copied k with
          | false => exact Or.inr ⟨by simp, Or.inl (by simp [inputStream])⟩
          | true => simpa [inputStream] using ih (k + 1)
  | case4 arg filename _ _ hno => exact absurd rfl hno
  | case5 arg filename rest harg ih =>
      rw [dangling_word (Bool.eq_false_iff.mpr harg), inputLoop, if_neg harg]
      exact ih k

/-- The whole function returns -1 with the stream still open. -/
def Leaks (a : Answers F) (args : List Path) : Prop :=
  Dangling a 0 args ∧ (setupInputRedirection (fun _ _ => true) args).opened ≠ [] ∧
    a.input_tmpfile.isSome = true

theorem inputLoop_start (hzero : t.file 0 ≠ none) (args : List Path) :
    (Leaks a args ∧ ∃ f, inputLoop a 0 t none args = ((t.openNew f).1, -1)) ∨
      ¬Leaks a args ∧ (inputLoop a 0 t none args = (t, -1) ∨ inputLoop a 0 t none args = (t, 0) ∨
        ∃ f, inputLoop a 0 t none args = (t.assign 0 (some f), 1)) := by
  unfold Leaks
  induction args using setupRedirection.induct isInput (fun _ => .O_RDONLY) (fun _ _ => true) with
  | case1 => exact Or.inr ⟨fun h => dangling_nil 0 h.1, Or.inr (Or.inl rfl)⟩
  | case2 arg =>
      refine Or.inr ⟨fun h => h.2.1 rfl, ?_⟩
      rw [inputLoop]
      split_ifs
      · exact Or.inl rfl
      · exact Or.inr (Or.inl rfl)
  | case3 arg filename rest harg _ ih =>
      have hopened :
          (setupInputRedirection (fun _ _ => true) (arg :: filename :: rest)).opened ≠ [] := by
        simp [setupInputRedirection, setupRedirection, harg]
      cases htmp : a.input_tmpfile with
      | none => exact Or.inr ⟨by simp, Or.inl (by simp [inputLoop, harg, inputStream, htmp])⟩
      | some f =>
          -- From the first redirection on the loop runs with the new stream.
          have hloop : inputLoop a 0 t none (arg :: filename :: rest) =
              inputLoop a 0 (t.openNew f).1 (some (t.openNew f).2) (arg :: filename :: rest) := by
            simp [inputLoop, harg, inputStream, htmp]
          rw [hloop]
          rcases inputLoop_stream (a := a) (t := (t.openNew f).1) 0 (t.openNew f).2
            (arg :: filename :: rest) with ⟨hdangling, heq⟩ | ⟨hdangling, heq⟩
          · exact Or.inl ⟨⟨hdangling, hopened, rfl⟩, f, heq⟩
          · refine Or.inr ⟨fun h => hdangling h.1, ?_⟩
            rw [Table.close_openNew, assign_zero_openNew hzero] at heq
            rcases heq with heq | heq
            · exact Or.inl heq
            · exact Or.inr (Or.inr ⟨f, heq⟩)
  | case4 arg filename _ _ hno => exact absurd rfl hno
  | case5 arg filename rest harg ih =>
      rw [dangling_word (Bool.eq_false_iff.mpr harg), inputLoop, if_neg harg]
      have hopened : (setupInputRedirection (fun _ _ => true) (arg :: filename :: rest)).opened =
          (setupInputRedirection (fun _ _ => true) (filename :: rest)).opened := by
        simp [setupInputRedirection, setupRedirection, harg]
      rw [hopened]
      exact ih

theorem outputLoop_cases (k : ℕ) (args : List Path) :
    outputLoop a k t args = (t, -1, none) ∨ outputLoop a k t args = (t, 0, none) ∨
      ∃ f, outputLoop a k t args =
        ((t.openNew f).1.assign 1 (some f), 1, some (t.openNew f).2) := by
  have hfinish : ∀ k, finishOutput a k t = (t, -1, none) ∨ finishOutput a k t = (t, 0, none) ∨
      ∃ f, finishOutput a k t = ((t.openNew f).1.assign 1 (some f), 1, some (t.openNew f).2) := by
    intro k
    unfold finishOutput
    by_cases hk : k = 0
    · exact Or.inr (Or.inl (if_pos hk))
    · rw [if_neg hk]
      cases a.output_tmpfile with
      | none => exact Or.inl rfl
      | some f =>
          cases a.output_dup2 with
          | false => exact Or.inl (by simp)
          | true => exact Or.inr (Or.inr ⟨f, by simp [Table.openNew]⟩)
  induction args using setupRedirection.induct isOutput (fun _ => .O_TRUNC) (fun _ _ => true)
    generalizing k with
  | case1 => exact hfinish k
  | case2 arg =>
      rw [outputLoop]
      split_ifs
      · exact Or.inl rfl
      · exact hfinish k
  | case3 arg filename rest harg _ ih =>
      rw [outputLoop, if_pos harg]
      cases a.target k with
      | none => exact Or.inl rfl
      | some f =>
          simp only [Table.close_openNew]
          exact ih (k + 1)
  | case4 arg filename _ _ hno => exact absurd rfl hno
  | case5 arg filename rest harg ih =>
      rw [outputLoop, if_neg harg]
      exact ih k

theorem command_eq (a : Answers F) (t : Table F) : command a t = t := by
  unfold command
  induction a.used generalizing t with
  | nil => rfl
  | cons f l ih => rw [List.foldl_cons, Table.close_openNew, ih]

/-- Every way out of `distribute_output` closes the stream and nothing else. -/
theorem distributeOutput_eq (a : Answers F) (t : Table F) (tmp : ℕ) (args : List Path) :
    distributeOutput a t tmp args = t.close tmp := by
  have hloop : ∀ k, distributeLoop a k t tmp args = t.close tmp := by
    induction args using setupRedirection.induct isOutput (fun _ => .O_TRUNC) (fun _ _ => true) with
    | case1 => exact fun _ => rfl
    | case2 arg => exact fun _ => rfl
    | case3 arg filename rest harg _ ih =>
        intro k
        rw [distributeLoop, if_pos harg]
        cases a.target_again k with
        | none => rfl
        | some f =>
            simp only [Table.close_openNew]
            split_ifs
            · exact ih (k + 1)
            · rfl
    | case4 arg filename _ _ hno => exact absurd rfl hno
    | case5 arg filename rest harg ih =>
        intro k
        rw [distributeLoop, if_neg harg]
        exact ih k
  unfold distributeOutput
  split_ifs
  · exact hloop 0
  · rfl

/-! ## The saved descriptors -/

/-- The table `u` has what 0 and 1 are in `t` saved under `i` and `o`, which are free
there, and differs from `t` only in these four descriptors. -/
structure Saved (t u : Table F) (i o : ℕ) : Prop where
  stdin : u.file i = t.file 0
  stdout : u.file o = t.file 1
  free_stdin : t.file i = none
  free_stdout : t.file o = none
  open_stdin : t.file 0 ≠ none ∧ u.file 0 ≠ none
  open_stdout : t.file 1 ≠ none ∧ u.file 1 ≠ none
  same : ∀ fd, fd ≠ i → fd ≠ o → fd ≠ 0 → fd ≠ 1 → u.file fd = t.file fd

namespace Saved

variable {u : Table F} {i o : ℕ}

theorem ne (h : Saved t u i o) : (i ≠ 0 ∧ i ≠ 1) ∧ o ≠ 0 ∧ o ≠ 1 := by
  refine ⟨⟨?_, ?_⟩, ?_, ?_⟩
  · exact fun h0 => h.open_stdin.1 (h0 ▸ h.free_stdin)
  · exact fun h1 => h.open_stdout.1 (h1 ▸ h.free_stdin)
  · exact fun h0 => h.open_stdin.1 (h0 ▸ h.free_stdout)
  · exact fun h1 => h.open_stdout.1 (h1 ▸ h.free_stdout)

theorem assign (h : Saved t u i o) {fd : ℕ} (hfd : fd = 0 ∨ fd = 1) (f : F) :
    Saved t (u.assign fd (some f)) i o := by
  obtain ⟨⟨hi0, hi1⟩, ho0, ho1⟩ := h.ne
  have hi : i ≠ fd := by rcases hfd with rfl | rfl <;> assumption
  have ho : o ≠ fd := by rcases hfd with rfl | rfl <;> assumption
  refine ⟨?_, ?_, h.free_stdin, h.free_stdout, ⟨h.open_stdin.1, ?_⟩, ⟨h.open_stdout.1, ?_⟩, ?_⟩
  · rw [Table.file_assign, if_neg hi, h.stdin]
  · rw [Table.file_assign, if_neg ho, h.stdout]
  · rw [Table.file_assign]
    split_ifs
    · exact Option.some_ne_none f
    · exact h.open_stdin.2
  · rw [Table.file_assign]
    split_ifs
    · exact Option.some_ne_none f
    · exact h.open_stdout.2
  · intro m hmi hmo hm0 hm1
    have hm : m ≠ fd := by rcases hfd with rfl | rfl <;> assumption
    rw [Table.file_assign, if_neg hm, h.same m hmi hmo hm0 hm1]

theorem restore (h : Saved t u i o) : restore u i o = t := by
  obtain ⟨⟨hi0, hi1⟩, ho0, ho1⟩ := h.ne
  ext1 fd
  simp only [RedirectionErrors.restore, Table.close, Table.file_assign, if_neg ho0, h.stdin,
    h.stdout]
  by_cases hfo : fd = o
  · rw [if_pos hfo, hfo, h.free_stdout]
  rw [if_neg hfo]
  by_cases hfi : fd = i
  · rw [if_pos hfi, hfi, h.free_stdin]
  rw [if_neg hfi]
  by_cases hf1 : fd = 1
  · rw [if_pos hf1, hf1]
  rw [if_neg hf1]
  by_cases hf0 : fd = 0
  · rw [if_pos hf0, hf0]
  rw [if_neg hf0]
  exact h.same fd hfi hfo hf0 hf1

/-- A descriptor opened in between is new and stays open. -/
theorem openNew (h : Saved t u i o) (f : F) :
    t.file (u.openNew f).2 = none ∧
      Saved (t.assign (u.openNew f).2 (some f)) (u.openNew f).1 i o := by
  have hi : u.lowest ≠ i := u.lowest_ne (h.stdin ▸ h.open_stdin.1)
  have ho : u.lowest ≠ o := u.lowest_ne (h.stdout ▸ h.open_stdout.1)
  have h0 : u.lowest ≠ 0 := u.lowest_ne h.open_stdin.2
  have h1 : u.lowest ≠ 1 := u.lowest_ne h.open_stdout.2
  refine ⟨?_, ?_⟩
  · exact (h.same u.lowest hi ho h0 h1).symm.trans u.file_lowest
  · simp only [Table.openNew]
    constructor <;> simp only [Table.file_assign, if_neg hi.symm, if_neg ho.symm, if_neg h0.symm,
      if_neg h1.symm]
    · exact h.stdin
    · exact h.stdout
    · exact h.free_stdin
    · exact h.free_stdout
    · exact h.open_stdin
    · exact h.open_stdout
    · intro fd hfi hfo hf0 hf1
      rw [h.same fd hfi hfo hf0 hf1]

theorem dup {f g : F} (hf : t.file 0 = some f) (hg : t.file 1 = some g) :
    Saved t ((t.openNew f).1.openNew g).1 (t.openNew f).2 ((t.openNew f).1.openNew g).2 := by
  have h0 : t.lowest ≠ 0 := t.lowest_ne (by simp [hf])
  have h1 : t.lowest ≠ 1 := t.lowest_ne (by simp [hg])
  simp only [Table.openNew]
  generalize hw : t.assign t.lowest (some f) = w
  have hfile : ∀ fd, w.file fd = if fd = t.lowest then some f else t.file fd := by
    intro fd
    rw [← hw, Table.file_assign]
  have hw0 : w.lowest ≠ 0 := w.lowest_ne (by simp [hfile, hf, h0.symm])
  have hw1 : w.lowest ≠ 1 := w.lowest_ne (by simp [hfile, hg, h1.symm])
  have hwt : w.lowest ≠ t.lowest := w.lowest_ne (by simp [hfile])
  have hfree : t.file w.lowest = none := by
    have hnone := w.file_lowest
    rwa [hfile, if_neg hwt] at hnone
  refine ⟨?_, ?_, t.file_lowest, hfree, ?_, ?_, ?_⟩ <;> simp only [Table.file_assign, hfile]
  · rw [if_neg hwt.symm, if_pos trivial, hf]
  · rw [if_pos trivial, hg]
  · rw [if_neg hw0.symm, if_neg h0.symm, hf]
    exact ⟨Option.some_ne_none f, Option.some_ne_none f⟩
  · rw [if_neg hw1.symm, if_neg h1.symm, hg]
    exact ⟨Option.some_ne_none g, Option.some_ne_none g⟩
  · intro fd hfi hfo _ _
    rw [if_neg hfo, if_neg hfi]

end Saved

/-! ## All ways out -/

section

variable {u : Table F} {i o : ℕ}

theorem Saved.runInput (h : Saved t u i o) (args : List Path) : runInput a u i o args = t := by
  rcases outputLoop_cases (a := a) (t := u) 0 args with houtput | houtput | ⟨f, houtput⟩
  · simp [RedirectionErrors.runInput, houtput, h.restore]
  · simp [RedirectionErrors.runInput, houtput, command_eq, h.restore]
  · obtain ⟨hfree, hsaved⟩ := h.openNew f
    simp only [RedirectionErrors.runInput, houtput, command_eq, distributeOutput_eq]
    rw [if_neg (by decide), (hsaved.assign (Or.inr rfl) f).restore, Table.close,
      Table.assign_assign, ← hfree, Table.assign_self]

/-- With both descriptors saved, the stream of the input redirections is all that can be
left open. -/
theorem Saved.runSaved_iff (h : Saved t u i o) (args : List Path) :
    runSaved a u i o args = t ↔ ¬Leaks a args := by
  rcases inputLoop_start (a := a) h.open_stdin.2 args with ⟨hleak, f, hinput⟩ | ⟨hleak, hinput⟩
  · obtain ⟨hfree, hsaved⟩ := h.openNew f
    have hrun : runSaved a u i o args = t.assign (u.openNew f).2 (some f) := by
      simp [runSaved, hinput, hsaved.restore]
    rw [hrun]
    refine iff_of_false (fun heq => ?_) (not_not_intro hleak)
    rw [← heq, Table.file_assign, if_pos rfl] at hfree
    cases hfree
  · refine iff_of_true ?_ hleak
    rcases hinput with hinput | hinput | ⟨f, hinput⟩
    · simp [runSaved, hinput, h.restore]
    · simp [runSaved, hinput, h.runInput]
    · simp [runSaved, hinput, (h.assign (Or.inl rfl) f).runInput]

end

/-- The command gets to the set-up of its redirections. -/
def SetsUp (a : Answers F) (args : List Path) : Prop :=
  (a.dup 0 = true ∧ a.dup 1 = true) ∧ a.clean_args = true ∧ cleanArgs args ≠ []

theorem dup_of_open {fd : ℕ} {f : F} (h : t.file fd = some f) (ok : Bool) :
    dup ok t fd = if ok then ((t.openNew f).1, some (t.openNew f).2) else (t, none) := by
  cases ok <;> simp [dup, h]

theorem close_both (t : Table F) (f g : F) :
    ((((t.openNew f).1.openNew g).1.close (t.openNew f).2).close
      ((t.openNew f).1.openNew g).2) = t := by
  have hne : (t.openNew f).2 ≠ ((t.openNew f).1.openNew g).2 := by
    refine ((t.openNew f).1.lowest_ne ?_).symm
    simp [Table.openNew]
  rw [Table.close_comm _ hne, Table.close_openNew, Table.close_openNew]

/-- The ways out in front of the redirections close the saved descriptors again. -/
theorem executeSingle_of_not_setsUp {args : List Path} (hstdin : t.isOpen 0)
    (hstdout : t.isOpen 1) (h : ¬SetsUp a args) : executeSingle a t args = t := by
  obtain ⟨f, hf⟩ := Option.ne_none_iff_exists'.mp hstdin
  obtain ⟨g, hg⟩ := Option.ne_none_iff_exists'.mp hstdout
  have hg' : (t.openNew f).1.file 1 = some g := by
    rw [Table.openNew, Table.file_assign, if_neg (t.lowest_ne hstdout).symm, hg]
  unfold SetsUp at h
  unfold executeSingle
  rw [dup_of_open hf]
  cases hdup₀ : a.dup 0 with
  | false => cases a.dup 1 <;> simp [dup, hg, closeSome]
  | true =>
      simp only [if_true]
      rw [dup_of_open hg']
      cases hdup₁ : a.dup 1 with
      | false => simp [closeSome]
      | true =>
          have hskip : (!a.clean_args || decide (cleanArgs args = [])) = true := by
            simp only [hdup₀, hdup₁, and_self, true_and, not_and_or, not_not] at h
            rcases h with h | h <;> simp [h]
          simp only [if_true, hskip, close_both]

theorem executeSingle_of_setsUp {args : List Path} (hstdin : t.isOpen 0) (hstdout : t.isOpen 1)
    (h : SetsUp a args) : executeSingle a t args = t ↔ ¬Leaks a args := by
  obtain ⟨f, hf⟩ := Option.ne_none_iff_exists'.mp hstdin
  obtain ⟨g, hg⟩ := Option.ne_none_iff_exists'.mp hstdout
  have hg' : (t.openNew f).1.file 1 = some g := by
    rw [Table.openNew, Table.file_assign, if_neg (t.lowest_ne hstdout).symm, hg]
  obtain ⟨⟨hdup₀, hdup₁⟩, hargs, hclean⟩ := h
  have hrun := (Saved.dup hf hg).runSaved_iff (a := a) args
  unfold executeSingle
  rw [dup_of_open hf, hdup₀]
  simp only [if_true]
  rw [dup_of_open hg', hdup₁]
  simpa [hargs, hclean] using hrun

/-- The shell has the descriptors of before when `execute_single` returns, unless a last `<`
without a file name comes after others that succeed. -/
theorem descriptors_intact_iff (a : Answers F) (t : Table F) (args : List Path)
    (hstdin : t.isOpen 0) (hstdout : t.isOpen 1) :
    executeSingle a t args = t ↔ ¬(SetsUp a args ∧ Leaks a args) := by
  by_cases h : SetsUp a args
  · rw [executeSingle_of_setsUp hstdin hstdout h]
    exact not_congr (and_iff_right h).symm
  · exact iff_of_true (executeSingle_of_not_setsUp hstdin hstdout h) fun hboth => h hboth.1

end

def terminal : Table ℕ where
  file fd := if fd < 3 then some fd else none
  bounded := ⟨3, fun _ h => if_neg (Nat.not_lt.mpr h)⟩

def success : Answers ℕ where
  dup _ := true
  clean_args := true
  input_tmpfile := some 10
  input k := some (20 + k)
  copied _ := true
  input_lseek := true
  input_dup2 := true
  target k := some (30 + k)
  output_tmpfile := some 11
  output_dup2 := true
  used := [12]
  collected := true
  target_again k := some (30 + k)
  distributed _ := true

/-- `peek < f > g`, when `f` cannot be opened. -/
theorem descriptors_intact_missing_input :
    executeSingle { success with input := fun _ => none } terminal
      ["peek".toList, ['<'], ['f'], ['>'], ['g']] = terminal := by
  refine (descriptors_intact_iff _ _ _ (by simp [Table.isOpen, terminal])
    (by simp [Table.isOpen, terminal])).mpr ?_
  rintro ⟨-, hdangling, -⟩
  exact absurd hdangling.1 (by decide)

/-- `cat < f "<"`: the stream of the first redirection stays open. -/
theorem descriptor_leaks :
    ∃ toks, lexer "cat < f \"<\"".toList = some (toks, true) ∧ parser toks = 0 ∧
      executeSingle success terminal (toks.map Token.content) ≠ terminal := by
  refine ⟨[⟨"cat".toList, .WORD⟩, ⟨['<'], .OP_LT⟩, ⟨['f'], .WORD⟩, ⟨['<'], .WORD⟩],
    by decide, by decide, ?_⟩
  rw [ne_eq, executeSingle_of_setsUp (by simp [Table.isOpen, terminal])
    (by simp [Table.isOpen, terminal]) ⟨⟨rfl, rfl⟩, rfl, by decide⟩, not_not]
  refine ⟨⟨by decide, fun j _ => ⟨rfl, rfl⟩⟩, by decide, rfl⟩

end ShellXv6.Shell.RedirectionErrors
