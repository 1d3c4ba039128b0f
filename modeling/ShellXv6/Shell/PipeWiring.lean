import ShellXv6.Lib.DescriptorTable
import ShellXv6.Shell.Pipeline

/-!
# The descriptors of a pipeline

`execute_pipeline` and `execute_pipeline_bg` open one pipe between every two stages,
fork the stages, and close the pipes in the parent on every way out. A stage moves the
ends it needs to its standard input and output and closes the pipes as well.
-/

namespace ShellXv6.Shell.PipeWiring

open DescriptorTable

variable {α : Type*}

/-- A file behind a descriptor: one from before the call, or an end of a pipe. -/
inductive File (α : Type*)
  | old (f : α)
  | readEnd (i : ℕ)
  | writeEnd (i : ℕ)

/-- Which calls of `pipe` and `fork` succeed, by their index in the loop. -/
structure Calls where
  pipe : ℕ → Bool
  fork : ℕ → Bool

/-- The loop over `pipe`; an error carries the table after the clean-up. -/
def makePipes (ok : ℕ → Bool) : ℕ → Table (File α) → List (ℕ × ℕ) →
    Except (Table (File α)) (Table (File α) × List (ℕ × ℕ))
  | 0, t, pipes => .ok (t, pipes)
  | k + 1, t, pipes =>
      let i := pipes.length
      if ok i then
        let r := t.pipe (.readEnd i) (.writeEnd i)
        makePipes ok k r.1 (pipes ++ [r.2])
      else .error (t.closeAll pipes)

/-- The first `dup2` of stage `i`. -/
def dupInput (pipes : List (ℕ × ℕ)) (i : ℕ) (t : Table (File α)) : Option (Table (File α)) :=
  if 0 < i then pipes[i - 1]?.bind fun p => t.dup2 p.1 0 else some t

/-- The second `dup2` of stage `i`. -/
def dupOutput (command_count : ℕ) (pipes : List (ℕ × ℕ)) (i : ℕ) (t : Table (File α)) :
    Option (Table (File α)) :=
  if i < command_count - 1 then pipes[i]?.bind fun p => t.dup2 p.2 1 else some t

/-- The child of stage `i` up to the call of `lexer`; without a result it has exited. -/
def enterStage (command_count : ℕ) (pipes : List (ℕ × ℕ)) (i : ℕ) (t : Table (File α)) :
    Option (Table (File α)) := do
  let t ← dupInput pipes i t
  let t ← dupOutput command_count pipes i t
  some (t.closeAll pipes)

/-- The loop over `fork`: whether all calls succeeded, and the children. -/
def forkStages (ok : ℕ → Bool) (child : ℕ → Option (Table (File α))) : ℕ → ℕ →
    Bool × List (Option (Table (File α)))
  | 0, _ => (true, [])
  | k + 1, i =>
      if ok i then
        let r := forkStages ok child k (i + 1)
        (r.1, child i :: r.2)
      else (false, [])

structure Result (α : Type*) where
  ret : ℤ
  parent : Table (File α)
  children : List (Option (Table (File α)))

/-- What both functions do with the commands of the line. The pipes are closed after a
failed `fork` and after the last one. -/
def launch (failure : ℤ) (calls : Calls) (commands : List (List Char)) (t : Table (File α)) :
    Result α :=
  let command_count := commands.length
  match makePipes calls.pipe (command_count - 1) t [] with
  | .error t => ⟨failure, t, []⟩
  | .ok (t, pipes) =>
      let child := fun i => enterStage command_count pipes i t
      let r := forkStages calls.fork child command_count 0
      ⟨if r.1 then command_count else failure, t.closeAll pipes, r.2⟩

def executePipeline (calls : Calls) (raw_line : List Char) (t : Table (File α)) : Result α :=
  match splitCommands raw_line with
  | none => ⟨0, t, []⟩
  | some commands => launch 0 calls commands t

def executePipelineBg (calls : Calls) (raw_line : List Char) (t : Table (File α)) : Result α :=
  match splitCommands raw_line with
  | none => ⟨-1, t, []⟩
  | some commands => launch (-1) calls commands t

/-- The descriptors `c` of stage `i` of `n`, in a shell with the descriptors `t`. -/
structure Wired (n i : ℕ) (t c : Table (File α)) : Prop where
  stdin : c.file 0 = if i = 0 then t.file 0 else some (.readEnd (i - 1))
  stdout : c.file 1 = if i = n - 1 then t.file 1 else some (.writeEnd i)
  rest : ∀ fd, 2 ≤ fd → c.file fd = t.file fd
  onlyRead : ∀ fd j, c.file fd = some (.readEnd j) → fd = 0 ∧ j + 1 = i
  onlyWrite : ∀ fd j, c.file fd = some (.writeEnd j) → fd = 1 ∧ j = i

section Pipes

variable {t u : Table (File α)} {pipes : List (ℕ × ℕ)} {ok : ℕ → Bool}

theorem makePipes_error {k : ℕ} {v : Table (File α)}
    (h : Table.Opened File.readEnd File.writeEnd t u pipes)
    (hv : makePipes ok k u pipes = .error v) : v = t := by
  induction k generalizing u pipes with
  | zero => cases hv
  | succ k ih =>
      unfold makePipes at hv
      simp only at hv
      split_ifs at hv with hok
      · exact ih h.pipe hv
      · cases hv
        exact h.closeAll

theorem makePipes_ok {k : ℕ} {r : Table (File α) × List (ℕ × ℕ)}
    (h : Table.Opened File.readEnd File.writeEnd t u pipes)
    (hr : makePipes ok k u pipes = .ok r) :
    Table.Opened File.readEnd File.writeEnd t r.1 r.2 ∧ r.2.length = pipes.length + k := by
  induction k generalizing u pipes with
  | zero =>
      cases hr
      exact ⟨h, rfl⟩
  | succ k ih =>
      unfold makePipes at hr
      simp only at hr
      split_ifs at hr with hok
      obtain ⟨hopened, hlength⟩ := ih h.pipe hr
      refine ⟨hopened, ?_⟩
      rw [hlength, List.length_append, List.length_singleton]
      omega

theorem makePipes_isOk {k : ℕ} (hok : ∀ i, i < pipes.length + k → ok i = true)
    (u : Table (File α)) : ∃ r, makePipes ok k u pipes = .ok r := by
  induction k generalizing u pipes with
  | zero => exact ⟨_, rfl⟩
  | succ k ih =>
      unfold makePipes
      simp only
      rw [if_pos (hok _ (by omega))]
      apply ih
      intro i hi
      rw [List.length_append, List.length_singleton] at hi
      exact hok i (by omega)

section Stage

variable {n i : ℕ} (h : Table.Opened File.readEnd File.writeEnd t u pipes)
  (hlength : pipes.length = n - 1) (hi : i < n)
include h hlength hi

theorem dupInput_spec : ∃ v, dupInput pipes i u = some v ∧
    v.file 0 = (if i = 0 then u.file 0 else some (.readEnd (i - 1))) ∧
    ∀ fd, fd ≠ 0 → v.file fd = u.file fd := by
  unfold dupInput
  by_cases hzero : i = 0
  · exact ⟨u, by simp [hzero], by simp [hzero], fun _ _ => rfl⟩
  · have hlt : i - 1 < pipes.length := by omega
    have hget := List.getElem?_eq_getElem hlt
    refine ⟨u.assign 0 (some (.readEnd (i - 1))), ?_, ?_, ?_⟩
    · rw [if_pos (by omega), hget, Option.bind_some, Table.dup2, (h.files _ _ hget).1]
      rfl
    · simp [hzero]
    · intro fd hfd
      simp [hfd]

/-- The write end is still there after the first `dup2`, which changes descriptor 0. -/
theorem dupOutput_spec (h₀ : t.isOpen 0) {v : Table (File α)}
    (hv : ∀ fd, fd ≠ 0 → v.file fd = u.file fd) :
    ∃ x, dupOutput n pipes i v = some x ∧
      x.file 1 = (if i = n - 1 then u.file 1 else some (.writeEnd i)) ∧
      ∀ fd, fd ≠ 1 → x.file fd = v.file fd := by
  unfold dupOutput
  by_cases hlast : i = n - 1
  · refine ⟨v, by simp [hlast], ?_, fun _ _ => rfl⟩
    rw [if_pos hlast, hv 1 Nat.one_ne_zero]
  · have hlt : i < pipes.length := by omega
    have hget := List.getElem?_eq_getElem hlt
    have hne : pipes[i].2 ≠ 0 := by
      intro hzero
      apply h₀
      apply h.fresh
      exact Table.mem_ends.mpr ⟨pipes[i], List.getElem_mem hlt, Or.inr hzero.symm⟩
    refine ⟨v.assign 1 (some (.writeEnd i)), ?_, ?_, ?_⟩
    · rw [if_pos (by omega), hget, Option.bind_some, Table.dup2, hv _ hne, (h.files _ _ hget).2]
      rfl
    · simp [hlast]
    · intro fd hfd
      simp [hfd]

/-- Closing the pipes leaves the stage with the two ends it has moved. -/
theorem enterStage_spec (h₀ : t.isOpen 0) (h₁ : t.isOpen 1) :
    ∃ c, enterStage n pipes i u = some c ∧
      c.file 0 = (if i = 0 then t.file 0 else some (.readEnd (i - 1))) ∧
      c.file 1 = (if i = n - 1 then t.file 1 else some (.writeEnd i)) ∧
      ∀ fd, 2 ≤ fd → c.file fd = t.file fd := by
  have hkept : ∀ {fd}, t.isOpen fd → fd ∉ Table.ends pipes := fun hopen hmem =>
    hopen (h.fresh _ hmem)
  obtain ⟨v, hv, hv₀, hvrest⟩ := dupInput_spec h hlength hi
  obtain ⟨x, hx, hx₁, hxrest⟩ := dupOutput_spec h hlength hi h₀ hvrest
  refine ⟨x.closeAll pipes, ?_, ?_, ?_, ?_⟩
  · simp [enterStage, hv, hx]
  · rw [Table.file_closeAll, if_neg (hkept h₀), hxrest 0 Nat.zero_ne_one, hv₀,
      h.same 0 (hkept h₀)]
  · rw [Table.file_closeAll, if_neg (hkept h₁), hx₁, h.same 1 (hkept h₁)]
  · intro fd hfd
    rw [Table.file_closeAll]
    split_ifs with hmem
    · exact (h.fresh fd hmem).symm
    · rw [hxrest fd (by omega), hvrest fd (by omega), h.same fd hmem]

end Stage

end Pipes

theorem forkStages_children {ok : ℕ → Bool} {child : ℕ → Option (Table (File α))} {k i : ℕ}
    (hok : ∀ j, j < i + k → ok j = true) {j : ℕ} (hj : j < k) :
    (forkStages ok child k i).2[j]? = some (child (i + j)) := by
  induction k generalizing i j with
  | zero => cases hj
  | succ k ih =>
      unfold forkStages
      rw [if_pos (hok i (by omega))]
      cases j with
      | zero => rfl
      | succ j =>
          have hrest := ih (i := i + 1) (fun m hm => hok m (by omega)) (Nat.lt_of_succ_lt_succ hj)
          rw [Nat.add_assoc, Nat.add_comm 1] at hrest
          exact hrest

theorem launch_parent (failure : ℤ) (calls : Calls) (commands : List (List Char))
    (t : Table (File α)) : (launch failure calls commands t).parent = t := by
  have hstart := Table.Opened.refl File.readEnd File.writeEnd t
  unfold launch
  simp only
  cases hpipes : makePipes calls.pipe (commands.length - 1) t [] with
  | error v => exact makePipes_error hstart hpipes
  | ok r => exact (makePipes_ok hstart hpipes).1.closeAll

/-- Besides the two moved ends a stage has only descriptors of the shell. -/
theorem wired_of_files {before : Table α} {n i : ℕ} {c : Table (File α)}
    (hstdin : c.file 0 = if i = 0 then (before.map File.old).file 0
      else some (.readEnd (i - 1)))
    (hstdout : c.file 1 = if i = n - 1 then (before.map File.old).file 1
      else some (.writeEnd i))
    (hrest : ∀ fd, 2 ≤ fd → c.file fd = (before.map File.old).file fd) :
    Wired n i (before.map File.old) c := by
  have hold : ∀ {fd : ℕ} {f : File α}, (before.map File.old).file fd = some f →
      ∃ g, f = .old g := by
    intro fd f hf
    obtain ⟨g, _, hg⟩ := Option.map_eq_some_iff.mp hf
    exact ⟨g, hg.symm⟩
  have hends : ∀ {fd : ℕ} {f : File α}, c.file fd = some f →
      (∃ g, f = .old g) ∨ (fd = 0 ∧ 0 < i ∧ f = .readEnd (i - 1)) ∨ (fd = 1 ∧ f = .writeEnd i) := by
    intro fd f hf
    rcases fd with _ | _ | fd
    · rw [hstdin] at hf
      split_ifs at hf with hzero
      · exact Or.inl (hold hf)
      · exact Or.inr (Or.inl ⟨rfl, Nat.pos_of_ne_zero hzero, (Option.some.inj hf).symm⟩)
    · rw [hstdout] at hf
      split_ifs at hf with hlast
      · exact Or.inl (hold hf)
      · exact Or.inr (Or.inr ⟨rfl, (Option.some.inj hf).symm⟩)
    · rw [hrest _ (by omega)] at hf
      exact Or.inl (hold hf)
  refine ⟨hstdin, hstdout, hrest, ?_, ?_⟩
  · intro fd j hfd
    rcases hends hfd with ⟨g, hg⟩ | ⟨rfl, hpos, hf⟩ | ⟨_, hf⟩
    · cases hg
    · cases hf
      exact ⟨rfl, by omega⟩
    · cases hf
  · intro fd j hfd
    rcases hends hfd with ⟨g, hg⟩ | ⟨_, _, hf⟩ | ⟨rfl, hf⟩
    · cases hg
    · cases hf
    · cases hf
      exact ⟨rfl, rfl⟩

theorem launch_children {calls : Calls} {commands : List (List Char)} {before : Table α}
    (failure : ℤ) (h₀ : before.isOpen 0) (h₁ : before.isOpen 1)
    (hpipe : ∀ i < commands.length - 1, calls.pipe i = true)
    (hfork : ∀ i < commands.length, calls.fork i = true) {i : ℕ} (hi : i < commands.length) :
    ∃ c, (launch failure calls commands (before.map File.old)).children[i]? = some (some c) ∧
      Wired commands.length i (before.map File.old) c := by
  have hopen : ∀ {fd}, before.isOpen fd → (before.map File.old).isOpen fd := by
    intro fd hfd hnone
    exact hfd (Option.map_eq_none_iff.mp hnone)
  have hstart := Table.Opened.refl File.readEnd File.writeEnd (before.map File.old)
  obtain ⟨r, hr⟩ : ∃ r, makePipes calls.pipe (commands.length - 1) (before.map File.old) [] =
      .ok r := makePipes_isOk (by simpa using hpipe) _
  obtain ⟨hopened, hlength⟩ := makePipes_ok hstart hr
  obtain ⟨c, hc, hstdin, hstdout, hrest⟩ :=
    enterStage_spec hopened (by simpa using hlength) hi (hopen h₀) (hopen h₁)
  refine ⟨c, ?_, wired_of_files hstdin hstdout hrest⟩
  unfold launch
  simp only [hr]
  rw [forkStages_children (by simpa using hfork) hi, Nat.zero_add, hc]

/-- Both functions leave the descriptors of the shell as they were, whatever calls
fail, and a stage starts with the ends of its two neighbouring pipes alone. -/
theorem pipeline_wiring (calls : Calls) (raw_line : List Char) (before : Table α)
    (h₀ : before.isOpen 0) (h₁ : before.isOpen 1) :
    (executePipeline calls raw_line (before.map File.old)).parent = before.map File.old ∧
    (executePipelineBg calls raw_line (before.map File.old)).parent = before.map File.old ∧
    ∀ commands, splitCommands raw_line = some commands →
      (∀ i < commands.length - 1, calls.pipe i = true) →
      (∀ i < commands.length, calls.fork i = true) → ∀ i < commands.length,
      (∃ c, (executePipeline calls raw_line (before.map File.old)).children[i]? =
          some (some c) ∧ Wired commands.length i (before.map File.old) c) ∧
      ∃ c, (executePipelineBg calls raw_line (before.map File.old)).children[i]? =
          some (some c) ∧ Wired commands.length i (before.map File.old) c := by
  refine ⟨?_, ?_, ?_⟩
  · unfold executePipeline
    cases splitCommands raw_line with
    | none => rfl
    | some commands => exact launch_parent 0 calls commands _
  · unfold executePipelineBg
    cases splitCommands raw_line with
    | none => rfl
    | some commands => exact launch_parent (-1) calls commands _
  · intro commands hsplit hpipe hfork i hi
    unfold executePipeline executePipelineBg
    rw [hsplit]
    exact ⟨launch_children 0 h₀ h₁ hpipe hfork hi, launch_children (-1) h₀ h₁ hpipe hfork hi⟩

/-- A shell with its three standard descriptors. -/
def terminal : Table Unit where
  file := fun fd => if fd < 3 then some () else none
  bounded := ⟨3, fun _ hfd => if_neg (Nat.not_lt.mpr hfd)⟩

theorem pipeline_wiring_two_stages :
    ∃ c, (executePipeline ⟨fun _ => true, fun _ => true⟩ "a|b".toList
        (terminal.map File.old)).children[1]? = some (some c) ∧
      Wired 2 1 (terminal.map File.old) c :=
  ((pipeline_wiring ⟨fun _ => true, fun _ => true⟩ "a|b".toList terminal
    (Option.some_ne_none ()) (Option.some_ne_none ())).2.2 [['a'], ['b']] (by decide)
    (fun _ _ => rfl) (fun _ _ => rfl) 1 (by decide)).1

end ShellXv6.Shell.PipeWiring
