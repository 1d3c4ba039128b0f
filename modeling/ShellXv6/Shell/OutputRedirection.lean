import Mathlib.Data.List.Induction
import ShellXv6.Lib.Transfer
import ShellXv6.Shell.BackgroundOutput
import ShellXv6.Shell.BuiltinOutput

/-!
# The targets of an output redirection

`setup_output_redirection` opens every target once before the command, and
`distribute_output` opens it again to write what the command has put into the
temporary file.  A target that is named several times is written as often; what it
holds in the end depends on how often it is named behind the last `>`.  What else gets
into the temporary file meanwhile, such as a message of `sigchld_handler`, is written
to the targets too.
-/

namespace ShellXv6.Shell.OutputRedirection

open BackgroundOutput (Contents FileSystem openTarget createTargets)
open Transfer

variable {ι : Type} [DecidableEq ι]

/-! ## The loops of `distribute_output` -/

/-- The block that the temporary file is read into. -/
structure Block where
  capacity : ℕ
  data : List Char

/-- The capacity of the block when it is read into: a full one is doubled. -/
def Block.grown (b : Block) : ℕ :=
  if b.data.length = b.capacity then b.capacity * 2 else b.capacity

def readLoop : Loop Block Char where
  request b _ := b.grown - b.data.length
  accept b part := ⟨b.grown, b.data ++ part⟩

structure OpenFile where
  append : Bool
  content : List Char
  offset : ℕ

def OpenFile.write (f : OpenFile) (part : List Char) : OpenFile :=
  let offset := if f.append then f.content.length else f.offset
  { f with
    content := f.content.take offset ++ part ++ f.content.drop (offset + part.length)
    offset := offset + part.length }

def writeLoop : Loop OpenFile Char where
  request _ n := n
  accept := OpenFile.write

/-- The bytes that the calls of `read` and those of `write` for each target move. -/
structure Calls where
  read : ℕ → ℕ+
  write : ℕ → ℕ → ℕ+

def writeTarget (granted : ℕ → ℕ+) (resolve : Path → ι) (data : List Char) (files : Contents ι)
    (target : OpenMode × Path) : Contents ι :=
  let files := openTarget resolve files target
  let f : OpenFile := ⟨target.1 = .O_APPEND, (files (resolve target.2)).getD [], 0⟩
  Function.update files (resolve target.2)
    (some (writeLoop.run granted data.length f data).content)

def distributeOutput (calls : Calls) (resolve : Path → ι) (targets : List (OpenMode × Path))
    (captured : List Char) (files : Contents ι) : Contents ι :=
  let data := (readLoop.run calls.read captured.length ⟨8192, []⟩ captured).data
  targets.zipIdx.foldl (fun files t => writeTarget (calls.write t.2) resolve data files t.1) files

/-! ## The command -/

/-- The messages of some rounds of `sigchld_handler`. -/
def messages (rounds : List (JobProc × WaitStatus)) : List Char :=
  rounds.flatMap fun x => BuiltinOutput.message x.1 x.2

/-- An external command writes to descriptor 1 itself, a builtin prints to `stdout`.
`execute_external` blocks `SIGCHLD` from `fork` to the end of its wait; the handler may run
before and after. -/
inductive Command
  | external (before : List (JobProc × WaitStatus)) (data : List Char)
      (after : List (JobProc × WaitStatus))
  | builtin (stdout : BuiltinOutput.Stdout) (outputs : List BuiltinOutput.Output)

def Command.output : Command → List Char
  | external _ data _ => data
  | builtin _ outputs => BuiltinOutput.printed outputs

/-- What the temporary file holds after the command. -/
def Command.captured : Command → List Char
  | external before data after => messages before ++ data ++ messages after
  | builtin stdout outputs => (BuiltinOutput.executeSingle stdout outputs).written .captured

/-- No job ends while descriptor 1 leads to the temporary file. -/
def Command.Quiet : Command → Prop
  | external before _ after => ∀ x ∈ before ++ after, x.2.alive ≠ .exited
  | builtin _ outputs => BuiltinOutput.Quiet outputs

/-- The files after `execute_single`, from the set-up of the output on. -/
def executeSingle (calls : Calls) (fs : FileSystem ι) (args : List Path) (command : Command) :
    Contents ι :=
  let output := setupOutputRedirection fs.opens args
  let files := createTargets fs.resolve output.opened fs.content
  if output.status = 1 then
    distributeOutput calls fs.resolve output.opened command.captured files
  else files

/-! ## What the targets should hold -/

def repeated (n : ℕ) (data : List Char) : List Char := (List.replicate n data).flatten

/-- The number of redirections behind the last `>`. -/
def sinceTruncated (modes : List OpenMode) : ℕ :=
  (modes.reverse.takeWhile (· ≠ .O_TRUNC)).length

/-- What a file with these redirections to it should hold. -/
def held (modes : List OpenMode) (data : List Char) (initial : Option (List Char)) :
    Option (List Char) :=
  if modes = [] then initial
  else if .O_TRUNC ∈ modes then some (repeated (1 + sinceTruncated modes) data)
  else some (initial.getD [] ++ repeated modes.length data)

def modesOf (resolve : Path → ι) (targets : List (OpenMode × Path)) (i : ι) : List OpenMode :=
  (targets.filter fun target => resolve target.2 = i).map Prod.fst

/-- Every file holds what the redirections say. -/
def Redirected (calls : Calls) (fs : FileSystem ι) (args : List Path) (command : Command) : Prop :=
  ∀ i, executeSingle calls fs args command i =
    held (modesOf fs.resolve (setupOutputRedirection fs.opens args).opened i) command.output
      (fs.content i)

/-- All that the command prints gets to descriptor 1 while it runs. -/
def Command.Flushed : Command → Prop
  | external _ _ _ => True
  | builtin stdout outputs =>
      (∃ rest, stdout.pending ++ BuiltinOutput.printed outputs =
        BuiltinOutput.printed outputs ++ rest) ∧
        BuiltinOutput.SameLeft stdout (BuiltinOutput.printed outputs)

/-! ## The loops transfer everything -/

theorem readLoop_keeps :
    readLoop.Keeps (fun b : Block => 0 < b.capacity ∧ b.data.length ≤ b.capacity) Block.data where
  asks b n hb _ := by
    change 0 < b.grown - b.data.length
    unfold Block.grown
    split_ifs <;> omega
  inv b n part hb hpart := by
    have hroom : b.data.length ≤ b.grown := by
      unfold Block.grown
      split_ifs <;> omega
    change part.length ≤ b.grown - b.data.length at hpart
    change 0 < b.grown ∧ (b.data ++ part).length ≤ b.grown
    rw [List.length_append]
    refine ⟨?_, by omega⟩
    unfold Block.grown
    split_ifs <;> omega
  view b part _ := rfl

theorem read_captured (granted : ℕ → ℕ+) (captured : List Char) :
    (readLoop.run granted captured.length ⟨8192, []⟩ captured).data = captured :=
  (Loop.run_keeps readLoop_keeps granted (s := ⟨8192, []⟩) ⟨by decide, by simp⟩
    (Nat.le_refl _)).2

def OpenFile.AtEnd (f : OpenFile) : Prop := f.append = true ∨ f.offset = f.content.length

theorem OpenFile.write_of_atEnd {f : OpenFile} (h : f.AtEnd) (part : List Char) :
    f.write part = ⟨f.append, f.content ++ part, f.content.length + part.length⟩ := by
  have hoffset : (if f.append = true then f.content.length else f.offset) = f.content.length := by
    rcases h with h | h
    · rw [if_pos h]
    · rw [h, ite_self]
  rw [OpenFile.write, hoffset, List.take_length, List.drop_of_length_le (Nat.le_add_right _ _),
    List.append_nil]

theorem writeLoop_keeps : writeLoop.Keeps OpenFile.AtEnd OpenFile.content where
  asks _ _ _ hn := hn
  inv f n part hf _ := by
    change (f.write part).AtEnd
    rw [f.write_of_atEnd hf]
    exact Or.inr (List.length_append).symm
  view f part hf := by
    change (f.write part).content = _
    rw [f.write_of_atEnd hf]

/-- However the calls of `write` cut the data, the target gets it as a whole. -/
theorem writeTarget_eq (granted : ℕ → ℕ+) (resolve : Path → ι) (data : List Char)
    (files : Contents ι) {target : OpenMode × Path} (h : target.1 ≠ .O_RDONLY) :
    writeTarget granted resolve data files target =
      BackgroundOutput.writeTarget resolve data files target := by
  have hend : (⟨target.1 = .O_APPEND,
      (openTarget resolve files target (resolve target.2)).getD [], 0⟩ : OpenFile).AtEnd := by
    cases hmode : target.1 with
    | O_RDONLY => exact absurd hmode h
    | O_TRUNC =>
        right
        simp [openTarget, hmode]
    | O_APPEND =>
        left
        simp
  have hcontent := (Loop.run_keeps writeLoop_keeps granted hend (Nat.le_refl data.length)).2
  unfold writeTarget BackgroundOutput.writeTarget
  simp only
  rw [hcontent]

theorem opened_mode {isOp : Path → Bool} {mode : Path → OpenMode}
    {opens : OpenMode → Path → Bool} {P : OpenMode → Prop} (hmode : ∀ arg, P (mode arg))
    (args : List Path) : ∀ t ∈ (setupRedirection isOp mode opens args).opened, P t.1 := by
  fun_induction setupRedirection isOp mode opens args with
  | case1 => exact List.forall_mem_nil _
  | case2 arg => exact List.forall_mem_nil _
  | case3 arg filename rest _ _ s ih => exact List.forall_mem_cons.mpr ⟨hmode arg, ih⟩
  | case4 arg filename => exact List.forall_mem_nil _
  | case5 arg filename rest _ ih => exact ih

theorem output_mode (opens : OpenMode → Path → Bool) (args : List Path) :
    ∀ t ∈ (setupOutputRedirection opens args).opened, t.1 ≠ .O_RDONLY := by
  refine opened_mode (P := fun mode => mode ≠ .O_RDONLY) (fun arg => ?_) args
  split_ifs <;> decide

theorem distributeOutput_eq (calls : Calls) (resolve : Path → ι)
    {targets : List (OpenMode × Path)} (h : ∀ t ∈ targets, t.1 ≠ .O_RDONLY)
    (captured : List Char) (files : Contents ι) :
    distributeOutput calls resolve targets captured files =
      BackgroundOutput.distributeOutput resolve targets captured files := by
  rw [distributeOutput, read_captured]
  generalize 0 = k
  induction targets generalizing files k with
  | nil => rfl
  | cons target targets ih =>
      obtain ⟨hhead, htail⟩ := List.forall_mem_cons.mp h
      rw [List.zipIdx_cons, List.foldl_cons, writeTarget_eq _ _ _ _ hhead]
      exact ih htail _ _

/-! ## One file -/

theorem foldl_update_apply {α β : Type} (place : α → ι) (f : α → β → β) (l : List α)
    (g : ι → β) (i : ι) :
    l.foldl (fun g a => Function.update g (place a) (f a (g (place a)))) g i =
      (l.filter fun a => place a = i).foldl (fun b a => f a b) (g i) := by
  induction l generalizing g with
  | nil => rfl
  | cons a l ih =>
      rw [List.foldl_cons, ih, List.filter_cons]
      by_cases h : place a = i
      · subst h
        rw [Function.update_self, if_pos (decide_eq_true rfl), List.foldl_cons]
      · rw [Function.update_of_ne (Ne.symm h), if_neg (by simpa using h)]

def opened (c : Option (List Char)) (mode : OpenMode) : Option (List Char) :=
  some (if mode = .O_TRUNC then [] else c.getD [])

def written (data : List Char) (c : Option (List Char)) (mode : OpenMode) : Option (List Char) :=
  some ((if mode = .O_TRUNC then [] else c.getD []) ++ data)

theorem createTargets_apply (resolve : Path → ι) (targets : List (OpenMode × Path))
    (files : Contents ι) (i : ι) :
    createTargets resolve targets files i = (modesOf resolve targets i).foldl opened (files i) := by
  rw [modesOf, List.foldl_map]
  exact foldl_update_apply (fun t : OpenMode × Path => resolve t.2) (fun t c => opened c t.1)
    targets files i

theorem distributeOutput_apply (resolve : Path → ι) (targets : List (OpenMode × Path))
    (data : List Char) (files : Contents ι) (i : ι) :
    BackgroundOutput.distributeOutput resolve targets data files i =
      (modesOf resolve targets i).foldl (written data) (files i) := by
  have hwrite : BackgroundOutput.writeTarget resolve data = fun files target =>
      Function.update files (resolve target.2)
        (written data (files (resolve target.2)) target.1) := by
    funext files target i
    by_cases hi : i = resolve target.2
    · rw [hi, BackgroundOutput.writeTarget_self, Function.update_self, written]
    · rw [BackgroundOutput.writeTarget_ne hi, Function.update_of_ne hi]
  rw [BackgroundOutput.distributeOutput, hwrite, modesOf, List.foldl_map]
  exact foldl_update_apply (fun t : OpenMode × Path => resolve t.2)
    (fun t c => written data c t.1) targets files i

theorem repeated_succ (n : ℕ) (data : List Char) :
    repeated (n + 1) data = repeated n data ++ data := by
  rw [repeated, repeated, List.replicate_succ', List.flatten_append, List.flatten_singleton]

/-- Opening the targets loses the content of those that are truncated. -/
theorem foldl_opened {modes : List OpenMode} (h : .O_TRUNC ∉ modes) (c : Option (List Char)) :
    (modes.foldl opened c).getD [] = c.getD [] := by
  induction modes generalizing c with
  | nil => rfl
  | cons mode modes ih =>
      rw [List.mem_cons, not_or] at h
      rw [List.foldl_cons, ih h.2, opened, if_neg (Ne.symm h.1), Option.getD_some]

theorem sinceTruncated_concat (modes : List OpenMode) (mode : OpenMode) :
    sinceTruncated (modes ++ [mode]) =
      if mode = .O_TRUNC then 0 else sinceTruncated modes + 1 := by
  rw [sinceTruncated, sinceTruncated, List.reverse_append, List.reverse_singleton,
    List.singleton_append, List.takeWhile_cons]
  by_cases h : mode = .O_TRUNC
  · simp [h]
  · simp [h]

theorem held_concat (modes : List OpenMode) (mode : OpenMode) (data : List Char)
    (c : Option (List Char)) :
    held (modes ++ [mode]) data c = written data (held modes data c) mode := by
  have hne : modes ++ [mode] ≠ [] := by simp
  unfold written
  by_cases hmode : mode = .O_TRUNC
  · rw [if_pos hmode, held, if_neg hne, if_pos (by simp [hmode]), sinceTruncated_concat,
      if_pos hmode]
    simp [repeated]
  have hmem : .O_TRUNC ∈ modes ++ [mode] ↔ .O_TRUNC ∈ modes := by
    simp [Ne.symm hmode]
  rw [if_neg hmode]
  by_cases htrunc : .O_TRUNC ∈ modes
  · have hmodes : modes ≠ [] := List.ne_nil_of_mem htrunc
    rw [held, held, if_neg hne, if_neg hmodes, if_pos (hmem.mpr htrunc), if_pos htrunc,
      sinceTruncated_concat, if_neg hmode, Option.getD_some, ← Nat.add_assoc, repeated_succ]
  · have hgetD : (held modes data c).getD [] = c.getD [] ++ repeated modes.length data := by
      rw [held, if_neg htrunc]
      split_ifs with hnil
      · simp [hnil, repeated]
      · rfl
    rw [hgetD, held, if_neg hne, if_neg (mt hmem.mp htrunc), List.length_append,
      List.length_singleton, repeated_succ, List.append_assoc]

theorem foldl_written (modes : List OpenMode) (data : List Char) (c : Option (List Char)) :
    modes.foldl (written data) c = held modes data c := by
  induction modes using List.reverseRecOn with
  | nil => rfl
  | append_singleton modes mode ih =>
      rw [List.foldl_append, List.foldl_cons, List.foldl_nil, ih, held_concat]

/-- A file that is opened for every target first and written afterwards. -/
theorem written_after_opened (modes : List OpenMode) (data : List Char) (c : Option (List Char)) :
    modes.foldl (written data) (modes.foldl opened c) = held modes data c := by
  rw [foldl_written, held, held]
  by_cases hnil : modes = []
  · rw [if_pos hnil, if_pos hnil, hnil]
    rfl
  · rw [if_neg hnil, if_neg hnil]
    by_cases htrunc : .O_TRUNC ∈ modes
    · rw [if_pos htrunc, if_pos htrunc]
    · rw [if_neg htrunc, if_neg htrunc, foldl_opened htrunc]

/-! ## All files -/

section

variable {calls : Calls} {fs : FileSystem ι} {args : List Path} {command : Command}

/-- The files hold what is in the temporary file, as often as the redirections say. -/
theorem executeSingle_apply (h : (setupOutputRedirection fs.opens args).status ≠ -1) (i : ι) :
    executeSingle calls fs args command i =
      held (modesOf fs.resolve (setupOutputRedirection fs.opens args).opened i) command.captured
        (fs.content i) := by
  rw [executeSingle]
  by_cases hstatus : (setupOutputRedirection fs.opens args).status = 1
  · rw [if_pos hstatus, distributeOutput_eq _ _ (output_mode _ _), distributeOutput_apply,
      createTargets_apply, written_after_opened]
  · have hnil : (setupOutputRedirection fs.opens args).opened = [] := by
      by_contra hopened
      rw [Setup.status] at h hstatus
      split_ifs at h hstatus
      · exact h rfl
      · exact hstatus rfl
    rw [if_neg hstatus, hnil]
    rfl

theorem repeated_inj {n : ℕ} (hn : 0 < n) {x y : List Char} (h : repeated n x = repeated n y) :
    x = y := by
  obtain ⟨k, rfl⟩ := Nat.exists_eq_succ_of_ne_zero (Nat.ne_of_gt hn)
  have hlen : ∀ z : List Char, (repeated (k + 1) z).length = (k + 1) * z.length := by
    intro z
    simp [repeated, List.length_flatten]
  have hxy : x.length = y.length := by
    refine Nat.eq_of_mul_eq_mul_left hn ?_
    rw [← hlen, ← hlen, h]
  rw [repeated_succ, repeated_succ] at h
  exact (List.append_inj' h hxy).2

theorem held_inj {modes : List OpenMode} (hmodes : modes ≠ []) {x y : List Char}
    {c : Option (List Char)} (h : held modes x c = held modes y c) : x = y := by
  rw [held, held, if_neg hmodes, if_neg hmodes] at h
  split_ifs at h
  · exact repeated_inj (Nat.add_comm _ 1 ▸ Nat.succ_pos _) (Option.some.inj h)
  · exact repeated_inj (List.length_pos_iff.mpr hmodes)
      (List.append_cancel_left (Option.some.inj h))

theorem messages_eq_nil_iff (rounds : List (JobProc × WaitStatus)) :
    messages rounds = [] ↔ ∀ x ∈ rounds, x.2.alive ≠ .exited := by
  simp only [messages, List.flatMap_eq_nil_iff, BuiltinOutput.message_eq_nil_iff]

theorem external_captured_iff (before : List (JobProc × WaitStatus)) (data : List Char)
    (after : List (JobProc × WaitStatus)) :
    messages before ++ data ++ messages after = data ↔
      (Command.external before data after).Quiet := by
  rw [Command.Quiet, List.forall_mem_append, ← messages_eq_nil_iff, ← messages_eq_nil_iff]
  constructor
  · intro h
    have hlen := congrArg List.length h
    rw [List.length_append, List.length_append] at hlen
    exact ⟨List.length_eq_zero_iff.mp (by omega), List.length_eq_zero_iff.mp (by omega)⟩
  · rintro ⟨hbefore, hafter⟩
    rw [hbefore, hafter, List.nil_append, List.append_nil]

theorem captured_eq_iff {command : Command} (hquiet : command.Quiet) :
    command.captured = command.output ↔ command.Flushed := by
  cases command with
  | external before data after =>
      exact iff_of_true ((external_captured_iff before data after).mpr hquiet) trivial
  | builtin stdout outputs =>
      rw [Command.captured, Command.output, BuiltinOutput.captured_eq,
        BuiltinOutput.emitted_of_quiet hquiet]
      exact BuiltinOutput.feed_eq_iff stdout _

/-- Every file holds what the redirections say just when there are none, or the temporary
file holds what the command puts out. -/
theorem redirected_iff (h : (setupOutputRedirection fs.opens args).status ≠ -1) :
    Redirected calls fs args command ↔
      (setupOutputRedirection fs.opens args).opened = [] ∨ command.captured = command.output := by
  rw [Redirected]
  simp only [executeSingle_apply h]
  constructor
  · intro hall
    by_cases hnil : (setupOutputRedirection fs.opens args).opened = []
    · exact Or.inl hnil
    · obtain ⟨target, htarget⟩ := List.exists_mem_of_ne_nil _ hnil
      refine Or.inr (held_inj (fun hmodes => ?_) (hall (fs.resolve target.2)))
      have hfilter := List.map_eq_nil_iff.mp hmodes
      exact List.filter_eq_nil_iff.mp hfilter target htarget (decide_eq_true rfl)
  · rintro (hnil | hcaptured) i
    · rw [hnil]
      rfl
    · rw [hcaptured]

end

def slowCalls : Calls where
  read _ := ⟨1, Nat.one_pos⟩
  write _ _ := ⟨1, Nat.one_pos⟩

end ShellXv6.Shell.OutputRedirection
