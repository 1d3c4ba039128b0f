import Mathlib.Logic.Function.Basic
import ShellXv6.Shell.Redirection

/-!
# The files of a background command

With an output redirection a program writes to a temporary file, and the shell
copies that file to the targets afterwards with `distribute_output`.  In
`execute_single` the shell waits for the program and does so.  The child of
`launch_background_single` becomes the program itself, so there is nobody left to
copy anything: the targets are created or truncated, and stay so.
-/

namespace ShellXv6.Shell.BackgroundOutput

variable {ι : Type} [DecidableEq ι]

abbrev Contents (ι : Type) := ι → Option (List Char)

/-- Paths name files, several of them perhaps the same one; a file need not exist. -/
structure FileSystem (ι : Type) where
  resolve : Path → ι
  /-- The calls of `open` that succeed. -/
  opens : OpenMode → Path → Bool
  content : Contents ι

/-- `open` with `O_WRONLY | O_CREAT` and the flag for the target. -/
def openTarget (resolve : Path → ι) (files : Contents ι) (target : OpenMode × Path) : Contents ι :=
  let old := (files (resolve target.2)).getD []
  Function.update files (resolve target.2) (some (if target.1 = .O_TRUNC then [] else old))

/-- Open a target and write `data` to it. -/
def writeTarget (resolve : Path → ι) (data : List Char) (files : Contents ι)
    (target : OpenMode × Path) : Contents ι :=
  let files := openTarget resolve files target
  Function.update files (resolve target.2) (some ((files (resolve target.2)).getD [] ++ data))

def createTargets (resolve : Path → ι) (targets : List (OpenMode × Path)) (files : Contents ι) :
    Contents ι :=
  targets.foldl (openTarget resolve) files

def distributeOutput (resolve : Path → ι) (targets : List (OpenMode × Path)) (data : List Char)
    (files : Contents ι) : Contents ι :=
  targets.foldl (writeTarget resolve data) files

/-- The standard input of the program: the input files one after the other, or that
of the shell. -/
def stdin (fs : FileSystem ι) (args : List Path) (inherited : List Char) : List Char :=
  let inputs := (setupInputRedirection fs.opens args).opened
  if inputs = [] then inherited
  else inputs.flatMap fun input => (fs.content (fs.resolve input.2)).getD []

/-- The files after `execute_single`, for a program that turns its standard input into
its output. -/
def executeSingle (fs : FileSystem ι) (args : List Path) (inherited : List Char)
    (program : List Char → List Char) : Contents ι :=
  if cleanArgs args = [] then fs.content
  else if (setupInputRedirection fs.opens args).status = -1 then fs.content
  else
    let output := setupOutputRedirection fs.opens args
    let files := createTargets fs.resolve output.opened fs.content
    if output.status = 1 then
      distributeOutput fs.resolve output.opened (program (stdin fs args inherited)) files
    else files

/-- The files after the child of `launch_background_single` has finished.  The output of
the program is in the temporary file, if there is one. -/
def launchBackgroundSingle (fs : FileSystem ι) (args : List Path) : Contents ι :=
  if cleanArgs args = [] then fs.content
  else if (setupInputRedirection fs.opens args).status = -1 then fs.content
  else createTargets fs.resolve (setupOutputRedirection fs.opens args).opened fs.content

/-- The files that the redirections name, also those behind one that cannot be opened. -/
def targets (args : List Path) : List Path :=
  ((setupInputRedirection (fun _ _ => true) args).opened ++
    (setupOutputRedirection (fun _ _ => true) args).opened).map Prod.snd

/-- Every redirection target holds the same after both runs. -/
def SameEffects (fs : FileSystem ι) (args : List Path) (inherited : List Char)
    (program : List Char → List Char) : Prop :=
  ∀ target ∈ targets args,
    launchBackgroundSingle fs args (fs.resolve target) =
      executeSingle fs args inherited program (fs.resolve target)

/-- The program is run with its output redirected. -/
def Redirected (fs : FileSystem ι) (args : List Path) : Prop :=
  cleanArgs args ≠ [] ∧ (setupInputRedirection fs.opens args).status ≠ -1 ∧
    (setupOutputRedirection fs.opens args).status = 1

/-! ## One target -/

section

variable {resolve : Path → ι} {files : Contents ι} {data : List Char}

/-- The length of a file, 0 if there is none. -/
def size (files : Contents ι) (i : ι) : ℕ := ((files i).getD []).length

theorem openTarget_ne {target : OpenMode × Path} {i : ι} (h : i ≠ resolve target.2) :
    openTarget resolve files target i = files i :=
  Function.update_of_ne h ..

theorem writeTarget_ne {target : OpenMode × Path} {i : ι} (h : i ≠ resolve target.2) :
    writeTarget resolve data files target i = files i := by
  rw [writeTarget, Function.update_of_ne h, openTarget_ne h]

theorem writeTarget_self (target : OpenMode × Path) :
    writeTarget resolve data files target (resolve target.2) =
      some ((if target.1 = .O_TRUNC then [] else (files (resolve target.2)).getD []) ++ data) := by
  rw [writeTarget, Function.update_self, openTarget, Function.update_self, Option.getD_some]

theorem size_writeTarget (target : OpenMode × Path) :
    size (writeTarget resolve data files target) (resolve target.2) =
      (if target.1 = .O_TRUNC then 0 else size files (resolve target.2)) + data.length := by
  rw [size, writeTarget_self, Option.getD_some, List.length_append, size]
  split_ifs <;> rfl

theorem le_size_writeTarget {i : ι} (h : data.length ≤ size files i) (target : OpenMode × Path) :
    data.length ≤ size (writeTarget resolve data files target) i := by
  by_cases hi : i = resolve target.2
  · rw [hi, size_writeTarget]
    exact Nat.le_add_left _ _
  · rwa [size, writeTarget_ne hi]

theorem size_le_writeTarget {i : ι} {target : OpenMode × Path}
    (h : resolve target.2 = i → target.1 ≠ .O_TRUNC) :
    size files i ≤ size (writeTarget resolve data files target) i := by
  by_cases hi : i = resolve target.2
  · rw [hi, size_writeTarget, if_neg (h hi.symm)]
    exact Nat.le_add_right _ _
  · apply Nat.le_of_eq
    rw [size, size, writeTarget_ne hi]

/-! ## All targets -/

/-- What one element of a list brings about and no other destroys. -/
theorem foldl_of_mem {α β : Type} {f : β → α → β} {P : β → Prop} (hkeep : ∀ b a, P b → P (f b a))
    {l : List α} {a : α} (ha : a ∈ l) (hnew : ∀ b, P (f b a)) (b : β) : P (l.foldl f b) := by
  obtain ⟨l₁, l₂, rfl⟩ := List.append_of_mem ha
  rw [List.foldl_append, List.foldl_cons]
  exact List.foldlRecOn l₂ f (hnew _) fun b hb a _ => hkeep b a hb

theorem createTargets_exists {ts : List (OpenMode × Path)} {target : OpenMode × Path}
    (h : target ∈ ts) : ∃ c, createTargets resolve ts files (resolve target.2) = some c := by
  refine foldl_of_mem (P := fun b => ∃ c, b (resolve target.2) = some c) ?_ h ?_ files
  · rintro b t ⟨c, hc⟩
    by_cases hi : resolve target.2 = resolve t.2
    · rw [hi, openTarget, Function.update_self]
      exact ⟨_, rfl⟩
    · exact ⟨c, (openTarget_ne hi).trans hc⟩
  · intro b
    rw [openTarget, Function.update_self]
    exact ⟨_, rfl⟩

theorem createTargets_trunc {ts : List (OpenMode × Path)} {target : OpenMode × Path}
    (h : target ∈ ts) (htrunc : target.1 = .O_TRUNC) :
    createTargets resolve ts files (resolve target.2) = some [] := by
  refine foldl_of_mem (P := fun b => b (resolve target.2) = some []) ?_ h ?_ files
  · intro b t hb
    by_cases hi : resolve target.2 = resolve t.2
    · rw [hi] at hb ⊢
      rw [openTarget, Function.update_self, hb, Option.getD_some, ite_self]
    · exact (openTarget_ne hi).trans hb
  · intro b
    rw [openTarget, Function.update_self, if_pos htrunc]

/-- Targets that have been opened do not change when nothing is written to them. -/
theorem distributeOutput_nil (ts : List (OpenMode × Path)) :
    distributeOutput resolve ts [] (createTargets resolve ts files) =
      createTargets resolve ts files := by
  refine List.foldlRecOn (motive := fun b => b = createTargets resolve ts files) ts _ rfl ?_
  rintro b rfl target htarget
  funext i
  by_cases hi : i = resolve target.2
  · obtain ⟨c, hc⟩ : ∃ c, createTargets resolve ts files (resolve target.2) = some c :=
      createTargets_exists htarget
    rw [hi, writeTarget_self, List.append_nil, hc]
    by_cases htrunc : target.1 = .O_TRUNC
    · rw [if_pos htrunc, ← hc, createTargets_trunc htarget htrunc]
    · rw [if_neg htrunc, Option.getD_some]
  · exact writeTarget_ne hi

theorem size_le_distributeOutput {i : ι} {ts : List (OpenMode × Path)}
    (h : ∀ t ∈ ts, resolve t.2 = i → t.1 ≠ .O_TRUNC) :
    size files i ≤ size (distributeOutput resolve ts data files) i := by
  refine List.foldlRecOn (motive := fun b => size files i ≤ size b i) ts _ (Nat.le_refl _) ?_
  intro b hb t ht
  exact Nat.le_trans hb (size_le_writeTarget (h t ht))

theorem add_size_le_distributeOutput {ts : List (OpenMode × Path)} {target : OpenMode × Path}
    (htarget : target ∈ ts)
    (h : ∀ t ∈ ts, resolve t.2 = resolve target.2 → t.1 ≠ .O_TRUNC) :
    size files (resolve target.2) + data.length ≤
      size (distributeOutput resolve ts data files) (resolve target.2) := by
  obtain ⟨l₁, l₂, rfl⟩ := List.append_of_mem htarget
  obtain ⟨h₁, h₂⟩ := List.forall_mem_append.mp h
  obtain ⟨hmode, h₂⟩ := List.forall_mem_cons.mp h₂
  rw [distributeOutput, List.foldl_append, List.foldl_cons]
  refine Nat.le_trans ?_ (size_le_distributeOutput h₂)
  rw [size_writeTarget, if_neg (hmode rfl)]
  exact Nat.add_le_add_right (size_le_distributeOutput h₁) _

theorem size_lt_distributeOutput (resolve : Path → ι) (files : Contents ι)
    {ts : List (OpenMode × Path)} {target : OpenMode × Path} (htarget : target ∈ ts)
    (hdata : data ≠ []) :
    size (createTargets resolve ts files) (resolve target.2) <
      size (distributeOutput resolve ts data (createTargets resolve ts files))
        (resolve target.2) := by
  have hpos : 0 < data.length := List.length_pos_iff.mpr hdata
  by_cases htrunc : ∃ t ∈ ts, resolve t.2 = resolve target.2 ∧ t.1 = .O_TRUNC
  · obtain ⟨t, ht, hi, hmode⟩ := htrunc
    have hcreated : size (createTargets resolve ts files) (resolve target.2) = 0 := by
      rw [← hi, size, createTargets_trunc ht hmode]
      rfl
    rw [hcreated]
    refine Nat.lt_of_lt_of_le hpos ?_
    refine foldl_of_mem (P := fun b => data.length ≤ size b (resolve target.2))
      (fun b t hb => le_size_writeTarget hb t) htarget (fun b => ?_) _
    rw [size_writeTarget]
    exact Nat.le_add_left _ _
  · have hkeep : ∀ t ∈ ts, resolve t.2 = resolve target.2 → t.1 ≠ .O_TRUNC :=
      fun t ht hi hmode => htrunc ⟨t, ht, hi, hmode⟩
    exact Nat.lt_of_lt_of_le (Nat.lt_add_of_pos_right hpos)
      (add_size_le_distributeOutput htarget hkeep)

end

/-! ## Both runs -/

section

variable {fs : FileSystem ι} {args : List Path} {inherited : List Char}
  {program : List Char → List Char}

theorem executeSingle_of_redirected (h : Redirected fs args) :
    executeSingle fs args inherited program =
      distributeOutput fs.resolve (setupOutputRedirection fs.opens args).opened
        (program (stdin fs args inherited)) (launchBackgroundSingle fs args) := by
  obtain ⟨hclean, hinput, houtput⟩ := h
  simp only [executeSingle, launchBackgroundSingle, hclean, hinput, houtput, if_false, if_true]

theorem executeSingle_of_not_redirected (h : ¬Redirected fs args) :
    executeSingle fs args inherited program = launchBackgroundSingle fs args := by
  rw [executeSingle, launchBackgroundSingle]
  by_cases hclean : cleanArgs args = []
  · rw [if_pos hclean, if_pos hclean]
  by_cases hinput : (setupInputRedirection fs.opens args).status = -1
  · rw [if_neg hclean, if_neg hclean, if_pos hinput, if_pos hinput]
  rw [if_neg hclean, if_neg hclean, if_neg hinput, if_neg hinput]
  exact if_neg fun houtput => h ⟨hclean, hinput, houtput⟩

theorem launchBackgroundSingle_of_redirected (h : Redirected fs args) :
    launchBackgroundSingle fs args =
      createTargets fs.resolve (setupOutputRedirection fs.opens args).opened fs.content := by
  rw [launchBackgroundSingle, if_neg h.1, if_neg h.2.1]

theorem opened_subset (isOp : Path → Bool) (mode : Path → OpenMode)
    (opens : OpenMode → Path → Bool) :
    ∀ args : List Path, (setupRedirection isOp mode opens args).opened ⊆
      (setupRedirection isOp mode (fun _ _ => true) args).opened
  | [] => List.nil_subset _
  | [_] => List.nil_subset _
  | arg :: filename :: rest => by
      rw [setupRedirection, setupRedirection]
      by_cases harg : isOp arg = true
      · rw [if_pos harg, if_pos harg, if_pos rfl]
        by_cases hopens : opens (mode arg) filename = true
        · rw [if_pos hopens]
          exact List.cons_subset_cons _ (opened_subset isOp mode opens rest)
        · rw [if_neg hopens]
          exact List.nil_subset _
      · rw [if_neg harg, if_neg harg]
        exact opened_subset isOp mode opens (filename :: rest)

theorem mem_targets_of_output {opens : OpenMode → Path → Bool} {target : OpenMode × Path}
    (h : target ∈ (setupOutputRedirection opens args).opened) : target.2 ∈ targets args := by
  apply List.mem_map_of_mem
  apply List.mem_append_right
  exact opened_subset _ _ _ _ h

theorem opened_of_status {setup : Setup} (h : setup.status = 1) : setup.opened ≠ [] := by
  intro hnil
  rw [Setup.status, hnil, if_pos rfl] at h
  split_ifs at h
  cases h

end

/-- A background command leaves the files of a foreground one just when its output is
not redirected or there is none. -/
theorem same_effects_iff (fs : FileSystem ι) (args : List Path) (inherited : List Char)
    (program : List Char → List Char) :
    SameEffects fs args inherited program ↔
      (Redirected fs args → program (stdin fs args inherited) = []) := by
  by_cases h : Redirected fs args
  · rw [SameEffects, executeSingle_of_redirected h, launchBackgroundSingle_of_redirected h]
    constructor
    · intro hsame _
      by_contra hdata
      obtain ⟨target, htarget⟩ := List.exists_mem_of_ne_nil _ (opened_of_status h.2.2)
      have heq := hsame target.2 (mem_targets_of_output htarget)
      have hlt := size_lt_distributeOutput fs.resolve fs.content htarget hdata
      rw [size, size, ← heq] at hlt
      exact Nat.lt_irrefl _ hlt
    · intro hdata _ _
      rw [hdata h, distributeOutput_nil]
  · rw [SameEffects, executeSingle_of_not_redirected h]
    exact iff_of_true (fun _ _ => rfl) fun hredirected => absurd hredirected h

/-- Each path is a file of its own; there is none in the beginning. -/
def emptyDirectory : FileSystem Path where
  resolve := id
  opens mode _ := mode ≠ .O_RDONLY
  content _ := none

/-- `echo > f`, in the foreground and in the background. -/
theorem background_output_lost :
    executeSingle emptyDirectory ["echo".toList, ['>'], ['f']] [] (fun _ => ['\n']) ['f'] =
        some ['\n'] ∧
      launchBackgroundSingle emptyDirectory ["echo".toList, ['>'], ['f']] ['f'] = some [] := by
  decide

end ShellXv6.Shell.BackgroundOutput
