import Mathlib.Data.Int.Notation
import ShellXv6.Shell.Parser

/-!
# Redirections of a single command

`execute_single` gets the texts of the tokens only.  Its loop and those of
`setup_input_redirection` and `setup_output_redirection` find the operators
again by comparing strings, each on its own.  Every loop has the form "if this
string is an operator of mine, take the next one with it".
-/

namespace ShellXv6.Shell

abbrev Path := List Char

/-- The flags of `open`. -/
inductive OpenMode
  | O_RDONLY
  | O_TRUNC
  | O_APPEND
  deriving DecidableEq

def isInput (arg : Path) : Bool := arg = ['<']

def isOutput (arg : Path) : Bool := arg = ['>'] || arg = ['>', '>']

/-- What the loop of `execute_single` leaves out together with its operand. -/
def isOperator (arg : Path) : Bool := isInput arg || isOutput arg

def cleanArgs : List Path → List Path
  | [] => []
  | [arg] => if isOperator arg then [] else [arg]
  | arg :: next :: rest =>
      if isOperator arg then cleanArgs rest else arg :: cleanArgs (next :: rest)

/-- The files opened in turn, and whether the result is -1. -/
structure Setup where
  opened : List (OpenMode × Path)
  failed : Bool
  deriving DecidableEq

/-- The result of a setup function. -/
def Setup.status (s : Setup) : ℤ := if s.failed then -1 else if s.opened = [] then 0 else 1

/-- The loop of both setup functions; `opens` says which calls of `open` succeed. -/
def setupRedirection (isOp : Path → Bool) (mode : Path → OpenMode)
    (opens : OpenMode → Path → Bool) : List Path → Setup
  | [] => ⟨[], false⟩
  | [arg] => ⟨[], isOp arg⟩
  | arg :: filename :: rest =>
      if isOp arg then
        if opens (mode arg) filename then
          let s := setupRedirection isOp mode opens rest
          ⟨(mode arg, filename) :: s.opened, s.failed⟩
        else ⟨[], true⟩
      else setupRedirection isOp mode opens (filename :: rest)

def setupInputRedirection (opens : OpenMode → Path → Bool) (args : List Path) : Setup :=
  setupRedirection isInput (fun _ => .O_RDONLY) opens args

def setupOutputRedirection (opens : OpenMode → Path → Bool) (args : List Path) : Setup :=
  setupRedirection isOutput (fun arg => if arg = ['>'] then .O_TRUNC else .O_APPEND) opens args

/-- What `execute_single` opens, and the arguments the command gets if it runs. -/
structure SingleRun where
  inputs : List (OpenMode × Path)
  outputs : List (OpenMode × Path)
  passed : Option (List Path)
  deriving DecidableEq

def executeSingle (opens : OpenMode → Path → Bool) (args : List Path) : SingleRun :=
  let clean_args := cleanArgs args
  if clean_args.length = 0 then ⟨[], [], none⟩
  else
    let input := setupInputRedirection opens args
    if input.status = -1 then ⟨input.opened, [], none⟩
    else
      let output := setupOutputRedirection opens args
      if output.status = -1 then ⟨input.opened, output.opened, none⟩
      else ⟨input.opened, output.opened, some clean_args⟩

/-! ## What the tokens ask for -/

/-- The words that do not directly follow a redirection; `after` says whether
one stands in front. -/
def argWords (after : Bool) : List Token → List Path
  | [] => []
  | t :: ts =>
      if t.type.isRedirection then argWords true ts
      else if after then argWords false ts
      else t.content :: argWords false ts

/-- The words that directly follow a redirection of a chosen kind. -/
def targets (chosen : TokenType → Bool) (after : Bool) : List Token → List Path
  | [] => []
  | t :: ts =>
      if t.type.isRedirection then targets chosen (chosen t.type) ts
      else if after then t.content :: targets chosen false ts
      else targets chosen false ts

def TokenType.isInput (type : TokenType) : Bool := type = .OP_LT || type = .OP_LTLT

def TokenType.isOutput (type : TokenType) : Bool := type = .OP_GT || type = .OP_GTGT

/-- The command gets its argument words, and the files opened are the targets. -/
def RedirectsAsWritten (seg : List Token) (run : SingleRun) : Prop :=
  run.passed = some (argWords false seg) ∧
    run.inputs.map Prod.snd = targets TokenType.isInput false seg ∧
    run.outputs.map Prod.snd = targets TokenType.isOutput false seg

instance (seg : List Token) (run : SingleRun) : Decidable (RedirectsAsWritten seg run) :=
  inferInstanceAs (Decidable (_ ∧ _ ∧ _))

/-! ## The loops, one string at a time -/

theorem cleanArgs_cons (arg : Path) (rest : List Path) :
    cleanArgs (arg :: rest) =
      if isOperator arg then cleanArgs rest.tail else arg :: cleanArgs rest := by
  cases rest <;> simp [cleanArgs]

theorem isOperator_of_mem_cleanArgs (args : List Path) :
    ∀ w ∈ cleanArgs args, isOperator w = false := by
  fun_induction cleanArgs args with
  | case1 => exact List.forall_mem_nil _
  | case2 arg h => exact List.forall_mem_nil _
  | case3 arg h => exact List.forall_mem_singleton.mpr (Bool.eq_false_iff.mpr h)
  | case4 arg next rest h ih => exact ih
  | case5 arg next rest h ih => exact List.forall_mem_cons.mpr ⟨Bool.eq_false_iff.mpr h, ih⟩

/-- The operands a loop takes when every file can be opened; none if the last
operator has no operand. -/
def operands (isOp : Path → Bool) : List Path → Option (List Path)
  | [] => some []
  | [arg] => if isOp arg then none else some []
  | arg :: filename :: rest =>
      if isOp arg then (operands isOp rest).map (filename :: ·)
      else operands isOp (filename :: rest)

theorem operands_of_not {isOp : Path → Bool} {arg : Path} (h : isOp arg = false)
    (rest : List Path) :
    operands isOp (arg :: rest) = operands isOp rest := by
  cases rest <;> simp [operands, h]

theorem operands_eq_some {isOp : Path → Bool} {arg : Path} (h : isOp arg = true)
    {rest l : List Path} :
    operands isOp (arg :: rest) = some l ↔
      ∃ f l', rest.head? = some f ∧ operands isOp rest.tail = some l' ∧ l = f :: l' := by
  cases rest with
  | nil => simp [operands, h]
  | cons f rest =>
      simp only [operands, h, if_true, Option.map_eq_some_iff, List.head?_cons, List.tail_cons]
      constructor
      · rintro ⟨l', hl', rfl⟩
        exact ⟨f, l', rfl, hl', rfl⟩
      · rintro ⟨f', l', hf, hl', rfl⟩
        cases hf
        exact ⟨l', hl', rfl⟩

theorem operands_cons_cases {isOp : Path → Bool} {arg : Path} {rest l : List Path}
    (h : operands isOp (arg :: rest) = some l) :
    (isOp arg = true ∧
        ∃ f l', rest.head? = some f ∧ operands isOp rest.tail = some l' ∧ l = f :: l') ∨
      isOp arg = false ∧ operands isOp rest = some l := by
  cases harg : isOp arg with
  | true => exact Or.inl ⟨rfl, (operands_eq_some harg).mp h⟩
  | false => exact Or.inr ⟨rfl, operands_of_not harg rest ▸ h⟩

theorem setupRedirection_eq_operands (isOp : Path → Bool) (mode : Path → OpenMode)
    {opens : OpenMode → Path → Bool} (hopens : ∀ m f, opens m f = true) (args l : List Path) :
    (setupRedirection isOp mode opens args).failed = false ∧
        (setupRedirection isOp mode opens args).opened.map Prod.snd = l ↔
      operands isOp args = some l := by
  fun_induction setupRedirection isOp mode opens args generalizing l with
  | case1 => simp [operands]
  | case2 arg => cases h : isOp arg <;> simp [operands, h]
  | case3 arg filename rest harg _ s ih =>
      simp only [operands, harg, if_true, Option.map_eq_some_iff, List.map_cons]
      constructor
      · rintro ⟨hfailed, rfl⟩
        exact ⟨_, (ih _).mp ⟨hfailed, rfl⟩, rfl⟩
      · rintro ⟨l', hl', rfl⟩
        obtain ⟨hfailed, hopened⟩ := (ih l').mpr hl'
        exact ⟨hfailed, by rw [hopened]⟩
  | case4 arg filename _ _ hno => exact absurd (hopens _ _) hno
  | case5 arg filename rest harg ih =>
      rw [ih, operands_of_not (Bool.eq_false_iff.mpr harg)]

theorem setupInputRedirection_eq_operands {opens : OpenMode → Path → Bool}
    (hopens : ∀ m f, opens m f = true) (args l : List Path) :
    (setupInputRedirection opens args).failed = false ∧
        (setupInputRedirection opens args).opened.map Prod.snd = l ↔
      operands isInput args = some l :=
  setupRedirection_eq_operands isInput _ hopens args l

theorem setupOutputRedirection_eq_operands {opens : OpenMode → Path → Bool}
    (hopens : ∀ m f, opens m f = true) (args l : List Path) :
    (setupOutputRedirection opens args).failed = false ∧
        (setupOutputRedirection opens args).opened.map Prod.snd = l ↔
      operands isOutput args = some l :=
  setupRedirection_eq_operands isOutput _ hopens args l

theorem Setup.status_eq_neg_one (s : Setup) : s.status = -1 ↔ s.failed = true := by
  obtain ⟨opened, failed⟩ := s
  cases failed <;> simp [Setup.status]
  split_ifs <;> decide

/-- With all files at hand the run is what the three loops say. -/
theorem redirectsAsWritten_iff {opens : OpenMode → Path → Bool} (hopens : ∀ m f, opens m f = true)
    (seg : List Token) (args : List Path) (hwords : argWords false seg ≠ []) :
    RedirectsAsWritten seg (executeSingle opens args) ↔
      cleanArgs args = argWords false seg ∧
        operands isInput args = some (targets TokenType.isInput false seg) ∧
        operands isOutput args = some (targets TokenType.isOutput false seg) := by
  rw [← setupInputRedirection_eq_operands hopens, ← setupOutputRedirection_eq_operands hopens]
  simp only [RedirectsAsWritten, executeSingle, Setup.status_eq_neg_one, List.length_eq_zero_iff]
  by_cases hclean : cleanArgs args = []
  · simp [hclean, hwords.symm]
  · rw [if_neg hclean]
    cases (setupInputRedirection opens args).failed with
    | true => simp
    | false =>
        cases (setupOutputRedirection opens args).failed with
        | true => simp
        | false => simp

end ShellXv6.Shell
