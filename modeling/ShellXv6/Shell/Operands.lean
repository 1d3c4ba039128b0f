import ShellXv6.Shell.Redirection

/-!
# When the loops agree with the tokens

A command is a list of items, each a word or an operator with its target.  A
loop that takes a target for an operator, or fails to see one, goes on one string
out of step with the items.  It may fall into step again later, so the argument
counts: what a loop collects out of step is too long, or has an operator where a
target should be.
-/

namespace ShellXv6.Shell

inductive Item
  | word (w : Path)
  | lt (f : Path)
  | ltlt (f : Path)
  /-- `>`, or `>>` to append. -/
  | gt (append : Bool) (f : Path)
  deriving DecidableEq

namespace Item

def gtText (append : Bool) : Path := if append then ['>', '>'] else ['>']

def tokens : Item → List Token
  | word w => [⟨w, .WORD⟩]
  | lt f => [⟨['<'], .OP_LT⟩, ⟨f, .WORD⟩]
  | ltlt f => [⟨['<', '<'], .OP_LTLT⟩, ⟨f, .WORD⟩]
  | gt append f => [⟨gtText append, if append then .OP_GTGT else .OP_GT⟩, ⟨f, .WORD⟩]

/-- The strings of a command. -/
def strings : List Item → List Path
  | [] => []
  | word w :: xs => w :: strings xs
  | lt f :: xs => ['<'] :: f :: strings xs
  | ltlt f :: xs => ['<', '<'] :: f :: strings xs
  | gt append f :: xs => gtText append :: f :: strings xs

def words : List Item → List Path
  | [] => []
  | word w :: xs => w :: words xs
  | lt _ :: xs => words xs
  | ltlt _ :: xs => words xs
  | gt _ _ :: xs => words xs

def inputs : List Item → List Path
  | [] => []
  | word _ :: xs => inputs xs
  | lt f :: xs => f :: inputs xs
  | ltlt f :: xs => f :: inputs xs
  | gt _ _ :: xs => inputs xs

def outputs : List Item → List Path
  | [] => []
  | word _ :: xs => outputs xs
  | lt _ :: xs => outputs xs
  | ltlt _ :: xs => outputs xs
  | gt _ f :: xs => f :: outputs xs

/-- No string but the operators looks like one where it would be taken for one. -/
def Visible : Item → Prop
  | word w => isOperator w = false
  | lt f => isOutput f = false
  | ltlt _ => False
  | gt _ f => isInput f = false

end Item

open Item

theorem isInput_lt : isInput ['<'] = true := rfl

theorem isInput_ltlt : isInput ['<', '<'] = false := rfl

theorem isInput_gtText (append : Bool) : isInput (gtText append) = false := by
  cases append <;> rfl

theorem isOutput_lt : isOutput ['<'] = false := rfl

theorem isOutput_ltlt : isOutput ['<', '<'] = false := rfl

theorem isOutput_gtText (append : Bool) : isOutput (gtText append) = true := by
  cases append <;> rfl

theorem isOperator_eq_false {w : Path} :
    isOperator w = false ↔ isInput w = false ∧ isOutput w = false := by
  simp [isOperator]

theorem isInput_of_isOperator {f : Path} (h : isOperator f = true) (hf : isOutput f = false) :
    isInput f = true := by
  simpa [isOperator, hf] using h

theorem isOperator_of_isInput {f : Path} (h : isInput f = true) : isOperator f = true := by
  simp [isOperator, h]

theorem cleanArgs_skip {arg : Path} (h : isOperator arg = true) (rest : List Path) :
    cleanArgs (arg :: rest) = cleanArgs rest.tail := by
  rw [cleanArgs_cons, if_pos h]

theorem cleanArgs_operator {arg : Path} (h : isOperator arg = true) (f : Path) (rest : List Path) :
    cleanArgs (arg :: f :: rest) = cleanArgs rest :=
  cleanArgs_skip h _

theorem cleanArgs_word {arg : Path} (h : isOperator arg = false) (rest : List Path) :
    cleanArgs (arg :: rest) = arg :: cleanArgs rest := by
  rw [cleanArgs_cons, if_neg (Bool.eq_false_iff.mp h)]

theorem isOperator_gtText (append : Bool) : isOperator (gtText append) = true := by
  cases append <;> rfl

/-! ## The arguments -/

theorem length_words_le {xs : List Item} (h : ∀ w ∈ words xs, isOperator w = false) :
    (words xs).length ≤ (cleanArgs (strings xs)).length ∧
      (words xs).length ≤ (cleanArgs (strings xs).tail).length + 1 := by
  induction xs with
  | nil => exact ⟨Nat.zero_le _, Nat.zero_le _⟩
  | cons x xs ih =>
      have htarget : (∀ w ∈ words xs, isOperator w = false) → ∀ f,
          (words xs).length ≤ (cleanArgs (f :: strings xs)).length + 1 := by
        intro hws f
        obtain ⟨hin, hout⟩ := ih hws
        rw [cleanArgs_cons]
        split_ifs
        · exact hout
        · rw [List.length_cons]
          omega
      cases x with
      | word w =>
          obtain ⟨hw, hws⟩ := List.forall_mem_cons.mp h
          obtain ⟨hin, -⟩ := ih hws
          simp only [strings, words, cleanArgs_word hw, List.tail_cons, List.length_cons]
          omega
      | lt f => exact ⟨(ih h).1, htarget h f⟩
      | ltlt f => exact ⟨htarget h f, htarget h f⟩
      | gt append f =>
          refine ⟨?_, htarget h f⟩
          rw [strings, cleanArgs_operator (isOperator_gtText append)]
          exact (ih h).1

/-- Bounds for a loop in step and for one out of step give one for a loop that may
take the string in front for an operator. -/
theorem length_le_of_operands_cons {op : Path → Bool} {args : List Path} {m : ℕ}
    (hin : ∀ l, operands op args = some l → m ≤ l.length)
    (hout : ∀ l, operands op args.tail = some l → m ≤ l.length + 1) {f : Path} {l : List Path}
    (hl : operands op (f :: args) = some l) : m ≤ l.length := by
  rcases operands_cons_cases hl with ⟨-, s, l', -, hl', rfl⟩ | ⟨-, hl⟩
  · exact hout l' hl'
  · exact hin l hl

/-! ## The outputs -/

theorem length_outputs_le {xs : List Item} (h : ∀ w ∈ words xs, isOutput w = false)
    (l : List Path) :
    (operands isOutput (strings xs) = some l → (outputs xs).length ≤ l.length) ∧
      (operands isOutput (strings xs).tail = some l → (outputs xs).length ≤ l.length + 1) := by
  induction xs generalizing l with
  | nil => exact ⟨fun _ => Nat.zero_le _, fun _ => Nat.zero_le _⟩
  | cons x xs ih =>
      have htarget : (∀ w ∈ words xs, isOutput w = false) → ∀ f,
          operands isOutput (f :: strings xs) = some l → (outputs xs).length ≤ l.length := by
        intro hws f
        exact length_le_of_operands_cons (fun l => (ih hws l).1) fun l => (ih hws l).2
      cases x with
      | word w =>
          obtain ⟨hw, hws⟩ := List.forall_mem_cons.mp h
          rw [strings, operands_of_not hw]
          exact ⟨(ih hws l).1, fun hl => Nat.le_succ_of_le ((ih hws l).1 hl)⟩
      | lt f =>
          rw [strings, operands_of_not isOutput_lt]
          exact ⟨htarget h f, fun hl => Nat.le_succ_of_le (htarget h f hl)⟩
      | ltlt f =>
          rw [strings, operands_of_not isOutput_ltlt]
          exact ⟨htarget h f, fun hl => Nat.le_succ_of_le (htarget h f hl)⟩
      | gt append f =>
          rw [strings, operands_eq_some (isOutput_gtText append)]
          refine ⟨?_, fun hl => Nat.succ_le_succ (htarget h f hl)⟩
          rintro ⟨s, l', -, hl', rfl⟩
          exact Nat.succ_le_succ ((ih h l').1 hl')

/-- Out of step, the loop for outputs opens too much, or an operator. -/
theorem outputs_ne {xs : List Item} (h : ∀ w ∈ words xs, isOutput w = false) {s : Path}
    {l : List Path} (hs : (strings xs).head? = some s)
    (hl : operands isOutput (strings xs).tail = some l) : s :: l ≠ outputs xs := by
  induction xs generalizing s l with
  | nil => cases hs
  | cons x xs ih =>
      have htarget : (∀ w ∈ words xs, isOutput w = false) → ∀ f,
          operands isOutput (f :: strings xs) = some l → s :: l ≠ outputs xs := by
        intro hws f hl heq
        have hcount := length_outputs_le hws
        have hle := length_le_of_operands_cons (fun l => (hcount l).1) (fun l => (hcount l).2) hl
        rw [← heq, List.length_cons] at hle
        exact Nat.not_succ_le_self _ hle
      cases x with
      | word w =>
          obtain ⟨-, hws⟩ := List.forall_mem_cons.mp h
          intro heq
          have hlen := congrArg List.length heq
          have := (length_outputs_le hws l).1 hl
          simp only [List.length_cons, outputs] at hlen
          omega
      | lt f => exact htarget h f hl
      | ltlt f => exact htarget h f hl
      | gt append f =>
          obtain rfl : gtText append = s := Option.some.inj hs
          intro heq
          obtain ⟨rfl, hrest⟩ := List.cons.inj heq
          obtain ⟨s', l', hs', hl', rfl⟩ := (operands_eq_some (isOutput_gtText append)).mp hl
          exact ih h hs' hl' hrest

/-- The loop for outputs opens its targets only if it takes no other target for
an operator. -/
theorem isOutput_of_outputs {xs : List Item} (h : ∀ w ∈ words xs, isOutput w = false)
    (hout : operands isOutput (strings xs) = some (outputs xs)) :
    ∀ f ∈ inputs xs, isOutput f = false := by
  induction xs with
  | nil => exact List.forall_mem_nil _
  | cons x xs ih =>
      have htarget : (∀ w ∈ words xs, isOutput w = false) → ∀ f,
          operands isOutput (f :: strings xs) = some (outputs xs) →
            ∀ g ∈ f :: inputs xs, isOutput g = false := by
        intro hws f hl
        rcases operands_cons_cases hl with ⟨-, s, l, hs, hl, heq⟩ | ⟨hf, hl⟩
        · exact absurd heq.symm (outputs_ne hws hs hl)
        · exact List.forall_mem_cons.mpr ⟨hf, ih hws hl⟩
      cases x with
      | word w =>
          obtain ⟨hw, hws⟩ := List.forall_mem_cons.mp h
          rw [strings, operands_of_not hw] at hout
          exact ih hws hout
      | lt f => exact htarget h f (operands_of_not isOutput_lt _ ▸ hout)
      | ltlt f => exact htarget h f (operands_of_not isOutput_ltlt _ ▸ hout)
      | gt append f =>
          obtain ⟨s, l, -, hl, heq⟩ := (operands_eq_some (isOutput_gtText append)).mp hout
          rw [← (List.cons.inj heq).2] at hl
          exact ih h hl

/-! ## The inputs -/

/-- A loop of `execute_single` that is out of step behind `<<` has taken the
target for an operator. -/
theorem isOperator_of_shift {xs : List Item} (hwords : ∀ w ∈ words xs, isOperator w = false)
    {f : Path} (heq : ['<', '<'] :: cleanArgs (f :: strings xs) = words xs) :
    isOperator f = true ∧ ['<', '<'] :: cleanArgs (strings xs).tail = words xs := by
  cases hf : isOperator f with
  | true =>
      rw [cleanArgs_skip hf] at heq
      exact ⟨rfl, heq⟩
  | false =>
      have hle := (length_words_le hwords).1
      rw [cleanArgs_word hf] at heq
      rw [← heq] at hle
      simp only [List.length_cons] at hle
      omega

/-- Behind a target that is an input operator, the loop for inputs opens one more. -/
theorem length_lt_of_operands_cons (args : List Path) {m : ℕ}
    (hout : ∀ l, operands isInput args.tail = some l → m ≤ l.length) {f : Path}
    (hf : isInput f = true) {l : List Path} (hl : operands isInput (f :: args) = some l) :
    m + 1 ≤ l.length := by
  obtain ⟨s, l', -, hl', rfl⟩ := (operands_eq_some hf).mp hl
  exact Nat.succ_le_succ (hout l' hl')

/-- The second part is for a loop of `execute_single` that is out of step, as it
is behind `<<` with an operator for a target. -/
theorem length_inputs_le {xs : List Item} (hwords : ∀ w ∈ words xs, isOperator w = false)
    (hinputs : ∀ f ∈ inputs xs, isOutput f = false) :
    (cleanArgs (strings xs) = words xs → ∀ l,
      (operands isInput (strings xs) = some l → (inputs xs).length ≤ l.length) ∧
        (operands isInput (strings xs).tail = some l → (inputs xs).length ≤ l.length + 1)) ∧
    (['<', '<'] :: cleanArgs (strings xs).tail = words xs → ∀ l,
      (operands isInput (strings xs) = some l → (inputs xs).length ≤ l.length) ∧
        (operands isInput (strings xs).tail = some l → (inputs xs).length ≤ l.length)) := by
  induction xs with
  | nil => exact ⟨fun _ _ => ⟨fun _ => Nat.zero_le _, fun _ => Nat.zero_le _⟩, nofun⟩
  | cons x xs ih =>
      cases x with
      | word w =>
          obtain ⟨hw, hws⟩ := List.forall_mem_cons.mp hwords
          rw [strings, cleanArgs_word hw, operands_of_not (isOperator_eq_false.mp hw).1]
          refine ⟨fun hclean l => ?_, fun hclean l => ?_⟩ <;>
            have hcount := ((ih hws hinputs).1 (List.cons.inj hclean).2 l).1
          · exact ⟨hcount, fun hl => Nat.le_succ_of_le (hcount hl)⟩
          · exact ⟨hcount, hcount⟩
      | lt f =>
          obtain ⟨hf, hfs⟩ := List.forall_mem_cons.mp hinputs
          have hws : ∀ w ∈ words xs, isOperator w = false := hwords
          obtain ⟨hin, hout⟩ := ih hws hfs
          rw [strings, cleanArgs_operator rfl]
          refine ⟨fun hclean l => ⟨?_, fun hl => ?_⟩, fun hclean l => ?_⟩
          · exact length_lt_of_operands_cons (f :: strings xs) (fun l => (hin hclean l).1)
              isInput_lt
          · exact Nat.succ_le_succ (length_le_of_operands_cons (fun l => (hin hclean l).1)
              (fun l => (hin hclean l).2) hl)
          · obtain ⟨hop, hclean⟩ := isOperator_of_shift hws hclean
            exact ⟨length_lt_of_operands_cons (f :: strings xs) (fun l => (hout hclean l).1)
                isInput_lt,
              length_lt_of_operands_cons _ (fun l => (hout hclean l).2)
                (isInput_of_isOperator hop hf)⟩
      | ltlt f =>
          obtain ⟨hf, hfs⟩ := List.forall_mem_cons.mp hinputs
          have hws : ∀ w ∈ words xs, isOperator w = false := hwords
          obtain ⟨-, hout⟩ := ih hws hfs
          have htarget : ['<', '<'] :: cleanArgs (f :: strings xs) = words xs → ∀ l,
              operands isInput (f :: strings xs) = some l →
                (inputs (ltlt f :: xs)).length ≤ l.length := by
            intro hclean l
            obtain ⟨hop, hclean⟩ := isOperator_of_shift hws hclean
            exact length_lt_of_operands_cons _ (fun l => (hout hclean l).2)
              (isInput_of_isOperator hop hf)
          rw [strings, cleanArgs_word rfl, operands_of_not isInput_ltlt]
          refine ⟨fun hclean l => ⟨htarget hclean l, fun hl => ?_⟩, fun hclean l => ?_⟩
          · exact Nat.le_succ_of_le (htarget hclean l hl)
          · exact ⟨htarget hclean l, htarget hclean l⟩
      | gt append f =>
          have hws : ∀ w ∈ words xs, isOperator w = false := hwords
          obtain ⟨hin, hout⟩ := ih hws hinputs
          rw [strings, cleanArgs_operator (isOperator_gtText append),
            operands_of_not (isInput_gtText append)]
          refine ⟨fun hclean l => ?_, fun hclean l => ?_⟩
          · have htarget := length_le_of_operands_cons (fun l => (hin hclean l).1)
              (fun l => (hin hclean l).2) (f := f) (l := l)
            exact ⟨htarget, fun hl => Nat.le_succ_of_le (htarget hl)⟩
          · obtain ⟨-, hclean⟩ := isOperator_of_shift hws hclean
            have htarget := length_le_of_operands_cons (fun l => (hout hclean l).1)
              (fun l hl => Nat.le_succ_of_le ((hout hclean l).2 hl)) (f := f) (l := l)
            exact ⟨htarget, htarget⟩

/-- Out of step, the loop for inputs opens too much, or an operator. -/
theorem inputs_ne {xs : List Item} (hwords : ∀ w ∈ words xs, isOperator w = false)
    (hinputs : ∀ f ∈ inputs xs, isOutput f = false) (hclean : cleanArgs (strings xs) = words xs)
    {s : Path} {l : List Path} (hs : (strings xs).head? = some s)
    (hl : operands isInput (strings xs).tail = some l) : s :: l ≠ inputs xs := by
  induction xs generalizing s l with
  | nil => cases hs
  | cons x xs ih =>
      cases x with
      | word w =>
          obtain ⟨hw, hws⟩ := List.forall_mem_cons.mp hwords
          rw [strings, cleanArgs_word hw] at hclean
          intro heq
          have hlen := congrArg List.length heq
          have := ((length_inputs_le hws hinputs).1 (List.cons.inj hclean).2 l).1 hl
          simp only [List.length_cons, inputs] at hlen
          omega
      | lt f =>
          obtain ⟨-, hfs⟩ := List.forall_mem_cons.mp hinputs
          rw [strings, cleanArgs_operator rfl] at hclean
          obtain rfl : ['<'] = s := Option.some.inj hs
          intro heq
          obtain ⟨rfl, hrest⟩ := List.cons.inj heq
          obtain ⟨s', l', hs', hl', rfl⟩ := (operands_eq_some isInput_lt).mp hl
          exact ih hwords hfs hclean hs' hl' hrest
      | ltlt f =>
          obtain rfl : ['<', '<'] = s := Option.some.inj hs
          intro heq
          obtain ⟨rfl, -⟩ := List.cons.inj heq
          rw [strings, cleanArgs_word rfl, cleanArgs_word rfl] at hclean
          have hws : ∀ w ∈ words xs, isOperator w = false := hwords
          have hlen := congrArg List.length hclean
          have := (length_words_le hws).1
          simp only [List.length_cons, words] at hlen
          omega
      | gt append f =>
          rw [strings, cleanArgs_operator (isOperator_gtText append)] at hclean
          intro heq
          have hws : ∀ w ∈ words xs, isOperator w = false := hwords
          have hfs : ∀ f ∈ inputs xs, isOutput f = false := hinputs
          have hcount := (length_inputs_le hws hfs).1 hclean
          have hle := length_le_of_operands_cons (fun l => (hcount l).1) (fun l => (hcount l).2) hl
          have hlen := congrArg List.length heq
          simp only [List.length_cons, inputs] at hlen
          omega

/-- Behind `<<` with the target `<`, the loop for inputs can only keep up if the
arguments get too many. -/
theorem length_words_le_of_inputs {xs : List Item} (hwords : ∀ w ∈ words xs, isOperator w = false)
    (hinputs : ∀ f ∈ inputs xs, isOutput f = false) {s : Path} {l : List Path}
    (hs : (strings xs).head? = some s) (hl : operands isInput (strings xs).tail = some l)
    (heq : s :: l = ['<'] :: inputs xs) :
    (words xs).length ≤ (cleanArgs (strings xs).tail).length := by
  obtain ⟨rfl, rfl⟩ := List.cons.inj heq
  clear heq
  induction xs with
  | nil => cases hs
  | cons x xs ih =>
      cases x with
      | word w =>
          obtain rfl : w = ['<'] := Option.some.inj hs
          cases (List.forall_mem_cons.mp hwords).1
      | lt f =>
          obtain ⟨hf, hfs⟩ := List.forall_mem_cons.mp hinputs
          have hws : ∀ w ∈ words xs, isOperator w = false := hwords
          rw [strings, List.tail_cons] at hl ⊢
          rcases operands_cons_cases hl with ⟨hop, s', l', hs', hl', heq⟩ | ⟨hno, -⟩
          · obtain ⟨rfl, rfl⟩ := List.cons.inj heq
            have hf' : f = ['<'] := by simpa [isInput] using hop
            rw [cleanArgs_skip (isOperator_of_isInput hop)]
            exact ih hws hfs (hf' ▸ hs') hl'
          · rw [cleanArgs_word (isOperator_eq_false.mpr ⟨hno, hf⟩)]
            exact Nat.le_succ_of_le (length_words_le hws).1
      | ltlt f => cases hs
      | gt append f => cases append <;> cases hs

/-! ## Agreement -/

theorem visible_of_agree {xs : List Item} (hclean : cleanArgs (strings xs) = words xs)
    (hin : operands isInput (strings xs) = some (inputs xs))
    (hinputs : ∀ f ∈ inputs xs, isOutput f = false) : ∀ x ∈ xs, x.Visible := by
  have hwords : ∀ w ∈ words xs, isOperator w = false := hclean ▸ isOperator_of_mem_cleanArgs _
  induction xs with
  | nil => exact List.forall_mem_nil _
  | cons x xs ih =>
      refine List.forall_mem_cons.mpr ?_
      cases x with
      | word w =>
          obtain ⟨hw, hws⟩ := List.forall_mem_cons.mp hwords
          rw [strings, cleanArgs_word hw] at hclean
          rw [strings, operands_of_not (isOperator_eq_false.mp hw).1] at hin
          exact ⟨hw, ih (List.cons.inj hclean).2 hin hinputs hws⟩
      | lt f =>
          obtain ⟨hf, hfs⟩ := List.forall_mem_cons.mp hinputs
          rw [strings, cleanArgs_operator rfl] at hclean
          obtain ⟨s, l, -, hl, heq⟩ := (operands_eq_some isInput_lt).mp hin
          rw [← (List.cons.inj heq).2] at hl
          exact ⟨hf, ih hclean hl hfs hwords⟩
      | ltlt f =>
          obtain ⟨hf, hfs⟩ := List.forall_mem_cons.mp hinputs
          have hws : ∀ w ∈ words xs, isOperator w = false := hwords
          rw [strings, cleanArgs_word rfl] at hclean
          rw [strings, operands_of_not isInput_ltlt] at hin
          have hlen := congrArg List.length hclean
          exfalso
          rcases operands_cons_cases hin with ⟨hop, s, l, hs, hl, heq⟩ | ⟨hno, -⟩
          · have hf' : f = ['<'] := by simpa [isInput] using hop
            rw [hf', inputs] at heq
            have := length_words_le_of_inputs hws hfs hs hl heq.symm
            rw [cleanArgs_skip (isOperator_of_isInput hop)] at hlen
            simp only [List.length_cons, words] at hlen
            omega
          · have := (length_words_le hws).1
            rw [cleanArgs_word (isOperator_eq_false.mpr ⟨hno, hf⟩)] at hlen
            simp only [List.length_cons, words] at hlen
            omega
      | gt append f =>
          rw [strings, cleanArgs_operator (isOperator_gtText append)] at hclean
          rw [strings, operands_of_not (isInput_gtText append)] at hin
          rcases operands_cons_cases hin with ⟨-, s, l, hs, hl, heq⟩ | ⟨hno, hl⟩
          · have hws : ∀ w ∈ words xs, isOperator w = false := hwords
            exact absurd heq.symm (inputs_ne hws hinputs hclean hs hl)
          · exact ⟨hno, ih hclean hl hinputs hwords⟩

theorem agree_of_visible {xs : List Item} (h : ∀ x ∈ xs, x.Visible) :
    cleanArgs (strings xs) = words xs ∧ operands isInput (strings xs) = some (inputs xs) ∧
      operands isOutput (strings xs) = some (outputs xs) := by
  induction xs with
  | nil => exact ⟨rfl, rfl, rfl⟩
  | cons x xs ih =>
      obtain ⟨hx, hxs⟩ := List.forall_mem_cons.mp h
      obtain ⟨hclean, hin, hout⟩ := ih hxs
      cases x with
      | word w =>
          obtain ⟨hwin, hwout⟩ := isOperator_eq_false.mp hx
          simp only [strings, cleanArgs_word hx, operands_of_not hwin, operands_of_not hwout]
          exact ⟨by rw [hclean]; rfl, hin, hout⟩
      | lt f =>
          simp only [strings]
          rw [cleanArgs_operator rfl, operands_of_not isOutput_lt, operands_of_not hx]
          exact ⟨hclean, by simp [operands, isInput_lt, hin, inputs], hout⟩
      | ltlt f => exact hx.elim
      | gt append f =>
          simp only [strings]
          rw [cleanArgs_operator (isOperator_gtText append),
            operands_of_not (isInput_gtText append), operands_of_not hx]
          exact ⟨hclean, hin, by simp [operands, isOutput_gtText, hout, outputs]⟩

/-- The three loops find the items just when every item is visible. -/
theorem agree_iff (xs : List Item) :
    (cleanArgs (strings xs) = words xs ∧ operands isInput (strings xs) = some (inputs xs) ∧
      operands isOutput (strings xs) = some (outputs xs)) ↔ ∀ x ∈ xs, x.Visible := by
  constructor
  · rintro ⟨hclean, hin, hout⟩
    have hwords : ∀ w ∈ words xs, isOperator w = false := hclean ▸ isOperator_of_mem_cleanArgs _
    refine visible_of_agree hclean hin (isOutput_of_outputs ?_ hout)
    exact fun w hw => (isOperator_eq_false.mp (hwords w hw)).2
  · exact agree_of_visible

/-! ## The items of a segment -/

theorem exists_item {t : Token} (ht : ∃ r, Span t r) (htype : t.type.isRedirection = true)
    (f : Path) : ∃ x : Item, x.tokens = [t, ⟨f, .WORD⟩] := by
  obtain ⟨r, hspan⟩ := ht
  cases hspan with
  | operator hop _ =>
      simp only [operators, List.mem_cons, List.not_mem_nil, or_false] at hop
      rcases hop with rfl | rfl | rfl | rfl | rfl | rfl | rfl
      · cases htype
      · cases htype
      · cases htype
      · exact ⟨lt f, rfl⟩
      · exact ⟨ltlt f, rfl⟩
      · exact ⟨gt false f, rfl⟩
      · exact ⟨gt true f, rfl⟩
  | word hword _ _ _ =>
      rw [hword] at htype
      cases htype

theorem exists_items {seg : List Token} (hspan : ∀ t ∈ seg, ∃ r, Span t r)
    (hdelim : ∀ t ∈ seg, t.type.isDelim = false) (hpipe : ∀ t ∈ seg, t.type ≠ .OP_PIPE) :
    (Grammar.loop .q_arg seg = .q_arg → ∃ xs : List Item, seg = xs.flatMap tokens) ∧
      (Grammar.loop .q_tgt seg = .q_arg → ∃ (f : Path) (xs : List Item),
        seg = ⟨f, .WORD⟩ :: xs.flatMap tokens) := by
  induction seg with
  | nil => exact ⟨fun _ => ⟨[], rfl⟩, nofun⟩
  | cons t ts ih =>
      obtain ⟨ht, hts⟩ := List.forall_mem_cons.mp hspan
      obtain ⟨hdt, hdts⟩ := List.forall_mem_cons.mp hdelim
      obtain ⟨hpt, hpts⟩ := List.forall_mem_cons.mp hpipe
      obtain ⟨harg, htgt⟩ := ih hts hdts hpts
      rw [Grammar.loop_cons, Grammar.loop_cons]
      obtain ⟨content, type⟩ := t
      by_cases hword : type = .WORD
      · subst hword
        refine ⟨fun hrun => ?_, fun hrun => ?_⟩
        · obtain ⟨xs, rfl⟩ := harg hrun
          exact ⟨word content :: xs, rfl⟩
        · obtain ⟨xs, rfl⟩ := harg hrun
          exact ⟨content, xs, rfl⟩
      · have htype : type.isRedirection = true := by
          cases type <;> simp_all [TokenType.isRedirection, TokenType.isDelim]
        refine ⟨fun hrun => ?_, fun hrun => ?_⟩
        · have hstep : Grammar.step .q_arg type = .q_tgt := by simp [Grammar.step, hword, htype]
          rw [hstep] at hrun
          obtain ⟨f, xs, rfl⟩ := htgt hrun
          obtain ⟨x, hx⟩ := exists_item ht htype f
          exact ⟨x :: xs, by rw [List.flatMap_cons, hx]; rfl⟩
        · have hstep : Grammar.step .q_tgt type = .q_error := by simp [Grammar.step, hword]
          rw [hstep, Grammar.loop_error] at hrun
          cases hrun

theorem map_content_items (xs : List Item) :
    (xs.flatMap tokens).map Token.content = strings xs := by
  induction xs with
  | nil => rfl
  | cons x xs ih => cases x <;> simp [tokens, strings, ih]

theorem argWords_items (xs : List Item) : argWords false (xs.flatMap tokens) = words xs := by
  induction xs with
  | nil => rfl
  | cons x xs ih =>
      cases x with
      | gt append f => cases append <;> simp [tokens, argWords, words, TokenType.isRedirection, ih]
      | _ => simp [tokens, argWords, words, TokenType.isRedirection, ih]

theorem inputs_items (xs : List Item) :
    targets TokenType.isInput false (xs.flatMap tokens) = inputs xs := by
  induction xs with
  | nil => rfl
  | cons x xs ih =>
      cases x with
      | gt append f =>
          cases append <;>
            simp [tokens, targets, inputs, TokenType.isRedirection, TokenType.isInput, ih]
      | _ => simp [tokens, targets, inputs, TokenType.isRedirection, TokenType.isInput, ih]

theorem outputs_items (xs : List Item) :
    targets TokenType.isOutput false (xs.flatMap tokens) = outputs xs := by
  induction xs with
  | nil => rfl
  | cons x xs ih =>
      cases x with
      | gt append f =>
          cases append <;>
            simp [tokens, targets, outputs, TokenType.isRedirection, TokenType.isOutput, ih]
      | _ => simp [tokens, targets, outputs, TokenType.isRedirection, TokenType.isOutput, ih]

/-- No token is `<<`, and no word stands where a loop takes it for an operator. -/
def OperatorsVisible (seg : List Token) : Prop :=
  (∀ t ∈ seg, t.type ≠ .OP_LTLT) ∧ (∀ w ∈ argWords false seg, isOperator w = false) ∧
    (∀ f ∈ targets TokenType.isInput false seg, isOutput f = false) ∧
    ∀ f ∈ targets TokenType.isOutput false seg, isInput f = false

instance (seg : List Token) : Decidable (OperatorsVisible seg) :=
  inferInstanceAs (Decidable (_ ∧ _ ∧ _ ∧ _))

theorem operatorsVisible_items (xs : List Item) :
    OperatorsVisible (xs.flatMap tokens) ↔ ∀ x ∈ xs, x.Visible := by
  rw [OperatorsVisible, argWords_items, inputs_items, outputs_items]
  induction xs with
  | nil => simp [words, inputs, outputs]
  | cons x xs ih =>
      rw [List.forall_mem_cons, ← ih]
      cases x with
      | gt append f =>
          cases append <;> simp [tokens, words, inputs, outputs, Visible] <;> tauto
      | _ => simp [tokens, words, inputs, outputs, Visible] <;> tauto

/-- A single command whose files can all be opened runs as written just when its
operators are visible to the loops. -/
theorem single_redirects_iff {line : List Char} {toks : List Token}
    (hlex : lexer line = some (toks, true)) (hparse : parser toks = 0) {seg : Segment}
    (hseg : seg ∈ segments toks) (hne : seg.tokens ≠ [])
    (hpipe : segmentHasPipe seg.tokens = false) {opens : OpenMode → Path → Bool}
    (hopens : ∀ m f, opens m f = true) :
    RedirectsAsWritten seg.tokens (executeSingle opens (seg.tokens.map Token.content)) ↔
      OperatorsVisible seg.tokens := by
  obtain ⟨hrun, hdelim, -⟩ := Grammar.segment_command hparse hseg hne
  have hspan := Grammar.segment_span hlex hparse hseg hne
  have hpipes : ∀ t ∈ seg.tokens, t.type ≠ .OP_PIPE := by
    simpa [segmentHasPipe] using hpipe
  -- The automaton takes the first word of a command as it takes a target.
  have htgt : Grammar.loop .q_tgt seg.tokens = .q_arg := by
    obtain ⟨t, ts, hts⟩ := List.exists_cons_of_ne_nil hne
    rw [hts, Grammar.loop_cons] at hrun ⊢
    exact hrun
  obtain ⟨w, xs, hxs⟩ := (exists_items hspan hdelim hpipes).2 htgt
  have hitems : seg.tokens = (word w :: xs).flatMap tokens := hxs
  rw [hitems, operatorsVisible_items, ← agree_iff, map_content_items,
    redirectsAsWritten_iff hopens _ _ (by rw [argWords_items]; exact List.cons_ne_nil _ _),
    argWords_items, inputs_items, outputs_items]

/-- `cat < in > out` runs as written. -/
theorem single_redirects_plain :
    ∃ toks, lexer "cat < in > out".toList = some (toks, true) ∧
      RedirectsAsWritten toks (executeSingle (fun _ _ => true) (toks.map Token.content)) := by
  let toks : List Token := [⟨"cat".toList, .WORD⟩, ⟨['<'], .OP_LT⟩, ⟨"in".toList, .WORD⟩,
    ⟨['>'], .OP_GT⟩, ⟨"out".toList, .WORD⟩]
  have hlex : lexer "cat < in > out".toList = some (toks, true) := by decide
  have hseg : (⟨toks, false⟩ : Segment) ∈ segments toks := by decide
  refine ⟨toks, hlex, ?_⟩
  exact (single_redirects_iff hlex (by decide) hseg (by decide) (by decide) fun _ _ => rfl).mpr
    (by decide)

/-- In `echo ">" out` the quoted word is taken for an operator. -/
theorem not_redirectsAsWritten_quoted :
    ∃ toks, lexer "echo \">\" out".toList = some (toks, true) ∧ parser toks = 0 ∧
      ⟨toks, false⟩ ∈ segments toks ∧ segmentHasPipe toks = false ∧
      ¬RedirectsAsWritten toks (executeSingle (fun _ _ => true) (toks.map Token.content)) := by
  refine ⟨[⟨"echo".toList, .WORD⟩, ⟨['>'], .WORD⟩, ⟨"out".toList, .WORD⟩], ?_⟩
  decide

end ShellXv6.Shell
