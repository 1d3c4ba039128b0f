import Mathlib.Logic.Function.Basic
import ShellXv6.Lib.OutputBuffer
import ShellXv6.Shell.Jobs

/-!
# The output of builtins

A builtin prints to the stream `stdout` of the process it runs in.
`execute_single` and `execute_command` switch descriptor 1 under that stream and
back again, but the bytes go to the descriptor only when the stream writes them.
What is still in the buffer when the builtin returns comes out on the shell's own
output, or is lost in `_exit`.

In the shell itself `sigchld_handler` may run meanwhile.  It writes its message about a
job that has ended straight to descriptor 1, wherever that leads.
-/

namespace ShellXv6.Shell.BuiltinOutput

open OutputBuffer Jobs

/-- What descriptor 1 stands for: the output the process was started with, or the
temporary file of `setup_output_redirection`. -/
inductive Target
  | own
  | captured
  deriving DecidableEq

/-- The stream `stdout` at the start of a command. -/
structure Stdout where
  mode : Mode Char
  pending : List Char
  room : pending.length ≤ mode.capacity

structure State where
  pending : List Char
  fd : Target
  written : Target → List Char

def start (o : Stdout) : State := ⟨o.pending, .own, fun _ => []⟩

/-- What happens while a builtin runs. -/
inductive Output
  | printf (text : List Char)
  /-- A round of `sigchld_handler` that finds the entry of the process. -/
  | handler (proc : JobProc) (status : WaitStatus)

def Output.printed : Output → List Char
  | .printf text => text
  | .handler _ _ => []

/-- The message of the handler. -/
def message (proc : JobProc) (status : WaitStatus) : List Char :=
  ((exitMessage proc status).map String.toList).getD []

def Output.message : Output → List Char
  | .printf _ => []
  | .handler proc status => BuiltinOutput.message proc status

/-- All that the builtin prints. -/
def printed (outputs : List Output) : List Char := outputs.flatMap Output.printed

def write (s : State) (bytes : List Char) : State :=
  { s with written := Function.update s.written s.fd (s.written s.fd ++ bytes) }

def output (mode : Mode Char) (s : State) : Output → State
  | .printf text =>
      let r := feed mode s.pending text
      write { s with pending := r.2 } r.1
  | .handler proc status => write s (message proc status)

def builtin (mode : Mode Char) (s : State) (outputs : List Output) : State :=
  outputs.foldl (output mode) s

def dup2 (s : State) (target : Target) : State := { s with fd := target }

/-- `execute_single` for a builtin and at least one output target. -/
def executeSingle (o : Stdout) (outputs : List Output) : State :=
  let s := dup2 (start o) .captured
  let s := builtin o.mode s outputs
  dup2 s .own

/-- `execute_command` for a builtin; `redirected` says whether there is an output
target.  The stage of a pipeline has no jobs, so that its handler writes nothing. -/
def executeCommand (o : Stdout) (redirected : Bool) (texts : List (List Char)) : State :=
  let s := if redirected then dup2 (start o) .captured else start o
  let s := builtin o.mode s (texts.map .printf)
  let s := dup2 s .own
  -- `_exit` does not write the buffer.
  { s with pending := [] }

/-- The printed bytes are in the file for `distribute_output`, and the shell's own
output gets what it would have got without the command. -/
def Captured (o : Stdout) (outputs : List Output) : Prop :=
  (executeSingle o outputs).written .captured = printed outputs ∧
    (executeSingle o outputs).written .own ++ (executeSingle o outputs).pending = o.pending

/-- The stage of a pipeline has written the printed bytes to its output. -/
def Delivered (o : Stdout) (redirected : Bool) (texts : List (List Char)) : Prop :=
  (executeCommand o redirected texts).written (if redirected then .captured else .own) =
    texts.flatten

/-- As many bytes are left in the buffer as there were before. -/
def SameLeft (o : Stdout) (text : List Char) : Prop :=
  o.mode.left (sinceNewline o.mode o.pending.length text) = o.pending.length

/-- The handler finds no process that has ended. -/
def Quiet (outputs : List Output) : Prop :=
  ∀ proc status, .handler proc status ∈ outputs → status.alive ≠ .exited

/-! ## What the builtin and the handler write -/

theorem message_eq_nil_iff (proc : JobProc) (status : WaitStatus) :
    message proc status = [] ↔ status.alive ≠ .exited := by
  cases status <;> simp [message, exitMessage, WaitStatus.alive, String.toList_append]

theorem quiet_iff (outputs : List Output) : Quiet outputs ↔ ∀ x ∈ outputs, x.message = [] := by
  constructor
  · intro h x hx
    cases x with
    | printf text => rfl
    | handler proc status => exact (message_eq_nil_iff proc status).mpr (h proc status hx)
  · intro h proc status hx
    exact (message_eq_nil_iff proc status).mp (h _ hx)

theorem printed_cons (x : Output) (xs : List Output) :
    printed (x :: xs) = x.printed ++ printed xs :=
  List.flatMap_cons

theorem printed_map_printf (texts : List (List Char)) :
    printed (texts.map .printf) = texts.flatten := by
  rw [printed, List.flatMap_map]
  exact List.flatMap_id

theorem quiet_map_printf (texts : List (List Char)) : Quiet (texts.map .printf) := by
  intro proc status h
  simp at h

/-- What gets to descriptor 1. -/
def emitted (mode : Mode Char) (pending : List Char) : List Output → List Char
  | [] => []
  | x :: xs =>
      (feed mode pending x.printed).1 ++ x.message ++
        emitted mode (feed mode pending x.printed).2 xs

theorem output_eq (mode : Mode Char) (s : State) (x : Output) :
    output mode s x = write { s with pending := (feed mode s.pending x.printed).2 }
      ((feed mode s.pending x.printed).1 ++ x.message) := by
  cases x with
  | printf text => exact congrArg (write _) (List.append_nil _).symm
  | handler proc status => rfl

theorem builtin_eq (mode : Mode Char) (s : State) (outputs : List Output) :
    builtin mode s outputs =
      write { s with pending := (feed mode s.pending (printed outputs)).2 }
        (emitted mode s.pending outputs) := by
  induction outputs generalizing s with
  | nil => simp [builtin, printed, emitted, feed, write]
  | cons x xs ih =>
      rw [builtin, List.foldl_cons, ← builtin, ih, output_eq, printed_cons, feed_append, emitted]
      simp [write]

/-- The messages come on top of what the stream writes. -/
theorem length_emitted (mode : Mode Char) (pending : List Char) (outputs : List Output) :
    (emitted mode pending outputs).length =
      (feed mode pending (printed outputs)).1.length + (outputs.flatMap Output.message).length := by
  induction outputs generalizing pending with
  | nil => rfl
  | cons x xs ih =>
      simp only [emitted, printed_cons, List.flatMap_cons, feed_append, List.length_append, ih]
      omega

theorem emitted_of_quiet {outputs : List Output} (h : Quiet outputs) (mode : Mode Char)
    (pending : List Char) :
    emitted mode pending outputs = (feed mode pending (printed outputs)).1 := by
  rw [quiet_iff] at h
  induction outputs generalizing pending with
  | nil => rfl
  | cons x xs ih =>
      obtain ⟨hx, hxs⟩ := List.forall_mem_cons.mp h
      rw [emitted, hx, List.append_nil, ih hxs, printed_cons, feed_append]

theorem length_left (o : Stdout) (text : List Char) :
    (feed o.mode o.pending text).2.length =
      o.mode.left (sinceNewline o.mode o.pending.length text) :=
  length_feed o.mode (left_of_le o.room).symm text

/-! ## Where the output goes -/

theorem captured_eq (o : Stdout) (outputs : List Output) :
    (executeSingle o outputs).written .captured = emitted o.mode o.pending outputs := by
  simp [executeSingle, builtin_eq, dup2, start, write]

theorem captured_iff (o : Stdout) (outputs : List Output) :
    Captured o outputs ↔ Quiet outputs ∧
      o.pending ++ printed outputs = printed outputs ++ o.pending ∧
      SameLeft o (printed outputs) := by
  have hkept := feed_append_eq o.mode o.pending (printed outputs)
  have hown : (executeSingle o outputs).written .own ++ (executeSingle o outputs).pending =
      (feed o.mode o.pending (printed outputs)).2 := by
    simp [executeSingle, builtin_eq, dup2, start, write]
  rw [Captured, captured_eq, hown, SameLeft, ← length_left]
  constructor
  · rintro ⟨hcaptured, hleft⟩
    -- the messages would make the file longer than what is printed
    have hquiet : Quiet outputs := by
      have hlen := congrArg List.length hkept
      have hsum := length_emitted o.mode o.pending outputs
      rw [List.length_append, List.length_append, hleft] at hlen
      rw [hcaptured] at hsum
      have hnil : outputs.flatMap Output.message = [] := List.length_eq_zero_iff.mp (by omega)
      exact (quiet_iff outputs).mpr (List.flatMap_eq_nil_iff.mp hnil)
    rw [emitted_of_quiet hquiet] at hcaptured
    rw [← hkept, hcaptured, hleft]
    exact ⟨hquiet, rfl, rfl⟩
  · rintro ⟨hquiet, hcomm, hlen⟩
    rw [hcomm] at hkept
    rw [emitted_of_quiet hquiet]
    exact List.append_inj' hkept hlen

theorem feed_eq_iff (o : Stdout) (text : List Char) :
    (feed o.mode o.pending text).1 = text ↔
      (∃ rest, o.pending ++ text = text ++ rest) ∧ SameLeft o text := by
  have hkept := feed_append_eq o.mode o.pending text
  have hlen := congrArg List.length hkept
  rw [List.length_append, List.length_append] at hlen
  rw [SameLeft, ← length_left]
  constructor
  · intro h
    rw [h] at hkept hlen
    exact ⟨⟨_, hkept.symm⟩, by omega⟩
  · rintro ⟨⟨rest, hrest⟩, hleft⟩
    rw [hrest] at hkept
    exact (List.append_inj hkept (by omega)).1

theorem delivered_iff (o : Stdout) (redirected : Bool) (texts : List (List Char)) :
    Delivered o redirected texts ↔
      (∃ rest, o.pending ++ texts.flatten = texts.flatten ++ rest) ∧
        SameLeft o texts.flatten := by
  have hemitted : emitted o.mode o.pending (texts.map .printf) =
      (feed o.mode o.pending texts.flatten).1 := by
    rw [emitted_of_quiet (quiet_map_printf texts), printed_map_printf]
  rw [← feed_eq_iff, ← hemitted]
  cases redirected <;> simp [Delivered, executeCommand, builtin_eq, dup2, start, write]

/-- A stream to a file, with nothing in its buffer. -/
def toFile : Stdout where
  mode := ⟨false, fun c => c = '\n', 4096, by decide, false⟩
  pending := []
  room := by decide

end ShellXv6.Shell.BuiltinOutput
