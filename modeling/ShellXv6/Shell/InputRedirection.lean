import ShellXv6.Lib.OutputBuffer
import ShellXv6.Lib.Transfer
import ShellXv6.Shell.BackgroundOutput

/-!
# The standard input of a command

`setup_input_redirection` copies the files of all input redirections into one
temporary file, through the buffer of a stream, and puts that file behind
descriptor 0.  The output targets are opened afterwards, so the copy is of the files
as they were.  A program reads descriptor 0; the builtin `peek` reads the shell's
stream `stdin`, which may hold bytes that were read from the shell's own input.
-/

namespace ShellXv6.Shell.InputRedirection

open BackgroundOutput (Contents FileSystem createTargets)
open OutputBuffer Transfer

variable {ι : Type} [DecidableEq ι]

/-! ## The copy -/

/-- The stream of `tmpfile`: the bytes in the file and those in its buffer. -/
structure Tmp where
  written : List Char
  pending : List Char

def Tmp.content (t : Tmp) : List Char := t.written ++ t.pending

def fwrite (mode : Mode Char) (t : Tmp) (part : List Char) : Tmp :=
  let r := feed mode t.pending part
  ⟨t.written ++ r.1, r.2⟩

def fflush (t : Tmp) : Tmp := ⟨t.content, []⟩

/-- The bytes that the calls of `read` for each file and those of `fwrite` move, and the
mode of the stream. -/
structure Calls where
  mode : Mode Char
  read : ℕ → ℕ → ℕ+
  fwrite : Tmp → ℕ → ℕ+

def fwriteLoop (mode : Mode Char) : Loop Tmp Char where
  request _ n := n
  accept := fwrite mode

/-- The outer loop reads blocks of `COPY_BUFFER_SIZE`. -/
def readLoop (calls : Calls) : Loop Tmp Char where
  request _ _ := 8192
  accept t block := (fwriteLoop calls.mode).run (calls.fwrite t) block.length t block

def copyFile (calls : Calls) (t : Tmp) (file : List Char × ℕ) : Tmp :=
  (readLoop calls).run (calls.read file.2) file.1.length t file.1

def copyFiles (calls : Calls) (files : List (List Char)) : Tmp :=
  files.zipIdx.foldl (copyFile calls) ⟨[], []⟩

/-- An open file, which all its descriptors share. -/
structure OpenFile where
  content : List Char
  offset : ℕ

def OpenFile.unread (f : OpenFile) : List Char := f.content.drop f.offset

/-- `fflush`, `lseek` and `dup2`: the file behind descriptor 0. -/
def rewound (t : Tmp) : OpenFile := ⟨(fflush t).written, 0⟩

/-! ## The command -/

/-- The shell's stream `stdin`.  Its end-of-file indicator is set by a read at the end,
with an empty buffer. -/
structure Stdin where
  buffered : List Char
  eof : Bool
  empty : eof = true → buffered = []

/-- A program reads descriptor 0, `peek` reads the stream. -/
inductive Reader
  | descriptor
  | stream (stdin : Stdin)

def Reader.sees : Reader → List Char → List Char
  | descriptor, unread => unread
  | stream stdin, unread => stdin.buffered ++ if stdin.eof then [] else unread

/-- Where the files stand that the redirections of the input name. -/
def inputs (fs : FileSystem ι) (files : Contents ι) (args : List Path) : List (List Char) :=
  (setupInputRedirection fs.opens args).opened.map fun input =>
    (files (fs.resolve input.2)).getD []

/-- What the command of `execute_single` sees on its standard input, and the files when it
starts, if it is run. -/
def executeSingle (calls : Calls) (fs : FileSystem ι) (args : List Path) (inherited : OpenFile)
    (reader : Reader) : Option (List Char × Contents ι) :=
  let files := fs.content
  if cleanArgs args = [] then none
  else
    let input := setupInputRedirection fs.opens args
    if input.status = -1 then none
    else
      let fd0 :=
        if input.status = 1 then rewound (copyFiles calls (inputs fs files args)) else inherited
      let output := setupOutputRedirection fs.opens args
      let files := createTargets fs.resolve output.opened files
      if output.status = -1 then none else some (reader.sees fd0.unread, files)

/-- The contents that the files of the input redirections had before. -/
def snapshot (fs : FileSystem ι) (args : List Path) : List Char :=
  (inputs fs fs.content args).flatten

/-- The stream has nothing read ahead, and a read is not refused. -/
def Reader.Fresh : Reader → List Char → Prop
  | descriptor, _ => True
  | stream stdin, unread => stdin.buffered = [] ∧ (stdin.eof = false ∨ unread = [])

/-! ## Nothing is lost in the copy -/

theorem content_fwrite (mode : Mode Char) (t : Tmp) (part : List Char) :
    (fwrite mode t part).content = t.content ++ part := by
  rw [fwrite, Tmp.content, Tmp.content, List.append_assoc, feed_append_eq, List.append_assoc]

theorem fwriteLoop_keeps (mode : Mode Char) :
    (fwriteLoop mode).Keeps (fun _ => True) Tmp.content where
  asks _ _ _ hn := hn
  inv _ _ _ _ _ := trivial
  view t part _ := content_fwrite mode t part

theorem readLoop_keeps (calls : Calls) : (readLoop calls).Keeps (fun _ => True) Tmp.content where
  asks _ _ _ _ := (by decide : 0 < 8192)
  inv _ _ _ _ _ := trivial
  view t block _ :=
    (Loop.run_keeps (fwriteLoop_keeps calls.mode) (calls.fwrite t) trivial (Nat.le_refl _)).2

theorem content_copyFile (calls : Calls) (t : Tmp) (file : List Char × ℕ) :
    (copyFile calls t file).content = t.content ++ file.1 :=
  (Loop.run_keeps (readLoop_keeps calls) (calls.read file.2) trivial (Nat.le_refl _)).2

theorem content_copyFiles (calls : Calls) (files : List (List Char)) :
    (copyFiles calls files).content = files.flatten := by
  have hfold : ∀ (l : List (List Char × ℕ)) (t : Tmp),
      (l.foldl (copyFile calls) t).content = t.content ++ (l.map Prod.fst).flatten := by
    intro l
    induction l with
    | nil =>
        intro t
        exact (List.append_nil _).symm
    | cons file l ih =>
        intro t
        rw [List.foldl_cons, ih, content_copyFile, List.map_cons, List.flatten_cons,
          List.append_assoc]
  rw [copyFiles, hfold, List.zipIdx_map_fst]
  rfl

theorem unread_rewound (calls : Calls) (files : List (List Char)) :
    (rewound (copyFiles calls files)).unread = files.flatten :=
  content_copyFiles calls files

theorem sees_iff (reader : Reader) (unread : List Char) :
    reader.sees unread = unread ↔ reader.Fresh unread := by
  cases reader with
  | descriptor => exact iff_of_true rfl trivial
  | stream stdin =>
      rw [Reader.sees, Reader.Fresh]
      cases heof : stdin.eof with
      | false => simp
      | true =>
          rw [stdin.empty heof]
          simp [eq_comm]

def oneFile : FileSystem Path where
  resolve := id
  opens _ _ := true
  content path := if path = ['f'] then some ['x', '\n'] else none

/-- Blocks of one byte through a buffer of four. -/
def slowCalls : Calls where
  mode := ⟨false, fun c => c = '\n', 4, by decide, false⟩
  read _ _ := ⟨1, Nat.one_pos⟩
  fwrite _ _ := ⟨1, Nat.one_pos⟩

end ShellXv6.Shell.InputRedirection
