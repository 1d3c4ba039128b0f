import Mathlib.Data.List.Basic
import ShellXv6.Lib.IntConversion

/-!
# The lexer of the shell

A C string is the list of the bytes before its terminating NUL, each byte
written as the character with its code.  `lexer` runs the loop of `lexer.c` on
its local variables: the state, the index `curr_char` into the line, the part of
`buffer[4096]` that holds the current word, and the tokens appended so far.  A
read outside of the line and a write past the end of `buffer` end the model with
no result; `curr_char` is an `int`, and a line may be longer than that.
-/

namespace ShellXv6.Shell

open IntConversion

inductive TokenType
  | OP_PIPE
  | OP_AMP
  | OP_SEMI
  | OP_LT
  | OP_LTLT
  | OP_GT
  | OP_GTGT
  | WORD
  deriving DecidableEq

structure Token where
  content : List Char
  type : TokenType
  deriving DecidableEq

inductive LexerState
  | START
  | IN_WORD
  | IN_DQUOTE
  | IN_SQUOTE
  | AFTER_ESCAPE
  deriving DecidableEq

/-- The size of `buffer` in `lexer`. -/
def bufferSize : ℕ := 4096

def nul : Char := '\x00'

/-- `line[i]`, where the terminating NUL stands behind the last character.  Nothing is known
about what stands elsewhere. -/
def charAt (line : List Char) (i : ℤ) : Option Char :=
  if 0 ≤ i ∧ i ≤ line.length then some (line.getD i.toNat nul) else none

/-- What `START` skips. -/
def isBlank (c : Char) : Bool := c = ' ' || c = '\t' || c = '\n' || c = '\r'

/-- What ends a word outside quotes. -/
def endsWord (c : Char) : Bool :=
  c = nul || c = ' ' || c = '\t' || c = '\n' || c = '|' || c = '&' || c = ';' || c = '<' || c = '>'

namespace Lexer

/-- What one iteration of the loop does. -/
inductive Action
  /-- Leave the loop. -/
  | stop
  /-- Leave the loop with `*ok = 0`. -/
  | fail
  /-- Go to a state and to the next character. -/
  | goto (s : LexerState)
  /-- Append an operator of `n` characters. -/
  | append (content : String) (type : TokenType) (n : ℕ)
  /-- Write to `buffer`, go to a state and `n` characters further. -/
  | put (s : LexerState) (cs : List Char) (n : ℕ)
  /-- Append the word in `buffer`, go to `START` and stay at the character. -/
  | endWord
  deriving DecidableEq

/-- The body of the loop, for the current character and the one behind it. -/
def action (curr_state : LexerState) (c next_char : Char) : Action :=
  match curr_state with
  | .START =>
      if c = nul then .stop
      else if isBlank c then .goto .START
      else if c = '|' then .append "|" .OP_PIPE 1
      else if c = '&' then .append "&" .OP_AMP 1
      else if c = ';' then .append ";" .OP_SEMI 1
      else if c = '<' then
        if next_char = '<' then .append "<<" .OP_LTLT 2 else .append "<" .OP_LT 1
      else if c = '>' then
        if next_char = '>' then .append ">>" .OP_GTGT 2 else .append ">" .OP_GT 1
      else if c = '"' then .goto .IN_DQUOTE
      else if c = '\'' then .goto .IN_SQUOTE
      else if c = '\\' then .goto .AFTER_ESCAPE
      else .put .IN_WORD [c] 1
  | .IN_WORD =>
      if endsWord c then .endWord
      else if c = '"' then .goto .IN_DQUOTE
      else if c = '\'' then .goto .IN_SQUOTE
      else if c = '\\' then .goto .AFTER_ESCAPE
      else .put .IN_WORD [c] 1
  | .IN_DQUOTE =>
      if c = nul then .fail
      else if c = '"' then .goto .IN_WORD
      else if c = '\\' then
        if next_char = '"' ∨ next_char = '\\' then .put .IN_DQUOTE [next_char] 2
        else if next_char = nul then .fail
        else .put .IN_DQUOTE ['\\', next_char] 2
      else .put .IN_DQUOTE [c] 1
  | .IN_SQUOTE =>
      if c = nul then .fail
      else if c = '\'' then .goto .IN_WORD
      else .put .IN_SQUOTE [c] 1
  | .AFTER_ESCAPE => if c = nul then .fail else .put .IN_WORD [c] 1

/-- The branches that read the next character: `<`, `>` and a backslash inside double quotes. -/
def looksAhead (curr_state : LexerState) (c : Char) : Bool :=
  match curr_state with
  | .START => c = '<' || c = '>'
  | .IN_DQUOTE => c = '\\'
  | _ => false

/-- The local variables of `lexer`; `buffer` is the part below `buf_idx`. -/
structure Vars where
  curr_state : LexerState
  curr_char : ℤ
  buffer : List Char
  tokens : List Token
  ok : Bool
  deriving DecidableEq

/-- `curr_char += n` -/
def Vars.advance (v : Vars) (n : ℕ) : Vars := { v with curr_char := toInt (v.curr_char + n) }

/-- What an iteration leads to. -/
inductive Next
  /-- The loop is left. -/
  | left (v : Vars)
  | again (v : Vars)
  /-- There was a read or a write out of bounds. -/
  | undefined
  deriving DecidableEq

def perform (v : Vars) : Action → Next
  | .stop => .left v
  | .fail => .left { v with ok := false }
  | .goto s => .again { v.advance 1 with curr_state := s }
  | .append content type n =>
      .again { v.advance n with tokens := v.tokens ++ [⟨content.toList, type⟩] }
  | .put s cs n =>
      if v.buffer.length + cs.length ≤ bufferSize then
        .again { v.advance n with curr_state := s, buffer := v.buffer ++ cs }
      else .undefined
  | .endWord =>
      if v.buffer.length < bufferSize then
        .again { v with
          curr_state := .START, buffer := [], tokens := v.tokens ++ [⟨v.buffer, .WORD⟩] }
      else .undefined

/-- The next character, if the iteration looks at it. -/
def nextChar (line : List Char) (v : Vars) (c : Char) : Option Char :=
  if looksAhead v.curr_state c then charAt line (v.advance 1).curr_char else some nul

def chars (line : List Char) (v : Vars) : Option (Char × Char) := do
  let c ← charAt line v.curr_char
  let next_char ← nextChar line v c
  pure (c, next_char)

def iterate (line : List Char) (v : Vars) : Next :=
  match chars line v with
  | some (c, next_char) => perform v (action v.curr_state c next_char)
  | none => .undefined

/-- The code after the loop. -/
def finish (v : Vars) : Option (List Token × Bool) :=
  if v.curr_state = .IN_WORD ∧ 0 < v.buffer.length then
    if v.buffer.length < bufferSize then some (v.tokens ++ [⟨v.buffer, .WORD⟩], v.ok) else none
  else if v.curr_state ≠ .START ∧ v.curr_state ≠ .IN_WORD then some (v.tokens, false)
  else some (v.tokens, v.ok)

def loop (line : List Char) : ℕ → Vars → Option (List Token × Bool)
  | 0, _ => none
  | fuel + 1, v =>
      match iterate line v with
      | .left v => finish v
      | .again v => loop line fuel v
      | .undefined => none

def start : Vars := ⟨.START, 0, [], [], true⟩

end Lexer

/-- The tokens and the flag `ok`.  The loop needs at most two iterations for
each character and one at the end. -/
def lexer (line : List Char) : Option (List Token × Bool) :=
  Lexer.loop line (2 * line.length + 2) Lexer.start

/-- The string that the line is for C. -/
def beforeNul (line : List Char) : List Char := line.takeWhile (· != nul)

end ShellXv6.Shell
