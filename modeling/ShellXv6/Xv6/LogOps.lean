import ShellXv6.Lib.IntConversion
import ShellXv6.Lib.Monitor
import ShellXv6.Xv6.Log
import Mathlib.Data.Finset.Card

/-!
# Operations on the log

The file system calls of a running kernel are the threads of a monitor under `log.lock`.
An operation is `begin_op`, some changes of blocks with `log_write`, and `end_op`; the last
one to end commits for all.  The writes of a commit happen without the lock, each of them
in a step of its own.  Buffers of the cache that nobody refers to may be dropped at any time.
The cache always has a buffer more here: that `bget` panics when all are pinned is no
matter of the log.
-/

namespace ShellXv6.Xv6.Log

open CrashDisk IntConversion Monitor

/-- `struct log`, the buffer cache and the disk. -/
structure Fs where
  lh : List ℕ
  outstanding : ℕ
  committing : Bool
  ncommit : ℤ
  /-- The contents of the block, if there is a valid buffer for it. -/
  cache : ℕ → Option Block
  refcnt : ℕ → ℕ
  /-- The sleep lock of the buffer is held. -/
  locked : ℕ → Bool
  disk : Disk
  panicked : Option String

/-- After `initlog`. -/
def boot (d : Disk) : Fs :=
  ⟨[], 0, false, 0, fun _ => none, fun _ => 0, fun _ => false, d, none⟩

/-- What `bread` returns. -/
def Fs.view (f : Fs) (b : ℕ) : Block := (f.cache b).getD (f.disk b)

/-- `bwrite` -/
def Fs.write (f : Fs) (w : Write) : Fs := { f with disk := w.exec f.disk }

/-- Where a call is. -/
inductive Pc
  | beginOp (ws : List (ℕ × Block))
  | body (ws : List (ℕ × Block))
  | logWrite (b : ℕ) (ws : List (ℕ × Block))
  | commit
  | writeLog (tail : ℕ)
  | writeHead
  | install (tail : ℕ)
  | clearHead
  | endCommit
  | sync
  | syncWait (n : ℤ)
  | evict (b : ℕ)

inductive Event
  | began
  | stored (b : ℕ) (v : Block)
  | ended
  | committed
  | syncBegan
  | synced

/-- Everybody sleeps on `&log`. -/
abbrev LogTurn := Turn Fs Unit Pc Unit Event

def panic (f : Fs) (msg : String) : LogTurn := ⟨{ f with panicked := some msg }, [], [], .left ()⟩

/-- One round of the loop of `begin_op`. -/
def beginOp (ws : List (ℕ × Block)) (f : Fs) : LogTurn :=
  if f.committing then ⟨f, [], [], .asleep () (.beginOp ws)⟩
  else if f.lh.length + (f.outstanding + 1) * MAXOPBLOCKS > LOGBLOCKS then
    ⟨f, [], [], .asleep () (.beginOp ws)⟩
  else ⟨{ f with outstanding := f.outstanding + 1 }, [], [.began], .ready (.body ws)⟩

def Fs.store (f : Fs) (b : ℕ) (v : Block) : Fs :=
  { f with
    cache := Function.update f.cache b (some v)
    refcnt := Function.update f.refcnt b (f.refcnt b + 1)
    locked := Function.update f.locked b true }

/-- `bread`, and a change of the data of the buffer. -/
def store (b : ℕ) (v : Block) (ws : List (ℕ × Block)) (f : Fs) : Option LogTurn :=
  if f.locked b then none
  else some ⟨f.store b v, [], [.stored b v], .ready (.logWrite b ws)⟩

/-- The list and the pins after `log_write`, and `brelse`. -/
def Fs.log (f : Fs) (b : ℕ) : Fs :=
  { f with
    lh := if b ∈ f.lh then f.lh else f.lh ++ [b]
    refcnt := Function.update f.refcnt b
      ((if b ∈ f.lh then f.refcnt b else f.refcnt b + 1) - 1)
    locked := Function.update f.locked b false }

def logWrite (b : ℕ) (ws : List (ℕ × Block)) (f : Fs) : LogTurn :=
  if f.lh.length ≥ LOGBLOCKS then panic f "too big a transaction"
  else if f.outstanding < 1 then panic f "log_write outside of trans"
  else ⟨f.log b, [], [], .ready (.body ws)⟩

/-- The first critical section of `end_op`. -/
def endOp (f : Fs) : LogTurn :=
  if f.committing then panic f "log.committing"
  else if f.outstanding - 1 = 0 then
    ⟨{ f with outstanding := 0, committing := true }, [], [.ended], .ready .commit⟩
  else ⟨{ f with outstanding := f.outstanding - 1 }, [()], [.ended], .left ()⟩

/-- `if (log.lh.n > 0)` of `commit`. -/
def commit (f : Fs) : LogTurn :=
  if f.lh.length > 0 then ⟨f, [], [], .ready (.writeLog 0)⟩
  else ⟨f, [], [.committed], .ready .endCommit⟩

/-- One round of `write_log` copies the block from the cache. -/
def copyWrite (start tail : ℕ) (v : Block) : Write := fun _ => (start + tail + 1, v)

def writeLog (start tail : ℕ) (f : Fs) : Option LogTurn :=
  match f.lh[tail]? with
  | some b =>
      if f.locked b then none
      else some ⟨f.write (copyWrite start tail (f.view b)), [], [], .ready (.writeLog (tail + 1))⟩
  | none => some ⟨f, [], [], .ready .writeHead⟩

def writeHead (start : ℕ) (f : Fs) : LogTurn :=
  ⟨f.write (headWrite start f.lh), [], [.committed], .ready (.install 0)⟩

def Fs.install (f : Fs) (start tail b : ℕ) : Fs :=
  { f with
    cache := Function.update f.cache b (some (f.disk (start + tail + 1)))
    refcnt := Function.update f.refcnt b (f.refcnt b - 1)
    disk := (installWrite start tail b).exec f.disk }

/-- One round of `install_trans`, with `bunpin`. -/
def install (start tail : ℕ) (f : Fs) : Option LogTurn :=
  match f.lh[tail]? with
  | some b =>
      if f.locked b then none
      else some ⟨f.install start tail b, [], [], .ready (.install (tail + 1))⟩
  | none => some ⟨f, [], [], .ready .clearHead⟩

def clearHead (start : ℕ) (f : Fs) : LogTurn :=
  ⟨{ f with lh := [] }.write (headWrite start []), [], [], .ready .endCommit⟩

/-- The second critical section of `end_op`. -/
def endCommit (f : Fs) : LogTurn :=
  ⟨{ f with committing := false, ncommit := toInt (f.ncommit + 1) }, [()], [], .left ()⟩

/-- One round of the loop of `sys_sync`. -/
def syncWait (n : ℤ) (f : Fs) : LogTurn :=
  if f.ncommit < n then ⟨f, [], [], .asleep () (.syncWait n)⟩
  else ⟨f, [], [.synced], .left ()⟩

/-- `sys_sync` up to its first sleep. -/
def sync (f : Fs) : LogTurn :=
  if f.committing || f.outstanding > 0 then
    let r := syncWait (toInt (f.ncommit + 1)) f
    { r with events := .syncBegan :: r.events }
  else ⟨f, [], [.syncBegan, .synced], .left ()⟩

/-- A buffer is used for another block. -/
def evict (b : ℕ) (f : Fs) : Option LogTurn :=
  if f.refcnt b = 0 then
    some ⟨{ f with cache := Function.update f.cache b none }, [], [], .left ()⟩
  else none

def turn {ι : Type*} (start : ℕ) (_ : ι) (pc : Pc) (f : Fs) (_ : Unit) : Option LogTurn :=
  match pc with
  | .beginOp ws => some (beginOp ws f)
  | .body [] => some (endOp f)
  | .body ((b, v) :: ws) => store b v ws f
  | .logWrite b ws => some (logWrite b ws f)
  | .commit => some (commit f)
  | .writeLog tail => writeLog start tail f
  | .writeHead => some (writeHead start f)
  | .install tail => install start tail f
  | .clearHead => some (clearHead start f)
  | .endCommit => some (endCommit f)
  | .sync => some (sync f)
  | .syncWait n => some (syncWait n f)
  | .evict b => evict b f

/-- What a turn needs and what it makes of the data. -/
inductive Turns (start : ℕ) (f : Fs) : Pc → LogTurn → Prop
  | full (ws : List (ℕ × Block))
      (h : f.committing = true ∨ LOGBLOCKS < f.lh.length + (f.outstanding + 1) * MAXOPBLOCKS) :
      Turns start f (.beginOp ws) ⟨f, [], [], .asleep () (.beginOp ws)⟩
  | began (ws : List (ℕ × Block)) (hcom : f.committing = false)
      (hroom : f.lh.length + (f.outstanding + 1) * MAXOPBLOCKS ≤ LOGBLOCKS) :
      Turns start f (.beginOp ws)
        ⟨{ f with outstanding := f.outstanding + 1 }, [], [.began], .ready (.body ws)⟩
  | endPanics (msg : String) (h : f.committing = true) : Turns start f (.body []) (panic f msg)
  | endedLast (h : f.outstanding - 1 = 0) : Turns start f (.body [])
      ⟨{ f with outstanding := 0, committing := true }, [], [.ended], .ready .commit⟩
  | ended (h : f.outstanding - 1 ≠ 0) : Turns start f (.body [])
      ⟨{ f with outstanding := f.outstanding - 1 }, [()], [.ended], .left ()⟩
  | stored (b : ℕ) (v : Block) (ws : List (ℕ × Block)) (h : f.locked b = false) :
      Turns start f (.body ((b, v) :: ws))
        ⟨f.store b v, [], [.stored b v], .ready (.logWrite b ws)⟩
  | logPanics (b : ℕ) (ws : List (ℕ × Block)) (msg : String)
      (h : LOGBLOCKS ≤ f.lh.length ∨ f.outstanding < 1) :
      Turns start f (.logWrite b ws) (panic f msg)
  | logged (b : ℕ) (ws : List (ℕ × Block)) :
      Turns start f (.logWrite b ws) ⟨f.log b, [], [], .ready (.body ws)⟩
  | commits : Turns start f .commit ⟨f, [], [], .ready (.writeLog 0)⟩
  | commitsNothing (h : f.lh = []) :
      Turns start f .commit ⟨f, [], [.committed], .ready .endCommit⟩
  | copied (tail b : ℕ) (h : f.lh[tail]? = some b) : Turns start f (.writeLog tail)
      ⟨f.write (copyWrite start tail (f.view b)), [], [], .ready (.writeLog (tail + 1))⟩
  | copiedAll (tail : ℕ) (h : f.lh.length ≤ tail) :
      Turns start f (.writeLog tail) ⟨f, [], [], .ready .writeHead⟩
  | headWritten : Turns start f .writeHead (writeHead start f)
  | installed (tail b : ℕ) (h : f.lh[tail]? = some b) : Turns start f (.install tail)
      ⟨f.install start tail b, [], [], .ready (.install (tail + 1))⟩
  | installedAll (tail : ℕ) (h : f.lh.length ≤ tail) :
      Turns start f (.install tail) ⟨f, [], [], .ready .clearHead⟩
  | headCleared : Turns start f .clearHead (clearHead start f)
  | commitEnds : Turns start f .endCommit (endCommit f)
  | syncWaits (hbusy : f.committing = true ∨ 0 < f.outstanding)
      (h : f.ncommit < toInt (f.ncommit + 1)) : Turns start f .sync
        ⟨f, [], [.syncBegan], .asleep () (.syncWait (toInt (f.ncommit + 1)))⟩
  | syncs (h : f.committing = false ∧ f.outstanding = 0 ∨ toInt (f.ncommit + 1) ≤ f.ncommit) :
      Turns start f .sync ⟨f, [], [.syncBegan, .synced], .left ()⟩
  | waits (n : ℤ) (h : f.ncommit < n) :
      Turns start f (.syncWait n) ⟨f, [], [], .asleep () (.syncWait n)⟩
  | synced (n : ℤ) (h : n ≤ f.ncommit) : Turns start f (.syncWait n) ⟨f, [], [.synced], .left ()⟩
  | evicted (b : ℕ) (h : f.refcnt b = 0) : Turns start f (.evict b)
      ⟨{ f with cache := Function.update f.cache b none }, [], [], .left ()⟩

section

variable {ι : Type*} {start : ℕ} {i : ι} {f : Fs} {pc : Pc} {r : LogTurn}

theorem turns_beginOp (ws : List (ℕ × Block)) : Turns start f (.beginOp ws) (beginOp ws f) := by
  unfold beginOp
  split_ifs with hcom hroom
  · exact .full ws (.inl hcom)
  · exact .full ws (.inr hroom)
  · exact .began ws (by simpa using hcom) (Nat.le_of_not_lt hroom)

theorem turns_endOp : Turns start f (.body []) (endOp f) := by
  unfold endOp
  split_ifs with hcom hlast
  · exact .endPanics _ hcom
  · exact .endedLast hlast
  · exact .ended hlast

theorem turns_logWrite (b : ℕ) (ws : List (ℕ × Block)) :
    Turns start f (.logWrite b ws) (logWrite b ws f) := by
  unfold logWrite
  split_ifs with hfull hout
  · exact .logPanics b ws _ (.inl hfull)
  · exact .logPanics b ws _ (.inr hout)
  · exact .logged b ws

theorem turns_commit : Turns start f .commit (commit f) := by
  unfold commit
  split_ifs with hlh
  · exact .commits
  · exact .commitsNothing (List.eq_nil_of_length_eq_zero (by omega))

theorem turns_sync : Turns start f .sync (sync f) := by
  unfold sync
  split_ifs with hbusy
  · unfold syncWait
    split_ifs with hn
    · exact .syncWaits (by simpa using hbusy) hn
    · exact .syncs (.inr (Int.not_lt.mp hn))
  · simp only [Bool.or_eq_true, decide_eq_true_eq, not_or, Bool.not_eq_true] at hbusy
    exact .syncs (.inl ⟨hbusy.1, by omega⟩)

theorem turns_syncWait (n : ℤ) : Turns start f (.syncWait n) (syncWait n f) := by
  unfold syncWait
  split_ifs with hn
  · exact .waits n hn
  · exact .synced n (Int.not_lt.mp hn)

theorem turns_writeLog {tail : ℕ} (hr : writeLog start tail f = some r) :
    Turns start f (.writeLog tail) r := by
  unfold writeLog at hr
  split at hr
  · next b hb =>
    split_ifs at hr
    cases hr
    exact .copied tail b hb
  · next hnone =>
    cases hr
    exact .copiedAll tail (List.getElem?_eq_none_iff.mp hnone)

theorem turns_install {tail : ℕ} (hr : install start tail f = some r) :
    Turns start f (.install tail) r := by
  unfold install at hr
  split at hr
  · next b hb =>
    split_ifs at hr
    cases hr
    exact .installed tail b hb
  · next hnone =>
    cases hr
    exact .installedAll tail (List.getElem?_eq_none_iff.mp hnone)

theorem turns_of_turn (hr : turn start i pc f () = some r) : Turns start f pc r := by
  cases pc with
  | beginOp ws => exact Option.some.inj hr ▸ turns_beginOp ws
  | body ws =>
      cases ws with
      | nil => exact Option.some.inj hr ▸ turns_endOp
      | cons e ws =>
          obtain ⟨b, v⟩ := e
          replace hr : store b v ws f = some r := hr
          unfold store at hr
          split_ifs at hr with hb
          cases hr
          exact .stored b v ws (by simpa using hb)
  | logWrite b ws => exact Option.some.inj hr ▸ turns_logWrite b ws
  | commit => exact Option.some.inj hr ▸ turns_commit
  | writeLog tail => exact turns_writeLog hr
  | writeHead => exact Option.some.inj hr ▸ .headWritten
  | install tail => exact turns_install hr
  | clearHead => exact Option.some.inj hr ▸ .headCleared
  | endCommit => exact Option.some.inj hr ▸ .commitEnds
  | sync => exact Option.some.inj hr ▸ turns_sync
  | syncWait n => exact Option.some.inj hr ▸ turns_syncWait n
  | evict b =>
      replace hr : evict b f = some r := hr
      unfold evict at hr
      split_ifs at hr with hb
      cases hr
      exact .evicted b hb

end

/-- The disk write that a call is about to do. -/
def nextWrite (start : ℕ) (f : Fs) : Pc → Option Write
  | .writeLog tail => f.lh[tail]?.map fun b => copyWrite start tail (f.view b)
  | .writeHead => some (headWrite start f.lh)
  | .install tail => f.lh[tail]?.map fun b => installWrite start tail b
  | .clearHead => some (headWrite start [])
  | .beginOp _ => none
  | .body _ => none
  | .logWrite _ _ => none
  | .commit => none
  | .endCommit => none
  | .sync => none
  | .syncWait _ => none
  | .evict _ => none

/-- The calls that are made: operations that change blocks, `sync`, and the cache.  What an
operation stores may depend on what it reads; `ws` is what it stores in the end. -/
inductive Call
  | op (ws : List (ℕ × Block))
  | sync
  | evict (b : ℕ)

def Call.begin : Call → Pc
  | .op ws => .beginOp ws
  | .sync => .sync
  | .evict b => .evict b

end ShellXv6.Xv6.Log
