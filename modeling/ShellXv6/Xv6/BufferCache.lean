import ShellXv6.Lib.LinkedRing
import ShellXv6.Lib.Monitor

/-!
# The buffer cache

`bcache` is an array of buffers in a ring, the most recently used first.  A process asks
for a block, waits for the sleep lock of its buffer, reads the block if the buffer does not
hold it yet, and gives the buffer back.  What stands between two acquisitions of
`bcache.lock` or of the lock of a sleep lock is one turn.
-/

namespace ShellXv6.Xv6.BufferCache

open LinkedRing Monitor

abbrev NBUF : ℕ := 30

/-- Device and block number. -/
abbrev Key := ℕ × ℕ

structure Buf (D : Type*) where
  valid : Bool
  dev : ℕ
  blockno : ℕ
  refcnt : ℕ
  data : D

def Buf.key {D : Type*} (b : Buf D) : Key := (b.dev, b.blockno)

/-- `bcache` and the disk. -/
structure Cache (ι D : Type*) where
  buf : Fin NBUF → Buf D
  /-- `none` is `bcache.head`. -/
  links : Links (Option (Fin NBUF))
  /-- Who holds the sleep lock of a buffer. -/
  lock : Fin NBUF → Option ι
  disk : Key → D
  /-- How often a buffer has been pinned and not unpinned (not in the source). -/
  pins : Fin NBUF → ℕ
  panicked : Option String

/-- The links after `binit`. -/
def initLinks : Links (Option (Fin NBUF)) :=
  (List.finRange NBUF).foldl (fun k b => linkFront k none (some b)) ⟨fun _ => none, fun _ => none⟩

variable {ι D : Type*}

/-- `binit`; the array is zero before it. -/
def binit (zero : D) (disk : Key → D) : Cache ι D where
  buf := fun _ => ⟨false, 0, 0, 0, zero⟩
  links := initLinks
  lock := fun _ => none
  disk := disk
  pins := fun _ => 0
  panicked := none

def Cache.setBuf (c : Cache ι D) (b : Fin NBUF) (x : Buf D) : Cache ι D :=
  { c with buf := Function.update c.buf b x }

/-- Where a process is. -/
inductive Pc
  | idle
  /-- in `acquiresleep` -/
  | wait (b : Fin NBUF) (k : Key)
  /-- in `bread`, behind `bget` -/
  | check (b : Fin NBUF) (k : Key)
  | holding (b : Fin NBUF) (k : Key)
  /-- in `brelse`, behind `releasesleep` -/
  | releasing (b : Fin NBUF)
  deriving DecidableEq

/-- What a process wants to do next. -/
inductive Choice (D : Type*)
  | bread (k : Key)
  | modify (v : D)
  | bwrite
  | bpin
  | bunpin
  | brelse
  | go

inductive Event (D : Type*)
  | got (k : Key) (v : D)
  | stored (k : Key) (v : D)
  | recycled (b : Fin NBUF)
  | freed (b : Fin NBUF)

/-- The channels are the sleep locks. -/
abbrev CacheTurn (ι D : Type*) := Turn (Cache ι D) (Fin NBUF) Pc Unit (Event D)

def panic (c : Cache ι D) (msg : String) : CacheTurn ι D :=
  ⟨{ c with panicked := some msg }, [], [], .left ()⟩

/-- The first loop of `bget`. -/
def find (c : Cache ι D) (k : Key) : Option (Option (Option (Fin NBUF))) :=
  search c.links.next none (fun x => x.elim false fun b => (c.buf b).key = k) (NBUF + 1)
    (c.links.next none)

/-- The second loop of `bget`. -/
def findUnused (c : Cache ι D) : Option (Option (Option (Fin NBUF))) :=
  search c.links.prev none (fun x => x.elim false fun b => (c.buf b).refcnt = 0) (NBUF + 1)
    (c.links.prev none)

def Cache.hit (c : Cache ι D) (b : Fin NBUF) : Cache ι D :=
  c.setBuf b { c.buf b with refcnt := (c.buf b).refcnt + 1 }

def Cache.recycle (c : Cache ι D) (b : Fin NBUF) (k : Key) : Cache ι D :=
  c.setBuf b { c.buf b with valid := false, dev := k.1, blockno := k.2, refcnt := 1 }

/-- `bget` up to `acquiresleep`. -/
def bget (k : Key) (c : Cache ι D) : Option (CacheTurn ι D) :=
  match find c k with
  | some (some (some b)) => some ⟨c.hit b, [], [], .ready (.wait b k)⟩
  | some _ =>
      match findUnused c with
      | some (some (some b)) => some ⟨c.recycle b k, [], [.recycled b], .ready (.wait b k)⟩
      | some _ => some (panic c "bget: no buffers")
      | none => none
  | none => none

/-- One round of the loop of `acquiresleep`. -/
def acquiresleep (i : ι) (b : Fin NBUF) (k : Key) (c : Cache ι D) : CacheTurn ι D :=
  if (c.lock b).isSome then ⟨c, [], [], .asleep b (.wait b k)⟩
  else ⟨{ c with lock := Function.update c.lock b (some i) }, [], [], .ready (.check b k)⟩

/-- The rest of `bread`. -/
def bread (b : Fin NBUF) (k : Key) (c : Cache ι D) : CacheTurn ι D :=
  let x := if (c.buf b).valid then c.buf b
    else { c.buf b with data := c.disk (c.buf b).key, valid := true }
  ⟨c.setBuf b x, [], [.got k x.data], .ready (.holding b k)⟩

/-- The caller changes `b->data`. -/
def modify (b : Fin NBUF) (k : Key) (v : D) (c : Cache ι D) : CacheTurn ι D :=
  ⟨c.setBuf b { c.buf b with data := v }, [], [.stored k v], .ready (.holding b k)⟩

def bpin (b : Fin NBUF) (k : Key) (c : Cache ι D) : CacheTurn ι D :=
  ⟨{ c.setBuf b { c.buf b with refcnt := (c.buf b).refcnt + 1 } with
      pins := Function.update c.pins b (c.pins b + 1) }, [], [], .ready (.holding b k)⟩

def bunpin (b : Fin NBUF) (k : Key) (c : Cache ι D) : CacheTurn ι D :=
  ⟨{ c.setBuf b { c.buf b with refcnt := (c.buf b).refcnt - 1 } with
      pins := Function.update c.pins b (c.pins b - 1) }, [], [], .ready (.holding b k)⟩

/-- The end of `brelse`, under `bcache.lock`. -/
def giveBack (b : Fin NBUF) (c : Cache ι D) : CacheTurn ι D :=
  let c' := c.setBuf b { c.buf b with refcnt := (c.buf b).refcnt - 1 }
  if (c.buf b).refcnt - 1 = 0 then
    ⟨{ c' with links := linkFront (unlink c.links (some b)) none (some b) }, [], [.freed b],
      .ready .idle⟩
  else ⟨c', [], [], .ready .idle⟩

variable [DecidableEq ι]

def bwrite (i : ι) (b : Fin NBUF) (k : Key) (c : Cache ι D) : CacheTurn ι D :=
  if c.lock b = some i then
    ⟨{ c with disk := Function.update c.disk (c.buf b).key (c.buf b).data }, [], [],
      .ready (.holding b k)⟩
  else panic c "bwrite"

/-- `brelse` up to the end of `releasesleep`. -/
def brelse (i : ι) (b : Fin NBUF) (c : Cache ι D) : CacheTurn ι D :=
  if c.lock b = some i then
    ⟨{ c with lock := Function.update c.lock b none }, [b], [], .ready (.releasing b)⟩
  else panic c "brelse"

def turn (i : ι) (pc : Pc) (c : Cache ι D) (choice : Choice D) : Option (CacheTurn ι D) :=
  match pc, choice with
  | .idle, .bread k => bget k c
  | .wait b k, .go => some (acquiresleep i b k c)
  | .check b k, .go => some (bread b k c)
  | .holding b k, .modify v => some (modify b k v c)
  | .holding b k, .bwrite => some (bwrite i b k c)
  | .holding b k, .bpin => some (bpin b k c)
  | .holding b k, .bunpin => some (bunpin b k c)
  | .holding b _, .brelse => some (brelse i b c)
  | .releasing b, .go => some (giveBack b c)
  | _, _ => none

end ShellXv6.Xv6.BufferCache
