import ShellXv6.Lib.Monitor
import ShellXv6.Lib.Ring

/-!
# Pipes

A pipe is a ring of `PIPESIZE` bytes with two counters that wrap around at `2 ^ 32`,
guarded by one lock.  Readers sleep on `&pi->nread`, writers on `&pi->nwrite`.  The
calls of `pipewrite`, `piperead` and `pipeclose` are the threads of a monitor, one thread
for each call, so that a run is any interleaving of any number of calls.
-/

namespace ShellXv6.Xv6

open Monitor

abbrev PIPESIZE : ℕ := 512

structure Pipe where
  data : Fin PIPESIZE → UInt8
  /-- The number of bytes read, as a `uint`. -/
  nread : ℕ
  /-- The number of bytes written, as a `uint`. -/
  nwrite : ℕ
  readopen : Bool
  writeopen : Bool

namespace Pipe

/-- What `pipealloc` makes of a page of memory. -/
def pipealloc (page : Fin PIPESIZE → UInt8) : Pipe := ⟨page, 0, 0, true, true⟩

inductive Chan
  | nread
  | nwrite
  deriving DecidableEq

/-- A call and where it is.  `src i` is what `copyin` finds at `addr + i`, and `dst i`
tells whether `copyout` can write there. -/
inductive Call
  | write (src : ℕ → Option UInt8) (n : ℤ) (i : ℕ)
  | read (dst : ℕ → Bool) (n : ℤ)
  | close (writable : Bool)

inductive Event
  | put (b : UInt8)
  | got (b : UInt8)
  /-- `kfree` of the pipe. -/
  | freed
  deriving DecidableEq

abbrev PipeTurn := Turn Pipe Chan Call ℤ Event

/-- `pi->nwrite == pi->nread + PIPESIZE` -/
def Full (p : Pipe) : Prop := p.nwrite = (p.nread + PIPESIZE) % 2 ^ 32

instance (p : Pipe) : Decidable p.Full := inferInstanceAs (Decidable (_ = _))

/-- `pi->data[pi->nwrite++ % PIPESIZE] = ch` -/
def put (p : Pipe) (ch : UInt8) : Pipe :=
  { p with
    data := Function.update p.data (Fin.ofNat PIPESIZE p.nwrite) ch
    nwrite := (p.nwrite + 1) % 2 ^ 32 }

/-- `pi->data[pi->nread % PIPESIZE]` -/
def front (p : Pipe) : UInt8 := p.data (Fin.ofNat PIPESIZE p.nread)

/-- `pi->nread++` -/
def drop (p : Pipe) : Pipe := { p with nread := (p.nread + 1) % 2 ^ 32 }

/-- The loop of `pipewrite` with `k` bytes to go, up to its sleep or its end; `killed j`
is what `killed(pr)` says in front of byte `j`. -/
def writeLoop (src : ℕ → Option UInt8) (n : ℤ) (killed : ℕ → Bool) : ℕ → ℕ → Pipe → PipeTurn
  | 0, i, p => ⟨p, [.nread], [], .left i⟩
  | k + 1, i, p =>
      if !p.readopen || killed i then ⟨p, [], [], .left (-1)⟩
      else if p.Full then ⟨p, [.nread], [], .asleep .nwrite (.write src n i)⟩
      else
        match src i with
        | none => ⟨p, [.nread], [], .left i⟩
        | some ch =>
            let r := writeLoop src n killed k (i + 1) (p.put ch)
            { r with events := .put ch :: r.events }

def pipewrite (src : ℕ → Option UInt8) (n : ℤ) (killed : ℕ → Bool) (i : ℕ) (p : Pipe) :
    PipeTurn :=
  writeLoop src n killed (n - i).toNat i p

/-- The copy loop of `piperead` with room for `k` more bytes. -/
def readLoop (dst : ℕ → Bool) : ℕ → ℕ → Pipe → PipeTurn
  | 0, i, p => ⟨p, [.nwrite], [], .left i⟩
  | k + 1, i, p =>
      if p.nread = p.nwrite then ⟨p, [.nwrite], [], .left i⟩
      else if dst i then
        let r := readLoop dst k (i + 1) p.drop
        { r with events := .got p.front :: r.events }
      else ⟨p, [.nwrite], [], .left (if i = 0 then -1 else i)⟩

def piperead (dst : ℕ → Bool) (n : ℤ) (killed : ℕ → Bool) (p : Pipe) : PipeTurn :=
  if p.nread = p.nwrite ∧ p.writeopen then
    if killed 0 then ⟨p, [], [], .left (-1)⟩ else ⟨p, [], [], .asleep .nread (.read dst n)⟩
  else readLoop dst n.toNat 0 p

def pipeclose (writable : Bool) (p : Pipe) : PipeTurn :=
  let q : Pipe := if writable then { p with writeopen := false } else { p with readopen := false }
  ⟨q, if writable then [.nread] else [.nwrite],
    if q.readopen = false ∧ q.writeopen = false then [.freed] else [], .left 0⟩

/-- One turn of a call.  The choice of the environment is when its process is killed. -/
def turn {ι : Type*} (_ : ι) : Call → Pipe → (ℕ → Bool) → Option PipeTurn
  | .write src n i, p, killed => some (pipewrite src n killed i p)
  | .read dst n, p, killed => some (piperead dst n killed p)
  | .close writable, p, _ => some (pipeclose writable p)

/-! ## The ring and its counters -/

/-- `R` bytes have been read and `buf` is in the ring. -/
structure Buffers (p : Pipe) (R : ℕ) (buf : List UInt8) : Prop where
  nread : p.nread = R % 2 ^ 32
  nwrite : p.nwrite = (R + buf.length) % 2 ^ 32
  bound : buf.length ≤ PIPESIZE
  cells : Ring.window p.data R buf.length = buf

section

variable {p : Pipe} {R : ℕ} {buf : List UInt8} {b : UInt8}

theorem buffers_pipealloc (page : Fin PIPESIZE → UInt8) : Buffers (pipealloc page) 0 [] :=
  ⟨rfl, rfl, Nat.zero_le _, rfl⟩

theorem Buffers.full_iff (h : Buffers p R buf) : p.Full ↔ buf.length = PIPESIZE := by
  have hbound : buf.length ≤ 512 := h.bound
  rw [Full, h.nread, h.nwrite, PIPESIZE]
  omega

theorem Buffers.empty_iff (h : Buffers p R buf) : p.nread = p.nwrite ↔ buf = [] := by
  have hbound : buf.length ≤ 512 := h.bound
  rw [h.nread, h.nwrite, ← List.length_eq_zero_iff]
  omega

theorem Buffers.put (h : Buffers p R buf) (hfull : ¬ p.Full) (ch : UInt8) :
    Buffers (p.put ch) R (buf ++ [ch]) := by
  have hlt : buf.length < PIPESIZE := lt_of_le_of_ne h.bound (mt h.full_iff.mpr hfull)
  have hcell : Fin.ofNat PIPESIZE p.nwrite = Fin.ofNat PIPESIZE (R + buf.length) := by
    rw [h.nwrite]
    exact Ring.ofNat_mod (by decide)
  constructor
  · exact h.nread
  · simp only [Pipe.put, h.nwrite, List.length_append, List.length_singleton]
    omega
  · rw [List.length_append]
    exact hlt
  · rw [List.length_append, List.length_singleton, Pipe.put, hcell, Ring.window_put hlt, h.cells]

theorem Buffers.drop (h : Buffers p R (b :: buf)) :
    p.front = b ∧ Buffers p.drop (R + 1) buf := by
  have hcells := h.cells
  rw [List.length_cons, Ring.window_cons, List.cons.injEq] at hcells
  have hcell : Fin.ofNat PIPESIZE p.nread = Fin.ofNat PIPESIZE R := by
    rw [h.nread]
    exact Ring.ofNat_mod (by decide)
  refine ⟨by rw [front, hcell, hcells.1], ?_, ?_, ?_, hcells.2⟩
  · simp only [Pipe.drop, h.nread]
    omega
  · have hnwrite := h.nwrite
    rw [List.length_cons] at hnwrite
    simp only [Pipe.drop, hnwrite]
    omega
  · have hbound := h.bound
    rw [List.length_cons] at hbound
    omega

end

/-! ## What the loops do -/

def putBytes (es : List Event) : List UInt8 :=
  es.filterMap fun | .put b => some b | _ => none

def gotBytes (es : List Event) : List UInt8 :=
  es.filterMap fun | .got b => some b | _ => none

/-- The loop of `pipewrite` with `k` bytes to go from byte `i` on has put the bytes `bs`. -/
structure Writes (src : ℕ → Option UInt8) (n : ℤ) (killed : ℕ → Bool) (k i : ℕ) (p : Pipe) (R : ℕ)
    (buf bs : List UInt8) (r : PipeTurn) : Prop where
  count : bs.length ≤ k
  events : r.events = bs.map .put
  bytes : bs.map some = (List.range bs.length).map fun j => src (i + j)
  buffers : Buffers r.data R (buf ++ bs)
  flags : r.data.readopen = p.readopen ∧ r.data.writeopen = p.writeopen
  outcome : (r.thread = .left (-1) ∧ r.woken = [] ∧
      (p.readopen = false ∧ bs = [] ∨ killed (i + bs.length) = true)) ∨
    r.woken = [.nread] ∧
      (r.thread = .left (i + bs.length : ℕ) ∨
        r.thread = .asleep .nwrite (.write src n (i + bs.length)) ∧ r.data.Full ∧
          p.readopen = true)

theorem writes_writeLoop {src : ℕ → Option UInt8} {n : ℤ} {killed : ℕ → Bool} {k i : ℕ} {p : Pipe}
    {R : ℕ} {buf : List UInt8} (h : Buffers p R buf) :
    ∃ bs, Writes src n killed k i p R buf bs (writeLoop src n killed k i p) := by
  induction k generalizing i p buf with
  | zero =>
      exact ⟨[], Nat.zero_le _, rfl, rfl, by simpa [writeLoop] using h, ⟨rfl, rfl⟩,
        .inr ⟨rfl, .inl rfl⟩⟩
  | succ k ih =>
      rw [writeLoop]
      split
      · rename_i hstop
        refine ⟨[], Nat.zero_le _, rfl, rfl, by simpa using h, ⟨rfl, rfl⟩, .inl ⟨rfl, rfl, ?_⟩⟩
        simpa using hstop
      · rename_i hgo
        have hopen : p.readopen = true := by
          cases hp : p.readopen with
          | true => rfl
          | false => simp [hp] at hgo
        split
        · rename_i hfull
          exact ⟨[], Nat.zero_le _, rfl, rfl, by simpa using h, ⟨rfl, rfl⟩,
            .inr ⟨rfl, .inr ⟨rfl, hfull, hopen⟩⟩⟩
        · rename_i hfull
          split
          · exact ⟨[], Nat.zero_le _, rfl, rfl, by simpa using h, ⟨rfl, rfl⟩, .inr ⟨rfl, .inl rfl⟩⟩
          · rename_i ch hch
            obtain ⟨bs, hbs⟩ := ih (h.put hfull ch)
            refine ⟨ch :: bs, Nat.succ_le_succ hbs.count, ?_, ?_, ?_, hbs.flags, ?_⟩
            · simp [hbs.events]
            · simp [hbs.bytes, hch, List.range_succ_eq_map, Function.comp_def, Nat.add_assoc,
                Nat.add_comm 1]
            · simpa using hbs.buffers
            · rcases hbs.outcome with ⟨hleft, hwoken, hwhy⟩ | ⟨hwoken, hleft | ⟨hsleep, hend⟩⟩
              · refine .inl ⟨hleft, hwoken, .inr ?_⟩
                rcases hwhy with ⟨hclosed, -⟩ | hkilled
                · cases hclosed.symm.trans hopen
                · rw [List.length_cons, ← Nat.add_assoc, Nat.add_right_comm]
                  exact hkilled
              · refine .inr ⟨hwoken, .inl ?_⟩
                rw [hleft]
                congr 1
                simp
                omega
              · refine .inr ⟨hwoken, .inr ⟨?_, hend⟩⟩
                rw [hsleep, List.length_cons]
                congr 2
                omega

/-- The copy loop of `piperead` with room for `k` bytes from byte `i` on has taken the
bytes `bs` and left `rest`. -/
structure Reads (k i : ℕ) (p : Pipe) (R : ℕ) (buf bs rest : List UInt8) (r : PipeTurn) : Prop where
  count : bs.length ≤ k
  split : buf = bs ++ rest
  events : r.events = bs.map .got
  buffers : Buffers r.data (R + bs.length) rest
  flags : r.data.readopen = p.readopen ∧ r.data.writeopen = p.writeopen
  woken : r.woken = [.nwrite]
  outcome : r.thread = .left (i + bs.length : ℕ) ∨ r.thread = .left (-1) ∧ i = 0 ∧ bs = []

theorem reads_readLoop {dst : ℕ → Bool} {k i : ℕ} {p : Pipe} {R : ℕ} {buf : List UInt8}
    (h : Buffers p R buf) : ∃ bs rest, Reads k i p R buf bs rest (readLoop dst k i p) := by
  induction k generalizing i p R buf with
  | zero => exact ⟨[], buf, Nat.zero_le _, rfl, rfl, h, ⟨rfl, rfl⟩, rfl, .inl rfl⟩
  | succ k ih =>
      rw [readLoop]
      split
      · exact ⟨[], buf, Nat.zero_le _, rfl, rfl, h, ⟨rfl, rfl⟩, rfl, .inl rfl⟩
      · rename_i hempty
        obtain ⟨b, buf, rfl⟩ := List.exists_cons_of_ne_nil (mt h.empty_iff.mpr hempty)
        split
        · obtain ⟨hfront, hdrop⟩ := h.drop
          obtain ⟨bs, rest, hbs⟩ := ih (i := i + 1) hdrop
          refine ⟨b :: bs, rest, Nat.succ_le_succ hbs.count, ?_, ?_, ?_, hbs.flags, hbs.woken,
            .inl ?_⟩
          · rw [hbs.split, List.cons_append]
          · simp [hbs.events, hfront]
          · have hlen : R + (b :: bs).length = R + 1 + bs.length := by
              rw [List.length_cons]
              omega
            rw [hlen]
            exact hbs.buffers
          · rcases hbs.outcome with hleft | ⟨-, hi, -⟩
            · rw [hleft, List.length_cons]
              congr 2
              omega
            · exact absurd hi (Nat.succ_ne_zero i)
        · refine ⟨[], b :: buf, Nat.zero_le _, rfl, rfl, h, ⟨rfl, rfl⟩, rfl, ?_⟩
          by_cases hi : i = 0
          · exact .inr ⟨by simp [hi], hi, rfl⟩
          · exact .inl (by simp [hi])

/-- `piperead` returns 0 for a positive count only if it found nothing. -/
theorem nread_eq_of_readLoop_zero {dst : ℕ → Bool} {k : ℕ} {p : Pipe} {R : ℕ} {buf : List UInt8}
    (h : Buffers p R buf) (hzero : (readLoop dst (k + 1) 0 p).thread = .left 0) :
    p.nread = p.nwrite := by
  by_contra hempty
  obtain ⟨b, buf, rfl⟩ := List.exists_cons_of_ne_nil (mt h.empty_iff.mpr hempty)
  rw [readLoop, if_neg hempty] at hzero
  split at hzero
  · have hrest : ∃ bs rest, Reads k (0 + 1) p.drop (R + 1) buf bs rest
        (readLoop dst k (0 + 1) p.drop) := reads_readLoop h.drop.2
    obtain ⟨bs, rest, hbs⟩ := hrest
    rcases hbs.outcome with hleft | ⟨hleft, hi, -⟩
    · have := hzero.symm.trans hleft
      simp at this
      omega
    · omega
  · simp at hzero

theorem putBytes_map_put (bs : List UInt8) : putBytes (bs.map .put) = bs := by
  rw [putBytes, List.filterMap_map]
  exact List.filterMap_some

theorem gotBytes_map_put (bs : List UInt8) : gotBytes (bs.map .put) = [] := by
  rw [gotBytes, List.filterMap_map]
  exact List.filterMap_eq_nil_iff.mpr fun _ _ => rfl

theorem putBytes_map_got (bs : List UInt8) : putBytes (bs.map .got) = [] := by
  rw [putBytes, List.filterMap_map]
  exact List.filterMap_eq_nil_iff.mpr fun _ _ => rfl

theorem gotBytes_map_got (bs : List UInt8) : gotBytes (bs.map .got) = bs := by
  rw [gotBytes, List.filterMap_map]
  exact List.filterMap_some

theorem putBytes_append (es fs : List Event) :
    putBytes (es ++ fs) = putBytes es ++ putBytes fs := List.filterMap_append

theorem gotBytes_append (es fs : List Event) :
    gotBytes (es ++ fs) = gotBytes es ++ gotBytes fs := List.filterMap_append

theorem pipeclose_events (writable : Bool) (p : Pipe) :
    putBytes (pipeclose writable p).events = [] ∧ gotBytes (pipeclose writable p).events = [] := by
  rw [pipeclose]
  dsimp only
  split_ifs <;> exact ⟨rfl, rfl⟩

theorem Buffers.pipeclose {p : Pipe} {R : ℕ} {buf : List UInt8} (h : Buffers p R buf)
    (writable : Bool) : Buffers (pipeclose writable p).data R buf := by
  cases writable <;> exact ⟨h.nread, h.nwrite, h.bound, h.cells⟩

end Pipe

end ShellXv6.Xv6
