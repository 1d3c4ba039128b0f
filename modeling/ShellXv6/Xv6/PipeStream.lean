import ShellXv6.Xv6.Pipe

/-!
# A pipe is a stream

In every interleaving of the calls on a pipe the bytes come out as they went in: what
has been read is the beginning of what has been written, and what is between the two is
in the ring.  Nobody sleeps on a pipe that could serve him, with one exception: a writer
that has put bytes into the ring and is killed before it has gone on to wake the readers
leaves without doing so.
-/

namespace ShellXv6.Xv6.Pipe

open Monitor

variable {ι : Type*}

/-- What a turn does to the stream: bytes join it at the end and leave it at the front. -/
theorem turn_moves {i : ι} {pc : Call} {p : Pipe} {killed : ℕ → Bool} {r : PipeTurn} {R : ℕ}
    {buf : List UInt8} (h : Buffers p R buf) (hr : turn i pc p killed = some r) :
    ∃ rest, buf ++ putBytes r.events = gotBytes r.events ++ rest ∧
      Buffers r.data (R + (gotBytes r.events).length) rest := by
  cases pc with
  | write src n k =>
      cases hr
      have hwrites : ∃ bs, Writes src n killed (n - k).toNat k p R buf bs
          (pipewrite src n killed k p) :=
        writes_writeLoop h
      obtain ⟨bs, hbs⟩ := hwrites
      refine ⟨buf ++ bs, ?_⟩
      rw [hbs.events, putBytes_map_put, gotBytes_map_put]
      exact ⟨rfl, hbs.buffers⟩
  | read dst n =>
      cases hr
      rw [piperead]
      split
      · refine ⟨buf, ?_⟩
        split
        · exact ⟨List.append_nil buf, h⟩
        · exact ⟨List.append_nil buf, h⟩
      · have hreads : ∃ bs rest, Reads n.toNat 0 p R buf bs rest (readLoop dst n.toNat 0 p) :=
          reads_readLoop h
        obtain ⟨bs, rest, hbs⟩ := hreads
        refine ⟨rest, ?_⟩
        rw [hbs.events, putBytes_map_got, gotBytes_map_got, List.append_nil]
        exact ⟨hbs.split, hbs.buffers⟩
  | close writable =>
      cases hr
      refine ⟨buf, ?_⟩
      rw [(pipeclose_events writable p).1, (pipeclose_events writable p).2, List.append_nil]
      exact ⟨rfl, h.pipeclose writable⟩

theorem turn_flags {i : ι} {pc : Call} {p : Pipe} {killed : ℕ → Bool} {r : PipeTurn} {R : ℕ}
    {buf : List UInt8} (h : Buffers p R buf) (hr : turn i pc p killed = some r)
    (hclosed : p.writeopen = false) : r.data.writeopen = false := by
  cases pc with
  | write src n k =>
      cases hr
      have hwrites : ∃ bs, Writes src n killed (n - k).toNat k p R buf bs
          (pipewrite src n killed k p) :=
        writes_writeLoop h
      obtain ⟨bs, hbs⟩ := hwrites
      exact hbs.flags.2.trans hclosed
  | read dst n =>
      cases hr
      rw [piperead, if_neg (by simp [hclosed])]
      have hreads : ∃ bs rest, Reads n.toNat 0 p R buf bs rest (readLoop dst n.toNat 0 p) :=
        reads_readLoop h
      obtain ⟨bs, rest, hbs⟩ := hreads
      exact hbs.flags.2.trans hclosed
  | close writable =>
      cases hr
      cases writable
      · exact hclosed
      · rfl

/-- What the sleepers of a channel wait for has not happened. -/
def Needs (p : Pipe) : Chan → Prop
  | .nread => p.nread = p.nwrite ∧ p.writeopen = true
  | .nwrite => p.Full ∧ p.readopen = true

/-- In its turn a writer puts bytes into the pipe, and then it is found killed: it returns
-1, and the readers do not hear of the bytes. -/
def Deserts (r : PipeTurn) (killed : ℕ → Bool) (k : ℕ) : Prop :=
  r.events ≠ [] ∧ r.thread = .left (-1) ∧ killed (k + r.events.length) = true

/-- A writer wakes the readers of what it has put, unless it deserts them. -/
theorem needs_of_pipewrite {p : Pipe} {src : ℕ → Option UInt8} {n : ℤ} {k : ℕ}
    {killed : ℕ → Bool} {chan : Chan} {R : ℕ} {buf : List UInt8} (hbuf : Buffers p R buf)
    (hstays : chan = .nread → ¬Deserts (pipewrite src n killed k p) killed k)
    (hwoken : chan ∉ (pipewrite src n killed k p).woken) (hneed : p.Needs chan) :
    (pipewrite src n killed k p).data.Needs chan := by
  have hwrites : ∃ bs, Writes src n killed (n - k).toNat k p R buf bs
      (pipewrite src n killed k p) := writes_writeLoop hbuf
  obtain ⟨bs, hbs⟩ := hwrites
  cases chan with
  | nwrite =>
      obtain ⟨hfull, hopen⟩ := hneed
      -- the ring was full, so nothing was put
      have hlen := hbs.buffers.bound
      rw [List.length_append, hbuf.full_iff.mp hfull] at hlen
      refine ⟨hbs.buffers.full_iff.mpr ?_, hbs.flags.1.trans hopen⟩
      rw [List.length_append, hbuf.full_iff.mp hfull]
      omega
  | nread =>
      obtain ⟨hempty, hopen⟩ := hneed
      have hnil : bs = [] := by
        rcases hbs.outcome with ⟨hleft, -, ⟨-, hnil⟩ | hkilled⟩ | ⟨hnread, -⟩
        · exact hnil
        · by_contra hne
          refine hstays rfl ⟨?_, hleft, ?_⟩
          · rw [hbs.events]
            simpa using hne
          · rw [hbs.events, List.length_map]
            exact hkilled
        · rw [hnread] at hwoken
          simp at hwoken
      have hrest := hbs.buffers
      rw [hnil, hbuf.empty_iff.mp hempty] at hrest
      exact ⟨hrest.empty_iff.mpr rfl, hbs.flags.2.trans hopen⟩

theorem needs_of_piperead {p : Pipe} {dst : ℕ → Bool} {n : ℤ} {killed : ℕ → Bool}
    {chan : Chan} {R : ℕ} {buf : List UInt8} (hbuf : Buffers p R buf)
    (hwoken : chan ∉ (piperead dst n killed p).woken) (hneed : p.Needs chan) :
    (piperead dst n killed p).data.Needs chan := by
  by_cases hwait : p.nread = p.nwrite ∧ p.writeopen = true
  · have hdata : (piperead dst n killed p).data = p := by
      rw [piperead, if_pos hwait]
      split <;> rfl
    rw [hdata]
    exact hneed
  · have hread : piperead dst n killed p = readLoop dst n.toNat 0 p := if_neg hwait
    have hreads : ∃ bs rest, Reads n.toNat 0 p R buf bs rest (readLoop dst n.toNat 0 p) :=
      reads_readLoop hbuf
    obtain ⟨bs, rest, hbs⟩ := hreads
    cases chan with
    | nwrite =>
        rw [hread, hbs.woken] at hwoken
        simp at hwoken
    | nread => exact absurd hneed hwait

theorem needs_of_pipeclose {p : Pipe} {writable : Bool} {chan : Chan}
    (hwoken : chan ∉ (pipeclose writable p).woken) (hneed : p.Needs chan) :
    (pipeclose writable p).data.Needs chan := by
  cases writable with
  | true =>
      cases chan with
      | nwrite => exact hneed
      | nread => simp [pipeclose] at hwoken
  | false =>
      cases chan with
      | nwrite => simp [pipeclose] at hwoken
      | nread => exact hneed

/-- A call that goes to sleep has found the need of its channel. -/
theorem needs_of_asleep {i : ι} {pc pc' : Call} {p : Pipe} {killed : ℕ → Bool} {r : PipeTurn}
    {chan : Chan} {R : ℕ} {buf : List UInt8} (hbuf : Buffers p R buf)
    (hr : turn i pc p killed = some r) (hsleep : r.thread = .asleep chan pc') :
    r.data.Needs chan := by
  cases pc with
  | write src n k =>
      cases hr
      have hwrites : ∃ bs, Writes src n killed (n - k).toNat k p R buf bs
          (pipewrite src n killed k p) := writes_writeLoop hbuf
      obtain ⟨bs, hbs⟩ := hwrites
      rcases hbs.outcome with ⟨hleft, -⟩ | ⟨-, hleft | ⟨hasleep, hfull, hopen⟩⟩
      · cases hleft.symm.trans hsleep
      · cases hleft.symm.trans hsleep
      · cases hasleep.symm.trans hsleep
        exact ⟨hfull, hbs.flags.1.trans hopen⟩
  | read dst n =>
      cases hr
      rw [piperead] at hsleep ⊢
      split at hsleep
      · rename_i hwait
        split at hsleep
        · cases hsleep
        · rename_i hkilled
          cases hsleep
          rw [if_pos hwait, if_neg hkilled]
          exact hwait
      · have hreads : ∃ bs rest, Reads n.toNat 0 p R buf bs rest
            (readLoop dst n.toNat 0 p) := reads_readLoop hbuf
        obtain ⟨bs, rest, hbs⟩ := hreads
        rcases hbs.outcome with hleft | ⟨hleft, -⟩
        · cases hleft.symm.trans hsleep
        · cases hleft.symm.trans hsleep
  | close writable =>
      cases hr
      cases hsleep

abbrev Pipes (ι : Type*) := State ι Pipe Chan Call ℤ Event

/-- No writer deserts the readers. -/
def Attended (s : Pipes ι) : Monitor.Action ι (ℕ → Bool) → Prop
  | .turn i killed =>
      match s.thread i with
      | .ready (.write src n k) => ¬Deserts (pipewrite src n killed k s.data) killed k
      | _ => True
  | .rouse _ => True

theorem attended_of_not_killed (s : Pipes ι) (i : ι) : Attended s (.turn i fun _ => false) := by
  have hnever : ∀ r k, ¬Deserts r (fun _ => false) k := fun r k h => Bool.noConfusion h.2.2
  unfold Attended
  dsimp only
  split
  · exact hnever _ _
  · trivial

variable [DecidableEq ι]

/-- The states of the runs in which `calls` are made on a new pipe. -/
def Reachable (page : Fin PIPESIZE → UInt8) (calls : ι → Call) : Pipes ι → Prop :=
  Run.Reach (Start (pipealloc page) calls) (step turn) Run.Any

/-- The stream at any time: what was put is what was got and what is in the ring. -/
theorem stream_invariant {page : Fin PIPESIZE → UInt8} {calls : ι → Call} {s : Pipes ι}
    (hs : Reachable page calls s) :
    ∃ buf, Buffers s.data (gotBytes (s.trace.map Prod.snd)).length buf ∧
      putBytes (s.trace.map Prod.snd) = gotBytes (s.trace.map Prod.snd) ++ buf := by
  apply data_invariant (P := fun d tr => ∃ buf,
    Buffers d (gotBytes (tr.map Prod.snd)).length buf ∧
      putBytes (tr.map Prod.snd) = gotBytes (tr.map Prod.snd) ++ buf) hs
  · exact ⟨[], buffers_pipealloc page, rfl⟩
  · rintro s i pc c r - - ⟨buf, hbuf, hstream⟩ - hr
    obtain ⟨rest, hmoved, hrest⟩ := turn_moves hbuf hr
    have hevents : (s.trace ++ r.events.map fun e => (i, e)).map Prod.snd =
        s.trace.map Prod.snd ++ r.events := by
      simp [Function.comp_def]
    refine ⟨rest, ?_, ?_⟩
    · rw [hevents, gotBytes_append, List.length_append]
      exact hrest
    · rw [hevents, putBytes_append, gotBytes_append, hstream, List.append_assoc, hmoved,
        List.append_assoc]

/-- What a call of `pipewrite` has done so far: it has put the first bytes of its buffer. -/
def Sends (src : ℕ → Option UInt8) (n : ℤ) (th : Thread Chan Call ℤ) (es : List Event) : Prop :=
  ∃ bs : List UInt8, es = bs.map .put ∧ bs.map some = (List.range bs.length).map src ∧
    bs.length ≤ n.toNat ∧
    match th with
    | .ready pc => pc = .write src n bs.length
    | .asleep chan pc => chan = .nwrite ∧ pc = .write src n bs.length
    | .left r => r = bs.length ∨ r = -1

/-- What a call of `piperead` has done so far: it takes its bytes in its last turn. -/
def Receives (dst : ℕ → Bool) (n : ℤ) (th : Thread Chan Call ℤ) (es : List Event) : Prop :=
  ∃ bs : List UInt8, es = bs.map .got ∧ bs.length ≤ n.toNat ∧
    match th with
    | .ready pc => pc = .read dst n ∧ bs = []
    | .asleep chan pc => chan = .nread ∧ pc = .read dst n ∧ bs = []
    | .left r => r = bs.length ∨ r = -1 ∧ bs = []

theorem sends_of_reach {page : Fin PIPESIZE → UInt8} {calls : ι → Call} {s : Pipes ι}
    (hs : Reachable page calls s) (i : ι) {src : ℕ → Option UInt8} {n : ℤ}
    (hi : calls i = .write src n 0) : Sends src n (s.thread i) (s.own i) := by
  revert src n
  apply thread_invariant (P := fun i th es => ∀ {src : ℕ → Option UInt8} {n : ℤ},
    calls i = .write src n 0 → Sends src n th es) hs
  · intro i src n hi
    exact ⟨[], rfl, rfl, Nat.zero_le _, hi⟩
  · rintro i chan pc es h src n hi
    obtain ⟨bs, hes, hsrc, hn, -, hpc⟩ := h hi
    exact ⟨bs, hes, hsrc, hn, hpc⟩
  · rintro s i pc c r hr - h hready hturn src n hi
    obtain ⟨bs, hes, hsrc, hn, rfl⟩ := h hi
    cases hturn
    obtain ⟨buf, hbuf, -⟩ := stream_invariant hr
    have hwrites : ∃ bs', Writes src n c (n - bs.length).toNat bs.length s.data _ buf bs'
        (pipewrite src n c bs.length s.data) := writes_writeLoop hbuf
    obtain ⟨bs', hbs⟩ := hwrites
    have hcount := hbs.count
    refine ⟨bs ++ bs', ?_, ?_, ?_, ?_⟩
    · rw [hes, hbs.events, List.map_append]
    · rw [List.map_append, hsrc, hbs.bytes, List.length_append, List.range_add, List.map_append,
        List.map_map]
      rfl
    · rw [List.length_append]
      omega
    · rw [List.length_append]
      rcases hbs.outcome with ⟨hleft, -⟩ | ⟨-, hleft | ⟨hsleep, -⟩⟩
      · rw [hleft]
        exact .inr rfl
      · rw [hleft]
        exact .inl rfl
      · rw [hsleep]
        exact ⟨rfl, rfl⟩

theorem receives_of_reach {page : Fin PIPESIZE → UInt8} {calls : ι → Call} {s : Pipes ι}
    (hs : Reachable page calls s) (i : ι) {dst : ℕ → Bool} {n : ℤ}
    (hi : calls i = .read dst n) : Receives dst n (s.thread i) (s.own i) := by
  revert dst n
  apply thread_invariant (P := fun i th es => ∀ {dst : ℕ → Bool} {n : ℤ},
    calls i = .read dst n → Receives dst n th es) hs
  · intro i dst n hi
    exact ⟨[], rfl, Nat.zero_le _, hi, rfl⟩
  · rintro i chan pc es h dst n hi
    obtain ⟨bs, hes, hn, -, hpc, hbs⟩ := h hi
    exact ⟨bs, hes, hn, hpc, hbs⟩
  · rintro s i pc c r hr - h hready hturn dst n hi
    obtain ⟨_, hes, -, rfl, rfl⟩ := h hi
    cases hturn
    rw [hes, List.map_nil, List.nil_append, piperead]
    split
    · split
      · exact ⟨[], rfl, Nat.zero_le _, .inr ⟨rfl, rfl⟩⟩
      · exact ⟨[], rfl, Nat.zero_le _, rfl, rfl, rfl⟩
    · obtain ⟨buf, hbuf, -⟩ := stream_invariant hr
      have hreads : ∃ bs rest, Reads n.toNat 0 s.data _ buf bs rest
          (readLoop dst n.toNat 0 s.data) := reads_readLoop hbuf
      obtain ⟨bs, rest, hbs⟩ := hreads
      refine ⟨bs, hbs.events, hbs.count, ?_⟩
      rcases hbs.outcome with hleft | ⟨hleft, -, hnil⟩
      · rw [hleft, Nat.zero_add]
        exact .inl rfl
      · rw [hleft]
        exact .inr ⟨rfl, hnil⟩

/-- Only after the last writer is gone does a read return nothing. -/
theorem closed_of_read_zero {page : Fin PIPESIZE → UInt8} {calls : ι → Call} {s : Pipes ι}
    (hs : Reachable page calls s) (i : ι) {dst : ℕ → Bool} {n : ℤ}
    (hi : calls i = .read dst n) (hn : 0 < n) (hleft : s.thread i = .left 0) :
    s.data.writeopen = false := by
  refine left_settled (P := fun i res d => ∀ {dst : ℕ → Bool} {n : ℤ}, calls i = .read dst n →
    0 < n → res = 0 → d.writeopen = false) hs ?_ ?_ hleft hi hn rfl
  · rintro s i pc c r _ hr - hready hturn hleft dst n hi hn rfl
    obtain ⟨buf, hbuf, -⟩ := stream_invariant hr
    have hpc : pc = .read dst n := by
      obtain ⟨_, -, -, hpc⟩ := receives_of_reach hr i hi
      rw [hready] at hpc
      exact hpc.1
    subst hpc
    cases hturn
    rw [piperead] at hleft ⊢
    split at hleft
    · split at hleft <;> cases hleft
    · rename_i hgo
      have hreads : ∃ bs rest, Reads n.toNat 0 s.data _ buf bs rest
          (readLoop dst n.toNat 0 s.data) := reads_readLoop hbuf
      obtain ⟨bs, rest, hbs⟩ := hreads
      obtain ⟨k, hk⟩ : ∃ k, n.toNat = k + 1 := ⟨n.toNat - 1, by omega⟩
      rw [hk] at hleft
      have hempty := nread_eq_of_readLoop_zero hbuf hleft
      rw [if_neg hgo, hbs.flags.2]
      simpa [hempty] using hgo
  · intro s i pc c r j res hr _ _ hturn h dst n hj hn hres
    obtain ⟨buf, hbuf, -⟩ := stream_invariant hr
    exact turn_flags hbuf hturn (h hj hn hres)

/-- The bytes of a pipe come out in the order in which they went in, none is lost and none
comes twice, for any calls in any interleaving.  Every call moves the number of bytes that
it returns; nothing is returned for a positive count only after the write end is closed. -/
theorem bytes_in_order {page : Fin PIPESIZE → UInt8} {calls : ι → Call} {s : Pipes ι}
    (hs : Reachable page calls s) :
    (∃ buffered : List UInt8, buffered.length ≤ PIPESIZE ∧
      putBytes (s.trace.map Prod.snd) = gotBytes (s.trace.map Prod.snd) ++ buffered) ∧
    (∀ i src n, calls i = .write src n 0 → Sends src n (s.thread i) (s.own i)) ∧
    (∀ i dst n, calls i = .read dst n → Receives dst n (s.thread i) (s.own i)) ∧
    ∀ i dst n, calls i = .read dst n → 0 < n → s.thread i = .left 0 →
      s.data.writeopen = false := by
  refine ⟨?_, fun i _ _ hi => sends_of_reach hs i hi, fun i _ _ hi => receives_of_reach hs i hi,
    fun i _ _ hi hn hleft => closed_of_read_zero hs i hi hn hleft⟩
  obtain ⟨buf, hbuf, hstream⟩ := stream_invariant hs
  exact ⟨buf, hbuf.bound, hstream⟩

/-- A call that writes 600 bytes, two that have room for more, and one for eight. -/
def fourCalls : Fin 4 → Call
  | 0 => .write (fun i => some (UInt8.ofNat i)) 600 0
  | 1 => .read (fun _ => true) 700
  | 2 => .read (fun _ => true) 700
  | 3 => .read (fun _ => true) 8

/-- A new pipe on a page of zeros. -/
def fourCallsStart : Pipes (Fin 4) := ⟨pipealloc fun _ => 0, fun i => .ready (fourCalls i), []⟩

/-- The turns of these calls, none of which is killed. -/
def turns (is : List (Fin 4)) : List (Monitor.Action (Fin 4) (ℕ → Bool)) :=
  is.map fun i => .turn i fun _ => false

/-- The writer fills the ring and sleeps, a reader empties it, and the writer puts the rest. -/
theorem bytes_in_order_two_turns : ∃ s : Pipes (Fin 4),
    s.thread 0 = .left 600 ∧ s.thread 1 = .left 512 ∧
      ∃ buffered : List UInt8, buffered.length = 88 ∧
        putBytes (s.trace.map Prod.snd) = gotBytes (s.trace.map Prod.snd) ++ buffered := by
  have hrun : (Run.exec (step turn) (turns [0, 1, 0]) fourCallsStart).map (fun s => decide
      (s.thread 0 = .left 600 ∧ s.thread 1 = .left 512 ∧
        (putBytes (s.trace.map Prod.snd)).length = 600 ∧
        (gotBytes (s.trace.map Prod.snd)).length = 512)) = some true := by decide +kernel
  obtain ⟨s, hexec, hs⟩ := Option.map_eq_some_iff.mp hrun
  obtain ⟨hwriter, hreader, hput, hgot⟩ := of_decide_eq_true hs
  have hreach : Reachable (fun _ => 0) fourCalls s :=
    Run.Reach.exec (turns [0, 1, 0]) (.start rfl) hexec
  obtain ⟨⟨buffered, -, hstream⟩, -⟩ := bytes_in_order hreach
  refine ⟨s, hwriter, hreader, buffered, ?_, hstream⟩
  have hlength := congrArg List.length hstream
  rw [List.length_append, hput, hgot] at hlength
  omega

/-! ## Who sleeps -/

/-- The sleepers of a channel need to sleep in the runs that `ok` allows; for the readers
these are runs in which no writer deserts them. -/
theorem needs_of_reach {page : Fin PIPESIZE → UInt8} {calls : ι → Call} {s : Pipes ι}
    {ok : Pipes ι → Monitor.Action ι (ℕ → Bool) → Prop} {chan : Chan}
    (hok : chan = .nread → ∀ s a, ok s a → Attended s a)
    (hs : Run.Reach (Start (pipealloc page) calls) (step turn) ok s) {i : ι} {pc : Call}
    (hi : s.thread i = .asleep chan pc) : s.data.Needs chan := by
  refine asleep_needed (P := fun c _ s => c = chan → s.data.Needs c) hs ?_ ?_ ?_ hi rfl
  · intro s i pc c r chan' pc' hr _ hready hturn hsleep _
    obtain ⟨buf, hbuf, -⟩ := stream_invariant hr.any
    exact needs_of_asleep hbuf hturn hsleep
  · rintro s i pc c r chan' pc' hr hgoes hready hturn hwoken hneed rfl
    obtain ⟨buf, hbuf, -⟩ := stream_invariant hr.any
    cases pc with
    | write src n k =>
        cases hturn
        refine needs_of_pipewrite hbuf (fun hchan => ?_) hwoken (hneed rfl)
        have hstays := hok hchan s _ hgoes
        simp only [Attended, hready] at hstays
        exact hstays
    | read dst n =>
        cases hturn
        exact needs_of_piperead hbuf hwoken (hneed rfl)
    | close writable =>
        cases hturn
        exact needs_of_pipeclose hwoken (hneed rfl)
  · intro s i chan' _ _ _ _ hneed
    exact hneed

/-- Whoever sleeps on a pipe has to.  A writer sleeps only while the ring is full and the
read end open; a reader only while the ring is empty and the write end open, as long as no
writer has been found killed after it had put bytes into the ring and before it woke the
readers. -/
theorem sleepers_need {page : Fin PIPESIZE → UInt8} {calls : ι → Call} {s : Pipes ι}
    {i : ι} {pc : Call} :
    (Reachable page calls s → s.thread i = .asleep .nwrite pc →
      s.data.Full ∧ s.data.readopen = true) ∧
    (Run.Reach (Start (pipealloc page) calls) (step turn) Attended s →
      s.thread i = .asleep .nread pc →
        s.data.nread = s.data.nwrite ∧ s.data.writeopen = true) := by
  constructor
  · intro hs hi
    have hneed : s.data.Needs .nwrite := needs_of_reach nofun hs hi
    exact hneed
  · intro hs hi
    have hneed : s.data.Needs .nread := needs_of_reach (fun _ _ _ h => h) hs hi
    exact hneed

/-- The writer of 600 bytes sleeps on the full ring.  When two readers have taken all that
it puts, a third one sleeps on the empty ring. -/
theorem sleepers_need_in_turn : ∃ s t : Pipes (Fin 4),
    (∃ pc, s.thread 0 = .asleep .nwrite pc) ∧ s.data.Full ∧ s.data.readopen = true ∧
    t.thread 0 = .left 600 ∧ (∃ pc, t.thread 3 = .asleep .nread pc) ∧
      t.data.nread = t.data.nwrite ∧ t.data.writeopen = true := by
  have hwrites : (Run.exec (step turn) (turns [0]) fourCallsStart).map (fun s => decide
      (∃ pc, s.thread 0 = .asleep .nwrite pc)) = some true := by decide +kernel
  have hreads : (Run.exec (step turn) (turns [0, 1, 0, 2, 3]) fourCallsStart).map (fun s => decide
      (s.thread 0 = .left 600 ∧ ∃ pc, s.thread 3 = .asleep .nread pc)) = some true := by
    decide +kernel
  obtain ⟨s, hexec, hs⟩ := Option.map_eq_some_iff.mp hwrites
  obtain ⟨t, hexec', ht⟩ := Option.map_eq_some_iff.mp hreads
  obtain ⟨pc, hwriter⟩ := of_decide_eq_true hs
  obtain ⟨hleft, pc', hreader⟩ := of_decide_eq_true ht
  have hreach : Reachable (fun _ => 0) fourCalls s :=
    Run.Reach.exec (turns [0]) (.start rfl) hexec
  have hattended : Run.Reach (Start (pipealloc fun _ => 0) fourCalls) (step turn) Attended t := by
    refine Run.Reach.script (turns [0, 1, 0, 2, 3]) (.start rfl) (fun a ha s => ?_) hexec'
    obtain ⟨i, -, rfl⟩ := List.mem_map.mp ha
    exact attended_of_not_killed s i
  obtain ⟨hfull, hopen⟩ := sleepers_need.1 hreach hwriter
  exact ⟨s, t, ⟨pc, hwriter⟩, hfull, hopen, hleft, ⟨pc', hreader⟩,
    sleepers_need.2 hattended hreader⟩

/-- The condition on the writers is needed.  A writer of two bytes is found killed between
them while a reader sleeps, and the reader sleeps on although a byte is in the ring. -/
theorem reader_deserted : ∃ calls : Bool → Call, ∃ s : Pipes Bool,
    Reachable (fun _ => 0) calls s ∧ s.thread true = .asleep .nread (.read (fun _ => true) 8) ∧
      s.data.nread ≠ s.data.nwrite := by
  refine ⟨fun reads => if reads then .read (fun _ => true) 8 else .write (fun _ => some 7) 2 0, _,
    Run.Reach.exec [.turn true fun _ => false, .turn false fun j => j = 1] (.start rfl) rfl,
    rfl, ?_⟩
  decide

end ShellXv6.Xv6.Pipe
