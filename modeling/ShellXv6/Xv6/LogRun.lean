import ShellXv6.Xv6.LogControl

/-!
# Runs of the log

In every interleaving of operations that change few enough blocks, `log_write` finds an
entry, a commit starts when all operations have ended and runs alone, and cache and disk
agree with the specification.
-/

namespace ShellXv6.Xv6.Log

open IntConversion Monitor

variable {ι : Type*}

/-- The phase of the commit that goes on. -/
def phaseOf (lh : List ℕ) (pcs : ι → Option Pc) (c : Option ι) : Phase :=
  (c.bind pcs).elim .idle (Pc.phase lh)

/-- What holds in every state of a run. -/
structure Invariant (start : ℕ) (d : Disk) (f : Fs) (tr : List (ι × Event))
    (pcs : ι → Option Pc) (F : Finset ι) (c : Option ι) : Prop where
  control : Control start f (fun j => roleOf (pcs j)) F c
  data : DataInv start f (specOf d (tr.map Prod.snd)) (phaseOf f.lh pcs c)
  waits : ∀ j ws, pcs j = some (.beginOp ws) → Modest start (ws.map Prod.fst)
  calm : f.panicked = none

section

variable {start : ℕ} {d : Disk} {f : Fs} {tr : List (ι × Event)} {pcs : ι → Option Pc}
  {F : Finset ι} {c : Option ι} {i : ι}

theorem specOf_append (es : List Event) :
    specOf d ((tr ++ es.map fun e => (i, e)).map Prod.snd) =
      es.foldl Spec.apply (specOf d (tr.map Prod.snd)) := by
  simp [specOf, Function.comp_def, List.foldl_append]

namespace Invariant

theorem committer (h : Invariant start d f tr pcs F c) {pc : Pc} (hi : pcs i = some pc)
    (hpc : pc.role = .committer) :
    c = some i ∧ F = ∅ ∧ DataInv start f (specOf d (tr.map Prod.snd)) (pc.phase f.lh) := by
  have hc : c = some i := (h.control.commits i).mpr (by simp [hi, roleOf, hpc, Role.committer])
  refine ⟨hc, h.control.alone (by rw [hc]; rfl), ?_⟩
  have hphase : phaseOf f.lh pcs c = pc.phase f.lh := by simp [phaseOf, hc, hi]
  exact hphase ▸ h.data

theorem worker (h : Invariant start d f tr pcs F c) {pc : Pc} (hi : pcs i = some pc)
    (hpc : pc.role.todo.isSome) :
    c = none ∧ i ∈ F ∧ DataInv start f (specOf d (tr.map Prod.snd)) .idle := by
  have hmem : i ∈ F := (h.control.ops i).mpr (by simpa [hi, roleOf] using hpc)
  have hc := h.control.no_commit hmem
  have hdata := h.data
  rw [hc] at hdata
  exact ⟨hc, hmem, hdata⟩

/-- There is room for the block that `log_write` lists. -/
theorem room {b : ℕ} {ws : List (ℕ × Block)} (h : Invariant start d f tr pcs F c)
    (hi : pcs i = some (.logWrite b ws)) : f.lh.length < LOGBLOCKS ∧ 0 < f.outstanding := by
  obtain ⟨-, hmem, -⟩ := h.worker hi rfl
  have htodo : (roleOf (pcs i)).todo = some (b :: ws.map Prod.fst) := by rw [hi]; rfl
  exact ⟨h.control.length_lt htodo, h.control.card ▸ Finset.card_pos.mpr ⟨i, hmem⟩⟩

end Invariant

end

variable [DecidableEq ι]

section

variable {start : ℕ} {d : Disk} {f f' : Fs} {tr : List (ι × Event)} {pcs : ι → Option Pc}
  {F F' : Finset ι} {c c' : Option ι} {i : ι} {es : List Event}

theorem role_update (pc : Option Pc) : (fun j => roleOf (Function.update pcs i pc j)) =
    Function.update (fun j => roleOf (pcs j)) i (roleOf pc) := by
  funext j
  exact Function.apply_update (fun _ => roleOf) pcs i pc j

theorem phaseOf_update_of_ne {lh : List ℕ} {pc : Option Pc} (h : c ≠ some i) :
    phaseOf lh (Function.update pcs i pc) c = phaseOf lh pcs c := by
  cases c with
  | none => rfl
  | some j =>
      have hji : j ≠ i := fun hji => h (by rw [hji])
      simp [phaseOf, hji]

theorem phaseOf_update_self {lh : List ℕ} {pc : Pc} :
    phaseOf lh (Function.update pcs i (some pc)) (some i) = pc.phase lh := by
  simp [phaseOf]

/-- No call comes to `begin_op` but from there. -/
theorem waits_update {pc : Option Pc}
    (h : ∀ j ws, pcs j = some (.beginOp ws) → Modest start (ws.map Prod.fst))
    (hpc : ∀ ws, pc = some (.beginOp ws) → Modest start (ws.map Prod.fst)) :
    ∀ j ws, Function.update pcs i pc j = some (.beginOp ws) → Modest start (ws.map Prod.fst) :=
  (Function.forall_update_iff pcs
    (p := fun _ x => ∀ ws, x = some (.beginOp ws) → Modest start (ws.map Prod.fst))).mpr
    ⟨hpc, fun j _ => h j⟩

namespace Invariant

/-- A turn of a call that neither works nor commits, before and after it. -/
theorem outside {pc : Option Pc} (h : Invariant start d f tr pcs F c)
    (hi : roleOf (pcs i) = .outsider) (hpc : roleOf pc = .outsider)
    (hwait : ∀ ws, pc = some (.beginOp ws) → Modest start (ws.map Prod.fst))
    (hcontrol : Control start f' (fun j => roleOf (pcs j)) F c)
    (hlh : f'.lh = f.lh) (hcalm : f'.panicked = none)
    (hdata : ∀ ph, DataInv start f (specOf d (tr.map Prod.snd)) ph →
      DataInv start f' (es.foldl Spec.apply (specOf d (tr.map Prod.snd))) ph) :
    Invariant start d f' (tr ++ es.map fun e => (i, e)) (Function.update pcs i pc) F c := by
  have hc : c ≠ some i := by
    intro hc
    have hcom := (h.control.commits i).mp hc
    simp [hi, Role.outsider] at hcom
  refine ⟨?_, ?_, waits_update h.waits hwait, hcalm⟩
  · rw [role_update, hpc, ← hi, Function.update_eq_self]
    exact hcontrol
  · rw [specOf_append, phaseOf_update_of_ne hc, hlh]
    exact hdata _ h.data

theorem commits {pc pc' : Pc} (h : Invariant start d f tr pcs F c) (hi : pcs i = some pc)
    (hpc : pc.role = .committer) (hpc' : pc'.role = .committer)
    (hlh : f'.lh.length ≤ f.lh.length) (hout : f'.outstanding = f.outstanding)
    (hcom : f'.committing = f.committing) (hlock : f'.locked = f.locked)
    (hcalm : f'.panicked = f.panicked)
    (hdata : DataInv start f' (es.foldl Spec.apply (specOf d (tr.map Prod.snd)))
      (pc'.phase f'.lh)) :
    Invariant start d f' (tr ++ es.map fun e => (i, e)) (Function.update pcs i (some pc')) F c := by
  obtain ⟨hc, hF, -⟩ := h.committer hi hpc
  have hrole : roleOf (some pc') = roleOf (pcs i) := by rw [hi]; exact hpc'.trans hpc.symm
  refine ⟨?_, ?_, waits_update h.waits ?_, hcalm.trans h.calm⟩
  · rw [role_update, hrole, Function.update_eq_self]
    have hctl := h.control
    refine ⟨hctl.ops, hout ▸ hctl.card, hctl.commits, hcom ▸ hctl.committing, hctl.alone, ?_,
      hlock ▸ hctl.locked, hctl.holder, hctl.works, hctl.modest, ?_⟩
    · rw [hc]
      exact fun hnone => absurd hnone (Option.some_ne_none i)
    · have hspace := hctl.space
      rw [hF, Finset.sum_empty] at hspace ⊢
      omega
  · rw [specOf_append, hc, phaseOf_update_self]
    exact hdata
  · rintro ws ⟨⟩
    cases hpc'

end Invariant

/-- The invariant holds after the turn `r` of call `i`. -/
def Kept (start : ℕ) (d : Disk) (tr : List (ι × Event)) (pcs : ι → Option Pc) (i : ι)
    (r : LogTurn) : Prop :=
  ∃ F c, Invariant start d r.data (tr ++ r.events.map fun e => (i, e))
    (Function.update pcs i r.thread.pc) F c

variable {pc : Pc} {b : ℕ} {v : Block} {ws : List (ℕ × Block)} {tail : ℕ} {n : ℤ}

namespace Invariant

/-- A call that neither works nor commits has looked at the data only. -/
theorem looked {pc : Pc} {th : Thread Unit Pc Unit} (h : Invariant start d f tr pcs F c)
    (hi : pcs i = some pc) (hpc : pc.role = .outsider) (hth : roleOf th.pc = .outsider)
    (hwait : ∀ ws, th.pc = some (.beginOp ws) → Modest start (ws.map Prod.fst))
    (hspec : ∀ sp : Spec, es.foldl Spec.apply sp = sp) :
    Kept start d tr pcs i ⟨f, [], es, th⟩ := by
  have hrole : roleOf (pcs i) = .outsider := by rw [hi]; exact hpc
  exact ⟨F, c, h.outside hrole hth hwait h.control rfl h.calm fun _ hd => (hspec _).symm ▸ hd⟩

theorem begin_turn (h : Invariant start d f tr pcs F c) (hi : pcs i = some (.beginOp ws))
    (hcom : f.committing = false)
    (hroom : f.lh.length + (f.outstanding + 1) * MAXOPBLOCKS ≤ LOGBLOCKS) :
    Kept start d tr pcs i
      ⟨{ f with outstanding := f.outstanding + 1 }, [], [.began], .ready (.body ws)⟩ := by
  have hrole : roleOf (pcs i) = .outsider := by rw [hi]; rfl
  have hnone : c = none := by simpa [h.control.committing] using hcom
  refine ⟨insert i F, c, ?_, ?_, waits_update h.waits (by simp [Thread.pc]), h.calm⟩
  · rw [role_update]
    exact h.control.begin_op hrole hcom hroom (h.waits i ws hi)
  · rw [specOf_append, phaseOf_update_of_ne (by simp [hnone])]
    exact h.data.congr rfl rfl rfl rfl rfl

theorem store_turn (h : Invariant start d f tr pcs F c) (hi : pcs i = some (.body ((b, v) :: ws)))
    (hb : f.locked b = false) :
    Kept start d tr pcs i ⟨f.store b v, [], [.stored b v], .ready (.logWrite b ws)⟩ := by
  have hrole : roleOf (pcs i) = ⟨some (b :: ws.map Prod.fst), none, false⟩ := by rw [hi]; rfl
  obtain ⟨hc, -, hdata⟩ := h.worker hi rfl
  refine ⟨F, c, ?_, ?_, waits_update h.waits (by simp [Thread.pc]), h.calm⟩
  · rw [role_update]
    exact h.control.store hrole hb v
  · rw [specOf_append, phaseOf_update_of_ne (by simp [hc]), hc]
    exact hdata.store hb v

theorem log_turn (h : Invariant start d f tr pcs F c) (hi : pcs i = some (.logWrite b ws)) :
    Kept start d tr pcs i ⟨f.log b, [], [], .ready (.body ws)⟩ := by
  have hrole : roleOf (pcs i) = ⟨some (b :: ws.map Prod.fst), some b, false⟩ := by rw [hi]; rfl
  obtain ⟨hc, -, hdata⟩ := h.worker hi rfl
  have hlocked : f.locked b = true := (h.control.locked b).mpr ⟨i, by rw [hrole]⟩
  have hmodest := h.control.modest i (b :: ws.map Prod.fst) (by rw [hrole])
  refine ⟨F, c, ?_, ?_, waits_update h.waits (by simp [Thread.pc]), h.calm⟩
  · rw [role_update]
    exact h.control.log hrole
  · rw [specOf_append, phaseOf_update_of_ne (by simp [hc]), hc]
    exact hdata.log hlocked (hmodest.home b List.mem_cons_self) (h.room hi).1

theorem endLast_turn (h : Invariant start d f tr pcs F c) (hi : pcs i = some (.body []))
    (hlast : f.outstanding - 1 = 0) : Kept start d tr pcs i
      ⟨{ f with outstanding := 0, committing := true }, [], [.ended], .ready .commit⟩ := by
  have hrole : roleOf (pcs i) = ⟨some [], none, false⟩ := by rw [hi]; rfl
  obtain ⟨-, -, hdata⟩ := h.worker hi rfl
  refine ⟨∅, some i, ?_, ?_, waits_update h.waits (by simp [Thread.pc]), h.calm⟩
  · rw [role_update]
    exact h.control.end_last hrole hlast
  · rw [specOf_append]
    simp only [Thread.pc, phaseOf_update_self]
    exact hdata.congr rfl rfl rfl rfl rfl

theorem end_turn (h : Invariant start d f tr pcs F c) (hi : pcs i = some (.body []))
    (hmore : f.outstanding - 1 ≠ 0) : Kept start d tr pcs i
      ⟨{ f with outstanding := f.outstanding - 1 }, [()], [.ended], .left ()⟩ := by
  have hrole : roleOf (pcs i) = ⟨some [], none, false⟩ := by rw [hi]; rfl
  obtain ⟨hc, -, hdata⟩ := h.worker hi rfl
  refine ⟨F.erase i, c, ?_, ?_, waits_update h.waits (by simp [Thread.pc]), h.calm⟩
  · rw [role_update]
    exact h.control.end_op hrole hmore
  · rw [specOf_append, phaseOf_update_of_ne (by simp [hc]), hc]
    exact hdata.congr rfl rfl rfl rfl rfl

theorem endCommit_turn (h : Invariant start d f tr pcs F c) (hi : pcs i = some .endCommit) :
    Kept start d tr pcs i (endCommit f) := by
  have hrole : roleOf (pcs i) = .committer := by rw [hi]; rfl
  obtain ⟨-, -, hdata⟩ := h.committer hi rfl
  have hlh : f.lh = [] := hdata.disk.1
  refine ⟨F, none, ?_, ?_, waits_update h.waits (by simp [endCommit, Thread.pc]), h.calm⟩
  · rw [role_update]
    exact h.control.end_commit hrole hlh
  · rw [specOf_append]
    exact hdata.end_commit.congr rfl rfl rfl rfl rfl

theorem evict_turn (h : Invariant start d f tr pcs F c) (hi : pcs i = some (.evict b))
    (hb : f.refcnt b = 0) : Kept start d tr pcs i
      ⟨{ f with cache := Function.update f.cache b none }, [], [], .left ()⟩ := by
  have hrole : roleOf (pcs i) = .outsider := by rw [hi]; rfl
  have hcontrol : Control start { f with cache := Function.update f.cache b none }
      (fun j => roleOf (pcs j)) F c := h.control.congr rfl rfl rfl rfl
  exact ⟨F, c, h.outside hrole rfl (by simp [Thread.pc]) hcontrol rfl h.calm
    fun _ hd => hd.evict hb⟩

/-- A commit goes on with data that its next phase asks for. -/
theorem committer_turn {pc' : Pc} (h : Invariant start d f tr pcs F c) (hi : pcs i = some pc)
    (hpc : pc.role = .committer) (hpc' : pc'.role = .committer)
    (hlh : f'.lh.length ≤ f.lh.length) (hout : f'.outstanding = f.outstanding)
    (hcom : f'.committing = f.committing) (hlock : f'.locked = f.locked)
    (hcalm : f'.panicked = f.panicked)
    (hdata : (∀ b, f.locked b = false) →
      DataInv start f (specOf d (tr.map Prod.snd)) (pc.phase f.lh) →
      DataInv start f' (es.foldl Spec.apply (specOf d (tr.map Prod.snd))) (pc'.phase f'.lh)) :
    Kept start d tr pcs i ⟨f', [], es, .ready pc'⟩ := by
  obtain ⟨-, hF, hphase⟩ := h.committer hi hpc
  exact ⟨F, c, h.commits hi hpc hpc' hlh hout hcom hlock hcalm
    (hdata (h.control.unlocked hF) hphase)⟩

theorem turn {r : LogTurn} (h : Invariant start d f tr pcs F c) (hi : pcs i = some pc)
    (hr : turn start i pc f () = some r) : Kept start d tr pcs i r := by
  cases turns_of_turn hr with
  | full ws =>
      refine h.looked hi rfl rfl ?_ fun _ => rfl
      rintro _ ⟨⟩
      exact h.waits i ws hi
  | began ws hcom hroom => exact h.begin_turn hi hcom hroom
  | endPanics msg hcom =>
      obtain ⟨hc, -, -⟩ := h.worker hi rfl
      rw [h.control.committing, hc] at hcom
      cases hcom
  | endedLast hlast => exact h.endLast_turn hi hlast
  | ended hmore => exact h.end_turn hi hmore
  | stored b v ws hb => exact h.store_turn hi hb
  | logPanics b ws msg hpanic =>
      obtain ⟨hspace, hout⟩ := h.room hi
      omega
  | logged b ws => exact h.log_turn hi
  | commits =>
      exact h.committer_turn hi rfl rfl (Nat.le_refl _) rfl rfl rfl rfl fun _ hd => hd.copy_start
  | commitsNothing hnil =>
      exact h.committer_turn hi rfl rfl (Nat.le_refl _) rfl rfl rfl rfl fun hfree hd =>
        hd.commit_nil hnil hfree
  | copied tail b hb =>
      exact h.committer_turn hi rfl rfl (Nat.le_refl _) rfl rfl rfl rfl fun _ hd => hd.writeLog hb
  | copiedAll tail htail =>
      exact h.committer_turn hi rfl rfl (Nat.le_refl _) rfl rfl rfl rfl fun _ hd =>
        hd.copy_end htail
  | headWritten =>
      exact h.committer_turn hi rfl rfl (Nat.le_refl _) rfl rfl rfl rfl fun hfree hd =>
        hd.writeHead hfree
  | installed tail b hb =>
      exact h.committer_turn hi rfl rfl (Nat.le_refl _) rfl rfl rfl rfl fun hfree hd =>
        hd.install hb hfree
  | installedAll tail htail =>
      exact h.committer_turn hi rfl rfl (Nat.le_refl _) rfl rfl rfl rfl fun _ hd =>
        hd.install_end htail
  | headCleared =>
      exact h.committer_turn hi rfl rfl (Nat.zero_le _) rfl rfl rfl rfl fun _ hd => hd.clearHead
  | commitEnds => exact h.endCommit_turn hi
  | syncWaits | syncs | waits | synced =>
      exact h.looked hi rfl rfl (by simp [Thread.pc]) fun _ => rfl
  | evicted b hb => exact h.evict_turn hi hb

end Invariant

end

/-! ## Whole runs -/

abbrev Logs (ι : Type*) := State ι Fs Unit Pc Unit Event

/-- The states of the runs in which `calls` are made on the disk `d`. -/
def Reachable (start : ℕ) (d : Disk) (calls : ι → Call) : Logs ι → Prop :=
  Run.Reach (Start (boot d) fun i => (calls i).begin) (step (turn start)) Run.Any

variable {start : ℕ} {d : Disk} {calls : ι → Call} {s : Logs ι}

/-- The counter of commits can still be increased. -/
def Early (s : Logs ι) (_ : Monitor.Action ι Unit) : Prop :=
  s.data.ncommit < toInt (s.data.ncommit + 1)

instance (s : Logs ι) (a : Monitor.Action ι Unit) : Decidable (Early s a) :=
  inferInstanceAs (Decidable (_ < _))

/-- The states of the runs in which it does not overflow, those with less than `2 ^ 31 - 1`
commits. -/
def EarlyReachable (start : ℕ) (d : Disk) (calls : ι → Call) : Logs ι → Prop :=
  Run.Reach (Start (boot d) fun i => (calls i).begin) (step (turn start)) Early

theorem EarlyReachable.reachable (hs : EarlyReachable start d calls s) :
    Reachable start d calls s := Run.Reach.any hs

/-- The operations among the calls are modest. -/
def Modestly (start : ℕ) (calls : ι → Call) : Prop :=
  ∀ i ws, calls i = .op ws → Modest start (ws.map Prod.fst)

theorem invariant_of_reach (hs : Reachable start d calls s) (hclean : readHead (d start) = [])
    (hmodest : Modestly start calls) :
    ∃ F c, Invariant start d s.data s.trace s.pcs F c := by
  apply pc_invariant (P := fun f tr pcs => ∃ F c, Invariant start d f tr pcs F c) hs
  · have hrole : ∀ i, roleOf (some (calls i).begin) = .outsider := by
      intro i
      cases calls i <;> rfl
    refine ⟨∅, none, ?_, dataInv_boot hclean, ?_, rfl⟩
    · simp only [hrole]
      exact control_boot start d
    · intro i ws hi
      cases hcall : calls i with
      | op ws' =>
          rw [hcall] at hi
          cases hi
          exact hmodest i ws hcall
      | sync => simp [hcall, Call.begin] at hi
      | evict b => simp [hcall, Call.begin] at hi
  · rintro s i pc ⟨⟩ r - - ⟨F, c, hinv⟩ hi hr
    exact hinv.turn (s.pcs_of_ready i pc hi) hr

/-- A call is between `begin_op` and `end_op`. -/
def InOp (s : Logs ι) (i : ι) : Prop := (roleOf (s.pcs i)).todo.isSome

/-- A call is in `commit`. -/
def Commits (s : Logs ι) (i : ι) : Prop := (roleOf (s.pcs i)).commits

/-- The log never overflows: if every operation calls `log_write` for few enough blocks,
no call comes to a panic of the log, whatever the others do.  A commit runs alone and with no
operation in progress. -/
theorem log_never_full (hs : Reachable start d calls s) (hclean : readHead (d start) = [])
    (hmodest : Modestly start calls) :
    s.data.panicked = none ∧ s.data.lh.length ≤ LOGBLOCKS ∧ s.data.lh.Nodup ∧
      ∀ i j, Commits s i → ¬ InOp s j ∧ (Commits s j → j = i) := by
  obtain ⟨F, c, hinv⟩ := invariant_of_reach hs hclean hmodest
  refine ⟨hinv.calm, hinv.data.sound.length, hinv.data.sound.nodup, ?_⟩
  intro i j hi
  have hc := (hinv.control.commits i).mpr hi
  refine ⟨?_, fun hj => ?_⟩
  · intro hj
    have hmem := (hinv.control.ops j).mpr hj
    rw [hinv.control.alone (by rw [hc]; rfl)] at hmem
    cases hmem
  · have hc' := (hinv.control.commits j).mpr hj
    exact Option.some.inj (hc'.symm.trans hc)

def blank : Disk := fun _ _ _ => 0

/-- Four operations, of which the first two change block 100, and a call of `sync`. -/
def fiveCalls : Fin 5 → Call
  | 0 => .op [(100, fun _ _ => 7)]
  | 1 => .op [(200, fun _ _ => 8), (100, fun _ _ => 9)]
  | 2 => .op []
  | 3 => .op [(300, fun _ _ => 1)]
  | 4 => .sync

theorem modestly_fiveCalls : Modestly 2 fiveCalls := by
  intro i ws hi
  unfold fiveCalls at hi
  split at hi
  · cases hi
    exact ⟨by decide, by decide⟩
  · cases hi
    exact ⟨by decide, by decide⟩
  · cases hi
    exact ⟨by decide, by decide⟩
  · cases hi
    exact ⟨by decide, by decide⟩
  · cases hi

/-- The turns of these calls, one after the other. -/
def turns (is : List (Fin 5)) : List (Monitor.Action (Fin 5) Unit) := is.map fun i => .turn i ()

/-- The first two operations go on side by side, and the second one commits both of them
while the fourth one waits. -/
theorem log_never_full_two_operations : ∃ s : Logs (Fin 5), Reachable 2 blank fiveCalls s ∧
    s.data.lh = [100, 200] ∧ s.thread 0 = .left () ∧ s.thread 1 = .ready (.install 1) ∧
      s.data.panicked = none ∧ ∀ j, ¬ InOp s j := by
  have hs : Reachable 2 blank fiveCalls _ :=
    Run.Reach.exec (turns [0, 1, 0, 0, 1, 0, 1, 1, 1, 1, 3, 1, 1, 1, 1, 1, 1]) (.start rfl) rfl
  obtain ⟨hcalm, -, -, halone⟩ := log_never_full hs rfl modestly_fiveCalls
  exact ⟨_, hs, rfl, rfl, rfl, hcalm, fun j => (halone 1 j rfl).1⟩

end ShellXv6.Xv6.Log
