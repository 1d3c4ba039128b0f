import ShellXv6.Xv6.LogRun

/-!
# Nobody waits for the log in vain

Calls sleep in `begin_op` while there is a commit or no room, and in `sys_sync` until the
next commit is over.  All of them sleep on one channel, and whoever they wait for can go on.
-/

namespace ShellXv6.Xv6.Log

open IntConversion Monitor

/-- `begin_op` does not let anybody in. -/
def NoRoom (f : Fs) : Prop :=
  f.committing = true ∨ LOGBLOCKS < f.lh.length + (f.outstanding + 1) * MAXOPBLOCKS

/-- A commit goes on or will come. -/
def Busy (f : Fs) : Prop := f.committing = true ∨ 0 < f.outstanding

/-- What a sleeper waits for has not happened. -/
def Needed (f : Fs) : Pc → Prop
  | .beginOp _ => NoRoom f
  | .syncWait n => n = toInt (f.ncommit + 1) ∧ Busy f
  | _ => False

/-- The commit that a sleeper waits for is not over. -/
structure Stays (f f' : Fs) : Prop where
  ncommit : f'.ncommit = f.ncommit
  busy : Busy f → Busy f'

theorem Stays.refl (f : Fs) : Stays f f := ⟨rfl, id⟩

variable {ι : Type*} {start : ℕ} {d : Disk}

section

variable {f : Fs} {tr : List (ι × Event)} {pcs : ι → Option Pc} {F : Finset ι} {c : Option ι}
  {i : ι} {pc : Pc} {r : LogTurn}

/-- A turn leaves the sleepers what they wait for, or it wakes them. -/
theorem Invariant.turn_wakes (h : Invariant start d f tr pcs F c) (hi : pcs i = some pc)
    (hr : Log.turn start i pc f () = some r) :
    Stays f r.data ∧ (() ∈ r.woken ∨ (NoRoom f → NoRoom r.data)) ∨
      () ∈ r.woken ∧ r.data.ncommit = toInt (f.ncommit + 1) := by
  cases turns_of_turn hr with
  | began ws =>
      refine .inl ⟨⟨rfl, fun _ => .inr (Nat.succ_pos _)⟩, .inr (Or.imp_right fun hroom => ?_)⟩
      exact hroom.trans_le (Nat.add_le_add_left (Nat.mul_le_mul_right _ (Nat.le_succ _)) _)
  | endedLast => exact .inl ⟨⟨rfl, fun _ => .inl rfl⟩, .inr fun _ => .inl rfl⟩
  | ended hmore =>
      exact .inl ⟨⟨rfl, fun _ => .inr (Nat.pos_of_ne_zero hmore)⟩, .inl List.mem_cons_self⟩
  | logged b ws =>
      have hlength : f.lh.length ≤ (f.log b).lh.length := by
        simp only [Fs.log]
        split
        · exact Nat.le_refl _
        · rw [List.length_append]
          exact Nat.le_add_right _ _
      refine .inl ⟨⟨rfl, id⟩, .inr (Or.imp_right fun hroom => ?_)⟩
      exact hroom.trans_le (Nat.add_le_add_right hlength _)
  | headCleared =>
      obtain ⟨hc, -, -⟩ := h.committer hi rfl
      have hcom : f.committing = true := by rw [h.control.committing, hc]; rfl
      exact .inl ⟨⟨rfl, id⟩, .inr fun _ => .inl hcom⟩
  | commitEnds => exact .inr ⟨List.mem_cons_self, rfl⟩
  | full | syncWaits | syncs | waits | synced => exact .inl ⟨.refl f, .inr id⟩
  | commits | commitsNothing | copiedAll | installedAll => exact .inl ⟨.refl f, .inr id⟩
  | endPanics | stored | logPanics | evicted => exact .inl ⟨⟨rfl, id⟩, .inr id⟩
  | copied | headWritten | installed => exact .inl ⟨⟨rfl, id⟩, .inr id⟩

/-- A turn that puts its call to sleep. -/
inductive Rests (f : Fs) : Pc → Thread Unit Pc Unit → Prop
  | begin (ws : List (ℕ × Block)) (h : NoRoom f) :
      Rests f (.beginOp ws) (.asleep () (.beginOp ws))
  | sync (h : Busy f) : Rests f .sync (.asleep () (.syncWait (toInt (f.ncommit + 1))))
  | again (n : ℤ) (h : f.ncommit < n) : Rests f (.syncWait n) (.asleep () (.syncWait n))

theorem turn_rests (hr : turn start i pc f () = some r) :
    r.data = f ∧ Rests f pc r.thread ∨
      r.thread = .left () ∨ ∃ q, r.thread = .ready q ∧ ∀ n, q ≠ .syncWait n := by
  cases turns_of_turn hr with
  | full ws hfull => exact .inl ⟨rfl, .begin ws hfull⟩
  | syncWaits hbusy => exact .inl ⟨rfl, .sync hbusy⟩
  | waits n hn => exact .inl ⟨rfl, .again n hn⟩
  | endPanics | ended | logPanics | commitEnds => exact .inr (.inl rfl)
  | syncs | synced | evicted => exact .inr (.inl rfl)
  | began | endedLast | stored | logged => exact .inr (.inr ⟨_, rfl, by simp⟩)
  | commits | commitsNothing | copied | copiedAll => exact .inr (.inr ⟨_, rfl, by simp⟩)
  | headWritten | installed | installedAll | headCleared =>
      exact .inr (.inr ⟨_, rfl, by simp⟩)

/-- The call that commits can always go on. -/
theorem Invariant.commit_goes_on (h : Invariant start d f tr pcs F c) (hi : pcs i = some pc)
    (hpc : pc.role = .committer) : (Log.turn start i pc f ()).isSome := by
  obtain ⟨-, hF, -⟩ := h.committer hi hpc
  have hfree := h.control.unlocked hF
  cases pc with
  | beginOp ws => cases hpc
  | body ws => cases hpc
  | logWrite b ws => cases hpc
  | sync => cases hpc
  | syncWait n => cases hpc
  | evict b => cases hpc
  | commit => rfl
  | writeLog tail => cases hb : f.lh[tail]? <;> simp [Log.turn, writeLog, hb, hfree]
  | writeHead => rfl
  | install tail => cases hb : f.lh[tail]? <;> simp [Log.turn, install, hb, hfree]
  | clearHead => rfl
  | endCommit => rfl

theorem committer_of_commits {pc : Option Pc} (h : (roleOf pc).commits) :
    ∃ q, pc = some q ∧ q.role = .committer := by
  cases pc with
  | none => cases h
  | some q =>
      refine ⟨q, rfl, ?_⟩
      cases q <;> first | rfl | cases h

theorem Needed.role (h : Needed f pc) : pc.role = .outsider := by
  cases pc <;> first | rfl | exact absurd h id

/-- An empty log has room, so somebody is there who will commit. -/
theorem Invariant.busy_of_needed (hinv : Invariant start d f tr pcs F c) (h : Needed f pc) :
    Busy f := by
  cases pc with
  | syncWait n => exact h.2
  | beginOp ws =>
      rcases h with hcom | hroom
      · exact .inl hcom
      · by_cases hpos : 0 < f.outstanding
        · exact .inr hpos
        · refine .inl ?_
          rw [hinv.control.committing]
          cases hc : c with
          | some j => rfl
          | none =>
              have hF : F = ∅ := Finset.card_eq_zero.mp (hinv.control.card.trans (by omega))
              rw [hinv.control.idle hc hF] at hroom
              have hlen : 30 < 0 + (f.outstanding + 1) * 10 := hroom
              omega
  | _ => exact absurd h id

/-- Among the operations in progress there is one that can go on: one that waits for a
buffer waits for another operation, which does not wait. -/
theorem Invariant.work_goes_on (h : Invariant start d f tr pcs F c) (hpos : 0 < f.outstanding) :
    ∃ j pc, pcs j = some pc ∧ pc.role.todo.isSome ∧ (Log.turn start j pc f ()).isSome := by
  obtain ⟨i, hi⟩ := Finset.card_pos.mp (h.control.card ▸ hpos)
  have hrole := (h.control.ops i).mp hi
  cases hpc : pcs i with
  | none => simp [hpc, roleOf, Role.outsider] at hrole
  | some pc =>
      rw [hpc] at hrole
      cases pc with
      | body ws =>
          cases ws with
          | nil => exact ⟨i, _, hpc, rfl, rfl⟩
          | cons e ws =>
              obtain ⟨b, v⟩ := e
              by_cases hb : f.locked b = true
              · obtain ⟨k, hk⟩ := (h.control.locked b).mp hb
                cases hpck : pcs k with
                | none => simp [hpck, roleOf, Role.outsider] at hk
                | some pck =>
                    rw [hpck] at hk
                    cases pck with
                    | logWrite b' ws' => exact ⟨k, _, hpck, rfl, rfl⟩
                    | beginOp ws' => cases hk
                    | body ws' => cases hk
                    | sync => cases hk
                    | syncWait n => cases hk
                    | evict b' => cases hk
                    | commit => cases hk
                    | writeLog tail => cases hk
                    | writeHead => cases hk
                    | install tail => cases hk
                    | clearHead => cases hk
                    | endCommit => cases hk
              · exact ⟨i, _, hpc, rfl, by simp [Log.turn, store, hb]⟩
      | logWrite b ws => exact ⟨i, _, hpc, rfl, rfl⟩
      | beginOp ws => cases hrole
      | sync => cases hrole
      | syncWait n => cases hrole
      | evict b => cases hrole
      | commit => cases hrole
      | writeLog tail => cases hrole
      | writeHead => cases hrole
      | install tail => cases hrole
      | clearHead => cases hrole
      | endCommit => cases hrole

end

variable [DecidableEq ι] {calls : ι → Call} {s : Logs ι}

theorem syncWait_of_reach (hs : EarlyReachable start d calls s) (hclean : readHead (d start) = [])
    (hmodest : Modestly start calls) :
    ∀ j n, s.pcs j = some (.syncWait n) → n ≤ s.data.ncommit ∨ Needed s.data (.syncWait n) := by
  apply pc_invariant (P := fun f _ pcs => ∀ j n, pcs j = some (.syncWait n) →
    n ≤ f.ncommit ∨ Needed f (.syncWait n)) hs
  · intro j n hj
    cases hcall : calls j with
    | op ws => simp [hcall, Call.begin] at hj
    | sync => simp [hcall, Call.begin] at hj
    | evict b => simp [hcall, Call.begin] at hj
  · rintro s i pc ⟨⟩ r hr hearly ih hready hturn j n hj
    have hi := s.pcs_of_ready i pc hready
    obtain ⟨F, c, hinv⟩ := invariant_of_reach hr.any hclean hmodest
    -- what was true of the data before the turn is true after it
    have hkeep : n ≤ s.data.ncommit ∨ Needed s.data (.syncWait n) →
        n ≤ r.data.ncommit ∨ Needed r.data (.syncWait n) := by
      intro h
      rcases hinv.turn_wakes hi hturn with ⟨hstays, -⟩ | ⟨-, hnext⟩
      · refine h.imp (hstays.ncommit ▸ ·) fun hneed => ?_
        exact ⟨by rw [hstays.ncommit, hneed.1], hstays.busy hneed.2⟩
      · rcases h with hle | ⟨rfl, -⟩
        · rw [hnext]
          exact .inl (hle.trans (Int.le_of_lt hearly))
        · exact .inl (Int.le_of_eq hnext.symm)
    by_cases hji : j = i
    · subst hji
      rw [Function.update_self] at hj
      rcases turn_rests hturn with ⟨hdata, hrests⟩ | hleft | ⟨q, hready, hq⟩
      · generalize r.thread = th at hrests hj
        cases hrests with
        | begin ws hroom => cases hj
        | sync hbusy =>
            cases hj
            exact .inr (by rw [hdata]; exact ⟨rfl, hbusy⟩)
        | again m hm =>
            cases hj
            exact hkeep (ih j n hi)
      · rw [hleft] at hj
        cases hj
      · rw [hready] at hj
        exact absurd (Option.some.inj hj) (hq n)
    · rw [Function.update_of_ne hji] at hj
      exact hkeep (ih j n hj)

theorem needed_of_asleep (hs : EarlyReachable start d calls s) (hclean : readHead (d start) = [])
    (hmodest : Modestly start calls) {i : ι} {pc : Pc} (hi : s.thread i = .asleep () pc) :
    Needed s.data pc := by
  refine asleep_needed (P := fun _ pc s => Needed s.data pc) hs ?_ ?_ ?_ hi
  · rintro s i pc ⟨⟩ r chan pc' hr - hready hturn hsleep
    rcases turn_rests hturn with ⟨hdata, hrests⟩ | hleft | ⟨q, hready', -⟩
    · rw [hsleep] at hrests
      rw [after_data, hdata]
      cases hrests with
      | begin ws hroom => exact hroom
      | sync hbusy => exact ⟨rfl, hbusy⟩
      | again n hn =>
          have hwait := syncWait_of_reach hr hclean hmodest i n (s.pcs_of_ready i _ hready)
          exact hwait.resolve_left (Int.not_le.mpr hn)
    · cases hleft.symm.trans hsleep
    · cases hready'.symm.trans hsleep
  · rintro s i pc ⟨⟩ r ⟨⟩ pc' hr - hready hturn hwoken hneed
    obtain ⟨F, c, hinv⟩ := invariant_of_reach hr.any hclean hmodest
    rcases hinv.turn_wakes (s.pcs_of_ready i _ hready) hturn with
      ⟨hstays, hroom⟩ | ⟨hwakes, -⟩
    · rw [after_data]
      have hroom' := hroom.resolve_left hwoken
      cases pc' with
      | beginOp ws => exact hroom' hneed
      | syncWait n => exact ⟨by rw [hstays.ncommit, hneed.1], hstays.busy hneed.2⟩
      | _ => exact absurd hneed id
    · exact absurd hwakes hwoken
  · exact fun s i chan pc chan' pc' _ hneed => hneed

end ShellXv6.Xv6.Log
