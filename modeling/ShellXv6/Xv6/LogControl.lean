import ShellXv6.Xv6.LogData
import Mathlib.Algebra.BigOperators.Group.Finset.Basic
import Mathlib.Algebra.Order.BigOperators.Group.Finset

/-!
# Who works on the log

The operations that have begun and not ended are `outstanding` in number, and a commit
runs alone.  Each operation has room in the log for what it may still have to list, so
that `log_write` never finds the log full.
-/

namespace ShellXv6.Xv6.Log

open Monitor

/-! ## Room in the log -/

/-- The entries that calls of `log_write` for these blocks may need: `log_write` asks for a
free entry even if it does not use it. -/
def reserve (bs lh : List ℕ) : ℕ := min bs.length ((bs.toFinset \ lh.toFinset).card + 1)

section

variable {b : ℕ} {bs lh lh' : List ℕ}

theorem reserve_mono (h : lh ⊆ lh') : reserve bs lh' ≤ reserve bs lh := by
  have hsub : bs.toFinset \ lh'.toFinset ⊆ bs.toFinset \ lh.toFinset :=
    Finset.sdiff_subset_sdiff (Finset.Subset.refl _) fun x hx =>
      List.mem_toFinset.mpr (h (List.mem_toFinset.mp hx))
  have hcard := Finset.card_le_card hsub
  unfold reserve
  omega

theorem reserve_tail (b : ℕ) (bs lh : List ℕ) : reserve bs lh ≤ reserve (b :: bs) lh := by
  have hsub : bs.toFinset \ lh.toFinset ⊆ (b :: bs).toFinset \ lh.toFinset := by
    rw [List.toFinset_cons]
    exact Finset.sdiff_subset_sdiff (Finset.subset_insert _ _) (Finset.Subset.refl _)
  have hcard := Finset.card_le_card hsub
  unfold reserve
  rw [List.length_cons]
  omega

theorem reserve_cons_pos : 0 < reserve (b :: bs) lh := by
  unfold reserve
  rw [List.length_cons]
  omega

/-- A new entry is paid for by the call that makes it. -/
theorem reserve_new (hb : b ∉ lh) : reserve bs (lh ++ [b]) + 1 ≤ reserve (b :: bs) lh := by
  have hmem : b ∈ (b :: bs).toFinset \ lh.toFinset := by simp [hb]
  have hsub : bs.toFinset \ (lh ++ [b]).toFinset ⊆ ((b :: bs).toFinset \ lh.toFinset).erase b := by
    intro x hx
    simp only [List.toFinset_append, List.toFinset_cons, List.toFinset_nil, Finset.mem_sdiff,
      Finset.mem_union, Finset.mem_insert, List.mem_toFinset, Finset.notMem_empty, or_false,
      Finset.mem_erase, not_or] at hx ⊢
    exact ⟨hx.2.2, .inr hx.1, hx.2.1⟩
  have hcard := Finset.card_le_card hsub
  rw [Finset.card_erase_of_mem hmem] at hcard
  have hpos : 0 < ((b :: bs).toFinset \ lh.toFinset).card := Finset.card_pos.mpr ⟨b, hmem⟩
  unfold reserve
  rw [List.length_cons]
  omega

end

/-- What an operation may do: it changes blocks outside the log, and not too many. -/
structure Modest (start : ℕ) (bs : List ℕ) : Prop where
  home : ∀ b ∈ bs, ¬ InLog start b
  few : reserve bs [] ≤ MAXOPBLOCKS

theorem Modest.tail {start b : ℕ} {bs : List ℕ} (h : Modest start (b :: bs)) :
    Modest start bs where
  home := fun x hx => h.home x (List.mem_cons_of_mem b hx)
  few := (reserve_tail b bs []).trans h.few

/-! ## The operations and the commit -/

/-- What a call is to the others: the blocks that its operation will still pass to
`log_write`, the buffer that it has locked, and whether it carries out a commit. -/
structure Role where
  todo : Option (List ℕ)
  holds : Option ℕ
  commits : Bool

def Role.outsider : Role := ⟨none, none, false⟩

def Role.committer : Role := ⟨none, none, true⟩

def Pc.role : Pc → Role
  | .body ws => ⟨some (ws.map Prod.fst), none, false⟩
  | .logWrite b ws => ⟨some (b :: ws.map Prod.fst), some b, false⟩
  | .beginOp _ => .outsider
  | .sync => .outsider
  | .syncWait _ => .outsider
  | .evict _ => .outsider
  | .commit => .committer
  | .writeLog _ => .committer
  | .writeHead => .committer
  | .install _ => .committer
  | .clearHead => .committer
  | .endCommit => .committer

/-- A call that has returned is an outsider. -/
def roleOf (pc : Option Pc) : Role := pc.elim .outsider Pc.role

variable {ι : Type*}

/-- The entries that the operation of a call may still need. -/
def Role.need (lh : List ℕ) (ro : Role) : ℕ := ro.todo.elim 0 fun bs => reserve bs lh

/-- What the calls have to do with the data: `F` is the set of the operations in
progress, and `c` the call that commits, if there is one. -/
structure Control (start : ℕ) (f : Fs) (ro : ι → Role) (F : Finset ι) (c : Option ι) : Prop where
  ops : ∀ i, i ∈ F ↔ (ro i).todo.isSome
  card : F.card = f.outstanding
  commits : ∀ i, c = some i ↔ (ro i).commits
  committing : f.committing = c.isSome
  alone : c.isSome → F = ∅
  idle : c = none → F = ∅ → f.lh = []
  locked : ∀ b, f.locked b = true ↔ ∃ i, (ro i).holds = some b
  holder : ∀ i j b, (ro i).holds = some b → (ro j).holds = some b → i = j
  works : ∀ i b, (ro i).holds = some b → (ro i).todo.isSome
  modest : ∀ i bs, (ro i).todo = some bs → Modest start bs
  space : f.lh.length + ∑ i ∈ F, (ro i).need f.lh ≤ LOGBLOCKS

theorem control_boot (start : ℕ) (d : Disk) :
    Control start (boot d) (fun _ : ι => .outsider) ∅ none where
  ops := by simp [Role.outsider]
  card := rfl
  commits := by simp [Role.outsider]
  committing := rfl
  alone := by simp
  idle := fun _ _ => rfl
  locked := by simp [boot, Role.outsider]
  holder := by simp [Role.outsider]
  works := by simp [Role.outsider]
  modest := by simp [Role.outsider]
  space := by simp [boot]

namespace Control

variable {start : ℕ} {f f' : Fs} {ro : ι → Role} {F : Finset ι} {c : Option ι} {i : ι} {b : ℕ}
  {bs : List ℕ}

theorem congr (h : Control start f ro F c) (hlh : f'.lh = f.lh)
    (hout : f'.outstanding = f.outstanding) (hcom : f'.committing = f.committing)
    (hlock : f'.locked = f.locked) : Control start f' ro F c where
  ops := h.ops
  card := hout ▸ h.card
  commits := h.commits
  committing := hcom ▸ h.committing
  alone := h.alone
  idle := hlh ▸ h.idle
  locked := hlock ▸ h.locked
  holder := h.holder
  works := h.works
  modest := h.modest
  space := hlh ▸ h.space

theorem no_commit (h : Control start f ro F c) (hi : i ∈ F) : c = none := by
  cases c with
  | none => rfl
  | some j =>
      rw [h.alone rfl] at hi
      cases hi

theorem unlocked (h : Control start f ro F c) (hF : F = ∅) (b : ℕ) : f.locked b = false := by
  cases hb : f.locked b with
  | false => rfl
  | true =>
      obtain ⟨j, hj⟩ := (h.locked b).mp hb
      have hmem := (h.ops j).mpr (h.works j b hj)
      rw [hF] at hmem
      cases hmem

theorem need_le (h : Control start f ro F c) (lh : List ℕ) (i : ι) :
    (ro i).need lh ≤ MAXOPBLOCKS := by
  unfold Role.need
  cases htodo : (ro i).todo with
  | none => exact Nat.zero_le _
  | some bs => exact (reserve_mono (by simp)).trans (h.modest i bs htodo).few

/-- There is always an entry for `log_write`. -/
theorem length_lt (h : Control start f ro F c) (hi : (ro i).todo = some (b :: bs)) :
    f.lh.length < LOGBLOCKS := by
  have hmem : i ∈ F := by simp [h.ops, hi]
  have hneed : (ro i).need f.lh = reserve (b :: bs) f.lh := by rw [Role.need, hi]; rfl
  have hle : (ro i).need f.lh ≤ ∑ j ∈ F, (ro j).need f.lh :=
    Finset.single_le_sum (f := fun j => (ro j).need f.lh) (fun _ _ => Nat.zero_le _) hmem
  have hpos : 0 < reserve (b :: bs) f.lh := reserve_cons_pos
  have hspace := h.space
  omega

variable [DecidableEq ι]

/-- What has to be checked when one call takes another role. -/
theorem update {r : Role} {F' : Finset ι} {c' : Option ι} (h : Control start f ro F c)
    (hF : ∀ j, j ≠ i → (j ∈ F' ↔ j ∈ F)) (hFi : i ∈ F' ↔ r.todo.isSome)
    (hcard : F'.card = f'.outstanding)
    (hc : ∀ j, j ≠ i → (c' = some j ↔ c = some j)) (hci : c' = some i ↔ r.commits)
    (hcom : f'.committing = c'.isSome) (halone : c'.isSome → F' = ∅)
    (hidle : c' = none → F' = ∅ → f'.lh = [])
    (hlock : ∀ b, f'.locked b = true ↔
      r.holds = some b ∨ f.locked b = true ∧ (ro i).holds ≠ some b)
    (hfresh : ∀ b, r.holds = some b → f.locked b = true → (ro i).holds = some b)
    (hworks : r.holds.isSome → r.todo.isSome)
    (hmodest : ∀ bs, r.todo = some bs → Modest start bs)
    (hspace : f'.lh.length + ∑ j ∈ F', (Function.update ro i r j).need f'.lh ≤ LOGBLOCKS) :
    Control start f' (Function.update ro i r) F' c' := by
  -- nobody else holds what the call holds in its new role
  have hother : ∀ j b, j ≠ i → (ro j).holds = some b → r.holds ≠ some b := by
    intro j b hji hj hr
    have hi := hfresh b hr ((h.locked b).mpr ⟨j, hj⟩)
    exact hji (h.holder j i b hj hi)
  refine ⟨?_, hcard, ?_, hcom, halone, hidle, ?_, ?_, ?_, ?_, hspace⟩
  · apply (Function.forall_update_iff ro (p := fun j x => j ∈ F' ↔ x.todo.isSome)).mpr
    exact ⟨hFi, fun j hj => (hF j hj).trans (h.ops j)⟩
  · apply (Function.forall_update_iff ro (p := fun j x => c' = some j ↔ x.commits)).mpr
    exact ⟨hci, fun j hj => (hc j hj).trans (h.commits j)⟩
  · intro b
    rw [hlock, h.locked, Function.exists_update_iff ro (p := fun _ x => x.holds = some b)]
    refine or_congr_right ⟨?_, ?_⟩
    · rintro ⟨⟨j, hj⟩, hi⟩
      exact ⟨j, fun hji => hi (hji ▸ hj), hj⟩
    · rintro ⟨j, hji, hj⟩
      exact ⟨⟨j, hj⟩, fun hi => hji (h.holder j i b hj hi)⟩
  · intro j k b hj hk
    by_cases hji : j = i
    · by_cases hki : k = i
      · rw [hji, hki]
      · rw [Function.update_of_ne hki] at hk
        rw [hji, Function.update_self] at hj
        exact absurd hj (hother k b hki hk)
    · rw [Function.update_of_ne hji] at hj
      by_cases hki : k = i
      · rw [hki, Function.update_self] at hk
        exact absurd hk (hother j b hji hj)
      · rw [Function.update_of_ne hki] at hk
        exact h.holder j k b hj hk
  · apply (Function.forall_update_iff ro
      (p := fun _ x => ∀ b, x.holds = some b → x.todo.isSome)).mpr
    exact ⟨fun b hb => hworks (Option.isSome_of_mem hb), fun j _ => h.works j⟩
  · apply (Function.forall_update_iff ro
      (p := fun _ x => ∀ bs, x.todo = some bs → Modest start bs)).mpr
    exact ⟨hmodest, fun j _ => h.modest j⟩

/-- The others need as much as before. -/
theorem sum_need_of_notMem {r : Role} {lh : List ℕ} {G : Finset ι} (hi : i ∉ G) :
    ∑ j ∈ G, (Function.update ro i r j).need lh = ∑ j ∈ G, (ro j).need lh := by
  apply Finset.sum_congr rfl
  intro j hj
  rw [Function.update_of_ne (ne_of_mem_of_not_mem hj hi)]

/-- `begin_op` lets an operation in only if there is room for all. -/
theorem begin_op (h : Control start f ro F c) (hi : ro i = .outsider) (hc : f.committing = false)
    (hroom : f.lh.length + (f.outstanding + 1) * MAXOPBLOCKS ≤ LOGBLOCKS)
    (hbs : Modest start bs) :
    Control start { f with outstanding := f.outstanding + 1 }
      (Function.update ro i ⟨some bs, none, false⟩) (insert i F) c := by
  have hnot : i ∉ F := by simp [h.ops, hi, Role.outsider]
  have hnone : c = none := by simpa [h.committing] using hc
  have hneed : (⟨some bs, none, false⟩ : Role).need f.lh ≤ MAXOPBLOCKS :=
    (reserve_mono (by simp)).trans hbs.few
  have hothers : ∑ j ∈ F, (ro j).need f.lh ≤ F.card * MAXOPBLOCKS :=
    Finset.sum_le_card_nsmul F _ _ fun j _ => h.need_le f.lh j
  apply h.update
  · intro j hj
    simp [hj]
  · simp
  · rw [Finset.card_insert_of_notMem hnot, h.card]
  · exact fun j _ => Iff.rfl
  · simp [hnone]
  · exact h.committing
  · simp [hnone]
  · exact fun _ hF => absurd hF (Finset.insert_ne_empty i F)
  · simp [hi, Role.outsider]
  · simp
  · simp
  · rintro _ ⟨⟩
    exact hbs
  · rw [Finset.sum_insert hnot, sum_need_of_notMem hnot, Function.update_self]
    rw [h.card] at hothers
    rw [Nat.add_mul, Nat.one_mul] at hroom
    dsimp only
    omega

theorem store (h : Control start f ro F c) (hi : ro i = ⟨some (b :: bs), none, false⟩)
    (hb : f.locked b = false) (v : Block) :
    Control start (f.store b v) (Function.update ro i ⟨some (b :: bs), some b, false⟩) F c := by
  have hmem : i ∈ F := by simp [h.ops, hi]
  have hnone := h.no_commit hmem
  have hneed : ∀ j, (Function.update ro i ⟨some (b :: bs), some b, false⟩ j).need f.lh =
      (ro j).need f.lh := by
    apply (Function.forall_update_iff ro (p := fun j x => x.need f.lh = (ro j).need f.lh)).mpr
    exact ⟨by rw [hi]; rfl, fun _ _ => rfl⟩
  apply h.update
  · exact fun j _ => Iff.rfl
  · simp [hmem]
  · exact h.card
  · exact fun j _ => Iff.rfl
  · simp [hnone]
  · exact h.committing
  · exact h.alone
  · exact h.idle
  · intro x
    by_cases hx : x = b
    · simp [Fs.store, hx]
    · simp [Fs.store, hx, Ne.symm hx, hi]
  · rintro x ⟨⟩ hx
    rw [hb] at hx
    cases hx
  · simp
  · rintro _ ⟨⟩
    exact h.modest i _ (by rw [hi])
  · have hsum : ∑ j ∈ F, (Function.update ro i ⟨some (b :: bs), some b, false⟩ j).need f.lh =
        ∑ j ∈ F, (ro j).need f.lh := Finset.sum_congr rfl fun j _ => hneed j
    exact le_of_eq_of_le (congrArg _ hsum) h.space

/-- The entry that `log_write` takes is one that the operation had reserved. -/
theorem log (h : Control start f ro F c) (hi : ro i = ⟨some (b :: bs), some b, false⟩) :
    Control start (f.log b) (Function.update ro i ⟨some bs, none, false⟩) F c := by
  have hmem : i ∈ F := by simp [h.ops, hi]
  have hnone := h.no_commit hmem
  have hneed : (ro i).need f.lh = reserve (b :: bs) f.lh := by rw [hi]; rfl
  have hsub : f.lh ⊆ (f.log b).lh := by
    intro x hx
    simp only [Fs.log]
    split
    · exact hx
    · exact List.mem_append_left _ hx
  apply h.update
  · exact fun j _ => Iff.rfl
  · simp [hmem]
  · exact h.card
  · exact fun j _ => Iff.rfl
  · simp [hnone]
  · exact h.committing
  · exact h.alone
  · intro _ hF
    rw [hF] at hmem
    cases hmem
  · intro x
    by_cases hx : x = b
    · simp [Fs.log, hx, hi]
    · simp [Fs.log, hx, Ne.symm hx, hi]
  · simp
  · simp
  · rintro _ ⟨⟩
    exact (h.modest i _ (by rw [hi])).tail
  · have hself : (f.log b).lh.length + reserve bs (f.log b).lh ≤
        f.lh.length + reserve (b :: bs) f.lh := by
      by_cases hb : b ∈ f.lh
      · have htail := reserve_tail b bs f.lh
        simp only [Fs.log, hb, if_true]
        omega
      · have hnew : reserve bs (f.lh ++ [b]) + 1 ≤ reserve (b :: bs) f.lh := reserve_new hb
        simp only [Fs.log, hb, if_false, List.length_append, List.length_singleton]
        omega
    have hothers : ∑ j ∈ F.erase i, (ro j).need (f.log b).lh ≤
        ∑ j ∈ F.erase i, (ro j).need f.lh := by
      apply Finset.sum_le_sum
      intro j _
      unfold Role.need
      cases (ro j).todo with
      | none => exact Nat.zero_le _
      | some bs' => exact reserve_mono hsub
    have hspace := h.space
    rw [← Finset.add_sum_erase F _ hmem, hneed] at hspace
    rw [← Finset.add_sum_erase F _ hmem, sum_need_of_notMem (Finset.notMem_erase i F),
      Function.update_self]
    have hnow : (⟨some bs, none, false⟩ : Role).need (f.log b).lh = reserve bs (f.log b).lh := rfl
    omega

theorem end_op (h : Control start f ro F c) (hi : ro i = ⟨some [], none, false⟩)
    (hmore : f.outstanding - 1 ≠ 0) :
    Control start { f with outstanding := f.outstanding - 1 } (Function.update ro i .outsider)
      (F.erase i) c := by
  have hmem : i ∈ F := by simp [h.ops, hi]
  have hnone := h.no_commit hmem
  have hcard : (F.erase i).card = f.outstanding - 1 := by
    rw [Finset.card_erase_of_mem hmem, h.card]
  apply h.update
  · intro j hj
    simp [hj]
  · simp [Role.outsider]
  · exact hcard
  · exact fun j _ => Iff.rfl
  · simp [hnone, Role.outsider]
  · exact h.committing
  · simp [hnone]
  · intro _ hF
    rw [hF] at hcard
    exact absurd hcard.symm hmore
  · simp [hi, Role.outsider]
  · simp [Role.outsider]
  · simp [Role.outsider]
  · simp [Role.outsider]
  · have hspace := h.space
    rw [← Finset.add_sum_erase F _ hmem] at hspace
    rw [sum_need_of_notMem (Finset.notMem_erase i F)]
    exact (Nat.add_le_add_left (Nat.le_add_left _ _) _).trans hspace

/-- The last operation to end carries out the commit. -/
theorem end_last (h : Control start f ro F c) (hi : ro i = ⟨some [], none, false⟩)
    (hlast : f.outstanding - 1 = 0) :
    Control start { f with outstanding := 0, committing := true } (Function.update ro i .committer)
      ∅ (some i) := by
  have hmem : i ∈ F := by simp [h.ops, hi]
  have hnone := h.no_commit hmem
  have hF : F = {i} := by
    have hcard := h.card
    have hpos : 0 < F.card := Finset.card_pos.mpr ⟨i, hmem⟩
    obtain ⟨j, hj⟩ := Finset.card_eq_one.mp (show F.card = 1 by omega)
    rw [hj, Finset.mem_singleton] at hmem
    rw [hj, hmem]
  apply h.update
  · intro j hj
    simp [hF, hj]
  · simp [Role.committer]
  · rfl
  · intro j hj
    simp [hnone, Ne.symm hj]
  · simp [Role.committer]
  · rfl
  · exact fun _ => rfl
  · simp
  · simp [hi, Role.committer]
  · simp [Role.committer]
  · simp [Role.committer]
  · simp [Role.committer]
  · rw [Finset.sum_empty]
    exact (Nat.add_le_add_left (Nat.zero_le _) _).trans h.space

theorem end_commit (h : Control start f ro F c) (hi : ro i = .committer) (hlh : f.lh = [])
    {n : ℤ} : Control start { f with committing := false, ncommit := n }
      (Function.update ro i .outsider) F none := by
  have hc : c = some i := (h.commits i).mpr (by rw [hi]; rfl)
  have hF : F = ∅ := h.alone (by rw [hc]; rfl)
  apply h.update
  · exact fun j _ => Iff.rfl
  · simp [hF, Role.outsider]
  · exact h.card
  · intro j hj
    simp [hc, Ne.symm hj]
  · simp [Role.outsider]
  · rfl
  · simp
  · exact fun _ _ => hlh
  · simp [hi, Role.outsider, Role.committer]
  · simp [Role.outsider]
  · simp [Role.outsider]
  · simp [Role.outsider]
  · rw [hF, Finset.sum_empty]
    exact (Nat.add_le_add_left (Nat.zero_le _) _).trans h.space

end Control

end ShellXv6.Xv6.Log
