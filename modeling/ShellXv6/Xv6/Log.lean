import ShellXv6.Lib.CrashDisk
import Mathlib.Data.List.Nodup

/-!
# The log on the disk

The log is a header block, which lists block numbers, and the new contents of these
blocks behind it.  A disk means what it holds with the listed blocks replaced by their
copies in the log; recovery makes a disk hold what it means.  Blocks have two sectors, and
the power may fail between them.
-/

namespace ShellXv6.Xv6.Log

open CrashDisk

abbrev MAXOPBLOCKS : ℕ := 10

abbrev LOGBLOCKS : ℕ := MAXOPBLOCKS * 3

inductive Half
  | first
  | second
  deriving DecidableEq

/-- 512 bytes, as 32-bit words. -/
abbrev Sector := Fin 128 → ℕ

abbrev Block := CrashDisk.Block Half Sector

abbrev Disk := CrashDisk.Disk Half Sector

abbrev Write := CrashDisk.Write Half Sector

/-! ## The header -/

/-- `read_head`: `n` is word 0 of the block and `block[i]` is word `i + 1`. -/
def readHead (blk : Block) : List ℕ :=
  (List.range (blk .first (Fin.ofNat 128 0))).map fun i => blk .first (Fin.ofNat 128 (i + 1))

/-- What `write_head` makes of the header block. -/
def fillHead (lh : List ℕ) (blk : Block) : Block
  | .first => fun k =>
      if k.val = 0 then lh.length else (lh[k.val - 1]?).getD (blk .first k)
  | .second => blk .second

theorem readHead_congr {blk blk' : Block} (h : blk .first = blk' .first) :
    readHead blk = readHead blk' := by
  rw [readHead, readHead, h]

theorem readHead_fillHead {lh : List ℕ} (h : lh.length ≤ LOGBLOCKS) (blk : Block) :
    readHead (fillHead lh blk) = lh := by
  have hn : fillHead lh blk .first (Fin.ofNat 128 0) = lh.length := rfl
  rw [readHead, hn]
  apply List.ext_getElem
  · simp
  · intro i hi hi'
    have hlen : lh.length ≤ 30 := h
    have hmod : (i + 1) % 128 = i + 1 := Nat.mod_eq_of_lt (by omega)
    simp [fillHead, hmod, hi']

/-! ## The writes -/

/-- The header and the `LOGBLOCKS` blocks behind it. -/
def InLog (start b : ℕ) : Prop := start ≤ b ∧ b ≤ start + LOGBLOCKS

instance (start b : ℕ) : Decidable (InLog start b) := inferInstanceAs (Decidable (_ ∧ _))

/-- `write_head` -/
def headWrite (start : ℕ) (lh : List ℕ) : Write := fun d => (start, fillHead lh (d start))

/-- One round of `install_trans`. -/
def installWrite (start tail b : ℕ) : Write := fun d => (b, d (start + tail + 1))

def installAll (start : ℕ) (lh : List ℕ) : List Write :=
  lh.zipIdx.map fun e => installWrite start e.2 e.1

/-- The writes of `recover_from_log` after `read_head` has found `lh`. -/
def recovery (start : ℕ) (lh : List ℕ) : List Write :=
  installAll start lh ++ [headWrite start []]

/-- `recover_from_log` -/
def recover (start : ℕ) (d : Disk) : Disk := execAll (recovery start (readHead (d start))) d

/-! ## What a disk means -/

/-- The contents of block `b` after a recovery. -/
def meaning (start : ℕ) (d : Disk) (b : ℕ) : Block :=
  if b ∈ readHead (d start) then d (start + (readHead (d start)).idxOf b + 1) else d b

/-- The header lists different blocks outside the log, and no more than fit. -/
structure Sound (start : ℕ) (lh : List ℕ) : Prop where
  length : lh.length ≤ LOGBLOCKS
  nodup : lh.Nodup
  home : ∀ b ∈ lh, ¬ InLog start b

theorem sound_nil (start : ℕ) : Sound start [] := ⟨Nat.zero_le _, List.nodup_nil, by simp⟩

section

variable {start : ℕ} {d d' : Disk} {lh : List ℕ} {b : ℕ} {done : Half → Bool}

theorem meaning_of_clean (h : readHead (d start) = []) (b : ℕ) : meaning start d b = d b := by
  simp [meaning, h]

theorem Sound.idx_lt (h : Sound start lh) (hb : b ∈ lh) : lh.idxOf b < LOGBLOCKS :=
  Nat.lt_of_lt_of_le (List.idxOf_lt_length_of_mem hb) h.length

theorem start_inLog (start : ℕ) : InLog start start := ⟨Nat.le_refl _, Nat.le_add_right _ _⟩

theorem copy_inLog {tail : ℕ} (h : tail < LOGBLOCKS) : InLog start (start + tail + 1) :=
  ⟨by omega, by omega⟩

theorem ne_of_inLog {x : ℕ} (hb : ¬ InLog start b) (hx : InLog start x) : x ≠ b := by
  rintro rfl
  exact hb hx

/-- A disk that agrees on the header, the copies and the blocks that are not listed
means the same. -/
theorem meaning_congr (hhead : readHead (d' start) = readHead (d start))
    (hcopy : ∀ tail < (readHead (d start)).length, d' (start + tail + 1) = d (start + tail + 1))
    (hrest : b ∉ readHead (d start) → d' b = d b) : meaning start d' b = meaning start d b := by
  rw [meaning, meaning, hhead]
  split
  · rename_i hmem
    exact hcopy _ (List.idxOf_lt_length_of_mem hmem)
  · rename_i hmem
    exact hrest hmem

/-- Installing a listed block changes nothing of what the disk means, torn or not. -/
theorem install_torn {tail x : ℕ} (hsound : Sound start (readHead (d start)))
    (hx : x ∈ readHead (d start)) (b : ℕ) :
    readHead ((installWrite start tail x).torn done d start) = readHead (d start) ∧
    meaning start ((installWrite start tail x).torn done d) b = meaning start d b := by
  have hother : ∀ y, y ≠ x → (installWrite start tail x).torn done d y = d y :=
    fun y hy => Write.torn_of_ne hy done
  have hstart : (installWrite start tail x).torn done d start = d start :=
    hother start (ne_of_inLog (hsound.home x hx) (start_inLog start))
  refine ⟨by rw [hstart], meaning_congr (by rw [hstart]) ?_ ?_⟩
  · intro k hk
    have hin : InLog start (start + k + 1) := copy_inLog (Nat.lt_of_lt_of_le hk hsound.length)
    exact hother _ (ne_of_inLog (hsound.home x hx) hin)
  · intro hb
    exact hother b fun h => hb (h ▸ hx)

/-- After the first rounds of `install_trans` the first listed blocks hold their copies. -/
theorem installAll_exec (k : ℕ) (hk : k ≤ lh.length) (hsound : Sound start lh) :
    let d' := execAll ((installAll start lh).take k) d
    d' start = d start ∧ (∀ tail < LOGBLOCKS, d' (start + tail + 1) = d (start + tail + 1)) ∧
      (∀ b ∉ lh, d' b = d b) ∧
      ∀ b ∈ lh, d' b = if lh.idxOf b < k then d (start + lh.idxOf b + 1) else d b := by
  induction k with
  | zero => exact ⟨rfl, fun _ _ => rfl, fun _ _ => rfl, fun b _ => by simp [execAll]⟩
  | succ k ih =>
      obtain ⟨hstart, hcopy, hrest, hdone⟩ := ih (Nat.le_of_succ_le hk)
      have hx : lh[k] ∈ lh := List.getElem_mem hk
      have hidx : lh.idxOf lh[k] = k := hsound.nodup.idxOf_getElem k hk
      have hlast : (installAll start lh).take (k + 1) =
          (installAll start lh).take k ++ [installWrite start k lh[k]] := by
        have hlen : k < (installAll start lh).length := by
          rw [installAll, List.length_map, List.length_zipIdx]
          exact hk
        rw [List.take_succ_eq_append_getElem hlen]
        simp [installAll]
      have hother : ∀ y, y ≠ lh[k] → execAll ((installAll start lh).take (k + 1)) d y =
          execAll ((installAll start lh).take k) d y := by
        intro y hy
        rw [hlast, execAll_append]
        exact Write.exec_of_ne hy
      refine ⟨?_, ?_, ?_, ?_⟩
      · rw [hother _ (ne_of_inLog (hsound.home _ hx) (start_inLog start)), hstart]
      · intro tail htail
        rw [hother _ (ne_of_inLog (hsound.home _ hx) (copy_inLog htail)), hcopy tail htail]
      · intro b hb
        rw [hother b fun h => hb (h ▸ hx), hrest b hb]
      · intro b hb
        by_cases hbx : b = lh[k]
        · subst hbx
          rw [hlast, execAll_append, hidx, if_pos (Nat.lt_succ_self k)]
          have hnow : execAll [installWrite start k lh[k]]
              (execAll ((installAll start lh).take k) d) lh[k] =
              execAll ((installAll start lh).take k) d (start + k + 1) := by
            simp [execAll, Write.exec, installWrite]
          rw [hnow, hcopy k (Nat.lt_of_lt_of_le hk hsound.length)]
        · have hne : lh.idxOf b ≠ k := fun h => hbx (by
            rw [← List.getElem_idxOf (List.idxOf_lt_length_of_mem hb)]
            simp only [h])
          rw [hother b hbx, hdone b hb]
          have hiff : lh.idxOf b < k ↔ lh.idxOf b < k + 1 := by omega
          simp only [hiff]

/-- The header is replaced or left as it is; the second sector does not matter. -/
theorem head_torn (hlen : lh.length ≤ LOGBLOCKS) :
    readHead ((headWrite start lh).torn done d start) =
      if done .first then lh else readHead (d start) := by
  have hself : (headWrite start lh).torn done d start = fun i =>
      if done i then fillHead lh (d start) i else d start i := Function.update_self ..
  rw [hself]
  split
  · rename_i hfirst
    exact (readHead_congr (by simp [hfirst])).trans (readHead_fillHead hlen (d start))
  · rename_i hfirst
    exact readHead_congr (by simp [hfirst])

/-- Clearing the header of a disk whose listed blocks hold their copies. -/
theorem clear_torn (hdone : ∀ b ∈ readHead (d start),
      d b = d (start + (readHead (d start)).idxOf b + 1)) (hb : ¬ InLog start b) :
    readHead ((headWrite start []).torn done d start) ∈ [[], readHead (d start)] ∧
    meaning start ((headWrite start []).torn done d) b = meaning start d b := by
  have hhead : readHead ((headWrite start []).torn done d start) =
      if done .first then [] else readHead (d start) := head_torn (Nat.zero_le _)
  have hother : ∀ y, y ≠ start → (headWrite start []).torn done d y = d y :=
    fun y hy => Write.torn_of_ne hy done
  have hbs : b ≠ start := (ne_of_inLog hb (start_inLog start)).symm
  by_cases hfirst : done .first = true
  · rw [if_pos hfirst] at hhead
    refine ⟨by rw [hhead]; exact List.mem_cons_self, ?_⟩
    rw [meaning_of_clean hhead, hother b hbs, meaning]
    split
    · rename_i hmem
      exact hdone b hmem
    · rfl
  · rw [if_neg hfirst] at hhead
    refine ⟨by rw [hhead]; simp, meaning_congr hhead ?_ fun _ => hother b hbs⟩
    intro tail _
    exact hother _ (by omega)

theorem mem_installAll {w : Write} (h : w ∈ installAll start lh) :
    ∃ tail, ∃ x ∈ lh, w = installWrite start tail x := by
  obtain ⟨⟨x, tail⟩, hmem, rfl⟩ := List.mem_map.mp h
  exact ⟨tail, x, (List.mem_zipIdx hmem).2.2 ▸ List.getElem_mem _, rfl⟩

/-- What `install_trans` leaves after all its rounds. -/
theorem installAll_complete (hsound : Sound start lh) (hhead : readHead (d start) = lh) :
    readHead (execAll (installAll start lh) d start) = lh ∧
    (∀ b, meaning start (execAll (installAll start lh) d) b = meaning start d b) ∧
    ∀ b, ¬ InLog start b → execAll (installAll start lh) d b = meaning start d b := by
  have hall := installAll_exec (d := d) lh.length (Nat.le_refl _) hsound
  have htake : (installAll start lh).take lh.length = installAll start lh :=
    List.take_of_length_le (by simp [installAll])
  simp only [htake] at hall
  obtain ⟨hstart, hcopy, hrest, hdone⟩ := hall
  have hhead' : readHead (execAll (installAll start lh) d start) = lh := by rw [hstart, hhead]
  refine ⟨hhead', fun b => meaning_congr (hhead'.trans hhead.symm) ?_ ?_, ?_⟩
  · intro tail htail
    rw [hhead] at htail
    exact hcopy tail (Nat.lt_of_lt_of_le htail hsound.length)
  · intro hb
    exact hrest b (hhead ▸ hb)
  · intro b _
    rw [meaning, hhead]
    split
    · rename_i hmem
      rw [hdone b hmem, if_pos (List.idxOf_lt_length_of_mem hmem)]
    · rename_i hmem
      exact hrest b hmem

/-! ## Recovery -/

theorem recovery_crash (hsound : Sound start (readHead (d start)))
    (h : Crash (recovery start (readHead (d start))) d d') :
    Sound start (readHead (d' start)) ∧
      ∀ b, ¬ InLog start b → meaning start d' b = meaning start d b := by
  obtain ⟨hhead, hmeaning, hhome⟩ := installAll_complete hsound rfl
  have hdone : ∀ b ∈ readHead (execAll (installAll start (readHead (d start))) d start),
      execAll (installAll start (readHead (d start))) d b =
        execAll (installAll start (readHead (d start))) d
          (start + (readHead (execAll (installAll start (readHead (d start))) d start)).idxOf b
            + 1) := by
    intro b hb
    rw [hhome b (hsound.home b (hhead ▸ hb)), ← hmeaning b, meaning, if_pos hb]
  -- the last write of the recovery, complete or torn
  have hclear : ∀ done, Sound start (readHead ((headWrite start []).torn done
        (execAll (installAll start (readHead (d start))) d) start)) ∧
      ∀ b, ¬ InLog start b → meaning start ((headWrite start []).torn done
        (execAll (installAll start (readHead (d start))) d)) b = meaning start d b := by
    intro done
    refine ⟨?_, fun b hb => (clear_torn hdone hb).2.trans (hmeaning b)⟩
    have hhead' : readHead ((headWrite start []).torn done
        (execAll (installAll start (readHead (d start))) d) start) =
        if done .first then [] else readHead (execAll (installAll start (readHead (d start))) d
          start) := head_torn (Nat.zero_le _)
    rw [hhead', hhead]
    split
    · exact sound_nil start
    · exact hsound
  rcases h.append with h | h
  · have hall := h.invariant (P := fun e => readHead (e start) = readHead (d start) ∧
      ∀ b, meaning start e b = meaning start d b) ⟨rfl, fun _ => rfl⟩ ?_
    · exact ⟨hall.1 ▸ hsound, fun b _ => hall.2 b⟩
    · rintro w hw e done ⟨hehead, hemeaning⟩
      obtain ⟨tail, x, hx, rfl⟩ := mem_installAll hw
      have htorn : ∀ b, readHead ((installWrite start tail x).torn done e start) =
          readHead (e start) ∧ meaning start ((installWrite start tail x).torn done e) b =
            meaning start e b :=
        fun b => install_torn (hehead ▸ hsound) (hehead ▸ hx) b
      exact ⟨(htorn 0).1.trans hehead, fun b => (htorn b).2.trans (hemeaning b)⟩
  · cases h with
    | now => exact ⟨by rw [hhead]; exact hsound, fun b _ => hmeaning b⟩
    | torn _ _ _ done => exact hclear done
    | later h =>
        cases h
        rw [← Write.torn_all]
        exact hclear _

theorem recover_complete (hsound : Sound start (readHead (d start))) :
    readHead (recover start d start) = [] ∧
      ∀ b, ¬ InLog start b → recover start d b = meaning start d b := by
  obtain ⟨-, -, hhome⟩ := installAll_complete hsound rfl
  rw [recover, recovery, execAll_append]
  constructor
  · have hself : execAll [headWrite start []] (execAll (installAll start (readHead (d start))) d)
        start = fillHead [] (execAll (installAll start (readHead (d start))) d start) := by
      simp [execAll, Write.exec, headWrite]
    rw [hself]
    exact readHead_fillHead (Nat.zero_le _) _
  · intro b hb
    rw [← hhome b hb]
    exact Write.exec_of_ne (ne_of_inLog hb (start_inLog start)).symm

/-- Any number of recoveries, each of them cut off somewhere. -/
inductive Recoveries (start : ℕ) : Disk → Disk → Prop
  | none (d : Disk) : Recoveries start d d
  | more {d d' d'' : Disk} : Recoveries start d d' →
      Crash (recovery start (readHead (d' start))) d' d'' → Recoveries start d d''

theorem recoveries_meaning (hsound : Sound start (readHead (d start)))
    (h : Recoveries start d d') : Sound start (readHead (d' start)) ∧
      ∀ b, ¬ InLog start b → meaning start d' b = meaning start d b := by
  induction h with
  | none => exact ⟨hsound, fun _ _ => rfl⟩
  | more _ hcrash ih =>
      obtain ⟨hsound', hmeaning⟩ := ih
      obtain ⟨hsound'', hmeaning'⟩ := recovery_crash hsound' hcrash
      exact ⟨hsound'', fun b hb => (hmeaning' b hb).trans (hmeaning b hb)⟩

end

end ShellXv6.Xv6.Log
