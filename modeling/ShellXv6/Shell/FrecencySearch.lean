import Mathlib.Data.Int.Order.Basic
import ShellXv6.Lib.RunningBest
import ShellXv6.Shell.Hop

/-!
# What `search_frecency` finds

The loop over the history keeps the best score and the path that has it, and starts
with the score -1 for none.  While no score is negative it finds the first of the
best entries that contain the target and exist.
-/

namespace ShellXv6.Shell.Hop

open RunningBest (keep FirstMax)

/-- The `long long` that entries are compared by. -/
def score (e : FrecencyEntry) : ℤ := (e.frequency * 10000000 + e.recency).bmod (2 ^ 64)

/-- `strstr` finds the target in the path, and `access` the path. -/
def Matches (access : Path → Bool) (target : Path) (e : FrecencyEntry) : Prop :=
  target <:+: e.path ∧ access e.path = true

instance (access : Path → Bool) (target : Path) (e : FrecencyEntry) :
    Decidable (Matches access target e) :=
  inferInstanceAs (Decidable (_ ∧ _))

/-- `best_score` and `best_match` for the best entry so far. -/
def bestOf : Option FrecencyEntry → ℤ × Path
  | none => (-1, [])
  | some e => (score e, e.path)

section

variable {access : Path → Bool} {target : Path} {entries : List FrecencyEntry}

theorem better_bestOf {e : FrecencyEntry} (h : Matches access target e → 0 ≤ score e)
    (best : Option FrecencyEntry) :
    better access target (bestOf best) e =
      bestOf (if Matches access target e then keep score best e else best) := by
  by_cases hmatch : Matches access target e
  · rw [if_pos hmatch, better, if_pos (show target <:+: e.path ∧ access e.path = true from hmatch)]
    change (if (bestOf best).1 < score e then (score e, e.path) else bestOf best) = _
    cases best with
    | none =>
        have hlt : (-1 : ℤ) < score e := Int.lt_of_lt_of_le (by decide) (h hmatch)
        rw [bestOf, if_pos hlt]
        rfl
    | some w =>
        by_cases hlt : score w < score e
        · rw [keep, if_pos hlt]
          exact if_pos hlt
        · rw [keep, if_neg hlt]
          exact if_neg hlt
  · rw [if_neg hmatch, better]
    exact if_neg hmatch

theorem foldl_better_bestOf (h : ∀ e ∈ entries, Matches access target e → 0 ≤ score e)
    (best : Option FrecencyEntry) :
    entries.foldl (better access target) (bestOf best) =
      bestOf ((entries.filter fun e => Matches access target e).foldl (keep score) best) := by
  induction entries generalizing best with
  | nil => rfl
  | cons e entries ih =>
      rw [List.foldl_cons, better_bestOf (h e List.mem_cons_self),
        ih fun e he => h e (List.mem_cons_of_mem _ he), List.filter_cons]
      by_cases hmatch : Matches access target e
      · simp [hmatch]
      · simp [hmatch]

theorem searchFrecency_eq_none {history : Option (List Char)}
    (h : ∀ e ∈ allEntries history, ¬Matches access target e) :
    searchFrecency access history target = none := by
  have hnil : ((allEntries history).filter fun e => Matches access target e) = [] :=
    List.filter_eq_nil_iff.mpr fun e he hmatch => h e he (of_decide_eq_true hmatch)
  have hfold := foldl_better_bestOf (fun e he hmatch => absurd hmatch (h e he)) none
  rw [hnil] at hfold
  rw [searchFrecency, show ((-1, []) : ℤ × Path) = bestOf none from rfl, hfold]
  rfl

/-- The first of the best entries that match. -/
theorem searchFrecency_first_best {history : Option (List Char)}
    (hscore : ∀ e ∈ allEntries history, Matches access target e → 0 ≤ score e)
    (hex : ∃ e ∈ allEntries history, Matches access target e) :
    ∃ before e after, allEntries history = before ++ e :: after ∧ Matches access target e ∧
      (∀ x ∈ before, Matches access target x → score x < score e) ∧
      (∀ x ∈ after, Matches access target x → score x ≤ score e) ∧
      searchFrecency access history target = some e.path := by
  obtain ⟨e, he, hmatch⟩ := hex
  have hne : ((allEntries history).filter fun e => Matches access target e) ≠ [] :=
    List.ne_nil_of_mem (List.mem_filter.mpr ⟨he, decide_eq_true hmatch⟩)
  obtain ⟨w, hw, hmax⟩ := RunningBest.foldl_keep score _ hne
  obtain ⟨before, after, hcut, hwmatch, hbefore, hafter⟩ := hmax.of_filter
  have hwmem : w ∈ allEntries history := by
    rw [hcut]
    exact List.mem_append_right _ List.mem_cons_self
  have hwmatch : Matches access target w := of_decide_eq_true hwmatch
  refine ⟨before, w, after, hcut, hwmatch, ?_, ?_, ?_⟩
  · exact fun x hx hmatch => hbefore x hx (decide_eq_true hmatch)
  · exact fun x hx hmatch => hafter x hx (decide_eq_true hmatch)
  · have hpos : score w ≠ -1 := by
      have := hscore w hwmem hwmatch
      omega
    have hfold := foldl_better_bestOf hscore none
    rw [hw] at hfold
    rw [searchFrecency, show ((-1, []) : ℤ × Path) = bestOf none from rfl, hfold]
    exact if_pos hpos

end

/-- What `update_frecency` writes for directories that were hopped to. -/
structure FrecencyEntry.InRange (e : FrecencyEntry) : Prop where
  frequency : 1 ≤ e.frequency ∧ e.frequency < 2 ^ 31
  recency : 0 ≤ e.recency ∧ e.recency ≤ 2 ^ 53
  path : e.path.length < pathSize

/-- Neither the product nor the sum leaves the range of a `long long`. -/
theorem FrecencyEntry.InRange.score_eq {e : FrecencyEntry} (h : e.InRange) :
    score e = e.frequency * 10000000 + e.recency := by
  obtain ⟨⟨hfreq, hfreq'⟩, ⟨hrec, hrec'⟩, -⟩ := h
  apply Int.bmod_eq_of_le_mul_two <;> omega

/-- `search_frecency` returns NULL just when no entry matches, and else the path of the
first of the matching entries with the largest score. -/
theorem search_frecency_argmax (access : Path → Bool) (history : Option (List Char))
    (target : Path) (h : ∀ e ∈ allEntries history, e.InRange) :
    (searchFrecency access history target = none ↔
      ∀ e ∈ allEntries history, ¬(target <:+: e.path ∧ access e.path = true)) ∧
    ((∃ e ∈ allEntries history, target <:+: e.path ∧ access e.path = true) →
      ∃ before e after, allEntries history = before ++ e :: after ∧
        (target <:+: e.path ∧ access e.path = true) ∧
        (∀ x ∈ before, target <:+: x.path ∧ access x.path = true →
          x.frequency * 10000000 + x.recency < e.frequency * 10000000 + e.recency) ∧
        (∀ x ∈ after, target <:+: x.path ∧ access x.path = true →
          x.frequency * 10000000 + x.recency ≤ e.frequency * 10000000 + e.recency) ∧
        searchFrecency access history target = some e.path) ∧
    ∀ e ∈ allEntries history,
      -2 ^ 63 ≤ e.frequency * 10000000 ∧ e.frequency * 10000000 < 2 ^ 63 ∧
        -2 ^ 63 ≤ e.frequency * 10000000 + e.recency ∧
          e.frequency * 10000000 + e.recency < 2 ^ 63 := by
  have hscore : ∀ e ∈ allEntries history, Matches access target e → 0 ≤ score e := by
    intro e he _
    obtain ⟨⟨hfreq, -⟩, ⟨hrec, -⟩, -⟩ := h e he
    rw [(h e he).score_eq]
    omega
  refine ⟨⟨?_, searchFrecency_eq_none⟩, ?_, ?_⟩
  · intro hnone e he hmatch
    obtain ⟨-, w, -, -, -, -, -, hsome⟩ := searchFrecency_first_best hscore ⟨e, he, hmatch⟩
    rw [hnone] at hsome
    cases hsome
  · intro hex
    obtain ⟨before, e, after, hcut, hmatch, hbefore, hafter, hsome⟩ :=
      searchFrecency_first_best hscore hex
    have hmem : ∀ x, x ∈ before ∨ x = e ∨ x ∈ after → x ∈ allEntries history := by
      intro x hx
      rw [hcut, List.mem_append, List.mem_cons]
      exact hx
    have he := (h e (hmem e (.inr (.inl rfl)))).score_eq
    refine ⟨before, e, after, hcut, hmatch, ?_, ?_, hsome⟩
    · intro x hx hxmatch
      rw [← he, ← (h x (hmem x (.inl hx))).score_eq]
      exact hbefore x hx hxmatch
    · intro x hx hxmatch
      rw [← he, ← (h x (hmem x (.inr (.inr hx)))).score_eq]
      exact hafter x hx hxmatch
  · intro e he
    obtain ⟨⟨hfreq, hfreq'⟩, ⟨hrec, hrec'⟩, -⟩ := h e he
    omega

/-- Of these three `/aa` is gone, and `/a` is better than `/ab`. -/
def threeEntries : List Char := "2 5 /ab\n3 7 /a\n9 9 /aa\n".toList

def notAa (path : Path) : Bool := path ≠ "/aa".toList

theorem allEntries_threeEntries : allEntries (some threeEntries) =
    [⟨"/ab".toList, 2, 5⟩, ⟨"/a".toList, 3, 7⟩, ⟨"/aa".toList, 9, 9⟩] := by
  decide

theorem inRange_threeEntries : ∀ e ∈ allEntries (some threeEntries), e.InRange := by
  rw [allEntries_threeEntries]
  simp only [List.forall_mem_cons]
  refine ⟨?_, ?_, ?_, fun e he => absurd he List.not_mem_nil⟩
  all_goals exact ⟨by decide, by decide, by decide⟩

/-- The string `a` leads to `/a`, and `aa` to nothing. -/
theorem search_best_of_three :
    searchFrecency notAa (some threeEntries) "a".toList = some "/a".toList ∧
      searchFrecency notAa (some threeEntries) "aa".toList = none := by
  refine ⟨?_, (search_frecency_argmax notAa (some threeEntries) "aa".toList
    inRange_threeEntries).1.mpr (by rw [allEntries_threeEntries]; decide)⟩
  obtain ⟨before, e, after, hcut, hmatch, -, hafter, hfound⟩ :=
    (search_frecency_argmax notAa (some threeEntries) "a".toList inRange_threeEntries).2.1
      (by rw [allEntries_threeEntries]; decide)
  rw [allEntries_threeEntries] at hcut
  rw [hfound]
  cases before with
  | nil =>
      obtain ⟨rfl, rfl⟩ := List.cons.inj hcut
      exact absurd (hafter ⟨"/a".toList, 3, 7⟩ (by decide) (by decide)) (by decide)
  | cons x before =>
      obtain ⟨-, hcut⟩ := List.cons.inj hcut
      cases before with
      | nil =>
          rw [← (List.cons.inj hcut).1]
      | cons y before =>
          have he : e ∈ [(⟨"/aa".toList, 9, 9⟩ : FrecencyEntry)] := by
            rw [(List.cons.inj hcut).2]
            exact List.mem_append_right before List.mem_cons_self
          rw [List.mem_singleton.mp he] at hmatch
          exact absurd hmatch (by decide)

/-- Of two entries with the same score the first one is taken. -/
example : searchFrecency (fun _ => true) (some "3 7 /b\n3 7 /a/b\n".toList) "b".toList =
    some "/b".toList := by
  decide

end ShellXv6.Shell.Hop
