import Mathlib.Data.List.Induction
import ShellXv6.Lib.IntConversion
import ShellXv6.Shell.Pipeline

/-!
# Writing a segment to a line

`build_line_from_segment` tests that a token fits before it copies it, and writes the
blank or the NUL behind it without a test.  Its sizes and positions are numbers of type
`int`: the sum in the test is right as long as it stays below `2 ^ 31`.
-/

namespace ShellXv6.Shell.SegmentLine

open IntConversion

/-- The writes to `out` in order, and what is returned.  Nothing is known about the
program after a write outside of `out`. -/
structure Call where
  writes : List (ℤ × Char)
  ret : Option ℤ

def Inside (out_size : ℤ) (writes : List (ℤ × Char)) : Prop :=
  ∀ w ∈ writes, 0 ≤ w.1 ∧ w.1 < out_size

instance (out_size : ℤ) (writes : List (ℤ × Char)) : Decidable (Inside out_size writes) :=
  inferInstanceAs (Decidable (∀ w ∈ writes, _))

/-- Writes in front of the rest of the call. -/
def put (out_size : ℤ) (writes : List (ℤ × Char)) (rest : Call) : Call :=
  if Inside out_size writes then ⟨writes ++ rest.writes, rest.ret⟩ else ⟨writes, none⟩

/-- `memcpy(out + pos, content, len)`, where `len` is converted to a `size_t`. -/
def copy (pos : ℤ) (content : List Char) (len : ℤ) : List (ℤ × Char) :=
  (List.range (len % 2 ^ 64).toNat).map fun i : ℕ => (pos + (i : ℤ), content.getD i nul)

/-- The loop from a token on, and the end of the function. -/
def loop (out_size : ℤ) : List Token → ℤ → Call
  | [], pos => put out_size [(pos, nul)] ⟨[], some 0⟩
  | t :: next, pos =>
      let len := toInt t.content.length
      if toInt (toInt (pos + len) + 1) ≥ out_size then ⟨[], some (-1)⟩
      else
        let pos' := toInt (pos + len)
        put out_size (copy pos t.content len)
          (if next = [] then loop out_size next pos'
          else put out_size [(pos', ' ')] (loop out_size next (toInt (pos' + 1))))

def buildLineFromSegment (seg : List Token) (out_size : ℤ) : Call := loop out_size seg 0

/-- The contents of `out` after some writes. -/
def written (out : ℤ → Char) (writes : List (ℤ × Char)) : ℤ → Char :=
  writes.foldl (fun m w => Function.update m w.1 w.2) out

/-- The contents of the tokens with a blank between two of them. -/
def joined (seg : List Token) : List Char := [' '].intercalate (seg.map Token.content)

/-- All writes are inside of `out`, and the result is 0 just when the line and its NUL fit
with a byte to spare; then `out` holds them. -/
def BoundedJoin (out : ℤ → Char) (seg : List Token) (out_size : ℕ) : Prop :=
  let call := buildLineFromSegment seg out_size
  Inside out_size call.writes ∧
  (call.ret = some 0 ↔ (joined seg).length + 2 ≤ out_size) ∧
  (call.ret = some 0 → ∀ i (hi : i < (joined seg ++ [nul]).length),
    written out call.writes i = (joined seg ++ [nul])[i])

/-- No sum of the test leaves the range of an `int`: with every token up to the first that
does not fit, the line has fewer than `2 ^ 31 - 1` bytes. -/
def SumsFit (seg : List Token) (out_size : ℕ) : Prop :=
  ∀ before t after, seg = before ++ t :: after → (joined before).length + 2 ≤ out_size →
    (joined (before ++ [t])).length + 1 < 2 ^ 31

/-! ## Lines -/

@[simp] theorem joined_singleton (t : Token) : joined [t] = t.content := by
  simp [joined]

theorem joined_cons {ts : List Token} (h : ts ≠ []) (t : Token) :
    joined (t :: ts) = t.content ++ ' ' :: joined ts := by
  have hne : ts.map Token.content ≠ [] := by simpa using h
  simp [joined, List.intercalate_cons_of_ne_nil hne]

/-- Characters written one behind the other. -/
def writesFrom (pos : ℕ) (cs : List Char) : List (ℤ × Char) :=
  (cs.zipIdx pos).map fun x => ((x.2 : ℤ), x.1)

theorem writesFrom_append (pos : ℕ) (cs ds : List Char) :
    writesFrom pos (cs ++ ds) = writesFrom pos cs ++ writesFrom (pos + cs.length) ds := by
  simp [writesFrom, List.zipIdx_append]

theorem inside_writesFrom {pos : ℕ} {cs : List Char} {out_size : ℕ}
    (h : pos + cs.length ≤ out_size) : Inside out_size (writesFrom pos cs) := by
  intro w hw
  obtain ⟨⟨c, i⟩, hx, rfl⟩ := List.mem_map.mp hw
  have hlt := List.snd_lt_add_of_mem_zipIdx hx
  refine ⟨Int.natCast_nonneg i, ?_⟩
  change (i : ℤ) < out_size
  omega

theorem le_of_inside_writesFrom {pos : ℕ} {cs : List Char} {out_size : ℕ} (hne : cs ≠ [])
    (h : Inside out_size (writesFrom pos cs)) : pos + cs.length ≤ out_size := by
  rw [← List.dropLast_append_getLast hne, writesFrom_append] at h
  have hlast := (h ((pos + cs.dropLast.length : ℕ), cs.getLast hne)
    (List.mem_append_right _ List.mem_cons_self)).2
  have hpos := List.length_pos_of_ne_nil hne
  rw [List.length_dropLast] at hlast
  omega

theorem inside_append {out_size : ℤ} {ws ws' : List (ℤ × Char)} :
    Inside out_size (ws ++ ws') ↔ Inside out_size ws ∧ Inside out_size ws' :=
  List.forall_mem_append

theorem written_writesFrom (out : ℤ → Char) (pos : ℕ) (cs : List Char) (i : ℕ)
    (hi : i < cs.length) : written out (writesFrom pos cs) (pos + i : ℕ) = cs[i] := by
  induction cs using List.reverseRecOn with
  | nil => cases hi
  | append_singleton cs c ih =>
      rw [writesFrom_append, written, List.foldl_append, ← written]
      change Function.update _ _ _ _ = _
      by_cases hlast : i = cs.length
      · subst hlast
        simp
      · have hlt : i < cs.length := by
          rw [List.length_append, List.length_singleton] at hi
          omega
        rw [Function.update_of_ne (by simpa using hlast), ← written, ih hlt,
          List.getElem_append_left hlt]

theorem copy_eq_writesFrom {pos : ℕ} {content : List Char} (h : content.length < 2 ^ 31) :
    copy pos content content.length = writesFrom pos content := by
  have hlen : ((content.length : ℤ) % 2 ^ 64).toNat = content.length := by omega
  rw [copy, hlen]
  apply List.ext_getElem
  · simp [writesFrom]
  · intro i hi hi'
    have hlt : i < content.length := by simpa [writesFrom] using hi'
    simp [writesFrom, hlt]

/-! ## The loop -/

/-- `SumsFit` along the loop, which stands at `pos`. -/
def SumsFitFrom (out_size : ℕ) : ℕ → List Token → Prop
  | _, [] => True
  | pos, t :: next =>
      pos + t.content.length + 1 < 2 ^ 31 ∧
        (pos + t.content.length + 2 ≤ out_size →
          SumsFitFrom out_size (pos + t.content.length + 1) next)

theorem length_joined_cons (t : Token) (ts : List Token) :
    (joined (t :: ts)).length =
      t.content.length + if ts = [] then 0 else (joined ts).length + 1 := by
  by_cases hts : ts = []
  · simp [hts]
  · rw [joined_cons hts, if_neg hts, List.length_append, List.length_cons]

theorem sumsFitFrom_iff {out_size pos : ℕ} {rest : List Token} :
    SumsFitFrom out_size pos rest ↔ ∀ before t after, rest = before ++ t :: after →
      (before ≠ [] → pos + (joined before).length + 2 ≤ out_size) →
        pos + (joined (before ++ [t])).length + 1 < 2 ^ 31 := by
  induction rest generalizing pos with
  | nil => simp [SumsFitFrom]
  | cons t next ih =>
      rw [SumsFitFrom, ih]
      constructor
      · rintro ⟨hfirst, hrest⟩ before u after hcut hfit
        cases before with
        | nil =>
            obtain ⟨rfl, -⟩ := List.cons.inj hcut
            simpa using hfirst
        | cons v before =>
            obtain ⟨rfl, hnext⟩ := List.cons.inj hcut
            have hfit := hfit (List.cons_ne_nil _ _)
            rw [length_joined_cons] at hfit
            have hlt := hrest (by omega) before u after hnext (fun hne => by
              rw [if_neg hne] at hfit
              omega)
            rw [List.cons_append, length_joined_cons, if_neg (by simp)]
            omega
      · intro h
        refine ⟨?_, ?_⟩
        · simpa using h [] t next rfl (fun hne => absurd rfl hne)
        · intro hroom before u after hcut hfit
          have hnext := h (t :: before) u after (by rw [hcut]; rfl) (fun _ => by
            rw [length_joined_cons]
            split_ifs with hnil
            · omega
            · have := hfit hnil
              omega)
          rw [List.cons_append, length_joined_cons, if_neg (by simp)] at hnext
          omega

theorem sumsFit_iff {out_size : ℕ} (hsize : 2 ≤ out_size) {seg : List Token} :
    SumsFit seg out_size ↔ SumsFitFrom out_size 0 seg := by
  rw [sumsFitFrom_iff]
  simp only [Nat.zero_add]
  constructor
  · intro h before t after hcut hfit
    refine h before t after hcut ?_
    cases before with
    | nil => exact hsize
    | cons u before => exact hfit (List.cons_ne_nil _ _)
  · intro h before t after hcut hfit
    exact h before t after hcut fun _ => hfit

theorem put_of_inside {out_size : ℤ} {ws : List (ℤ × Char)} (h : Inside out_size ws)
    (rest : Call) : put out_size ws rest = ⟨ws ++ rest.writes, rest.ret⟩ :=
  if_pos h

theorem subset_put (out_size : ℤ) (ws : List (ℤ × Char)) (rest : Call) :
    ws ⊆ (put out_size ws rest).writes := by
  unfold put
  split_ifs
  · exact List.subset_append_left _ _
  · exact fun _ hw => hw

/-- Behind a token that has been copied. -/
def afterToken (out_size : ℤ) (next : List Token) (pos : ℤ) : Call :=
  if next = [] then loop out_size next pos
  else put out_size [(pos, ' ')] (loop out_size next (toInt (pos + 1)))

section

variable {out_size pos : ℕ} {t : Token} {next : List Token}

theorem loop_cons (hlen : t.content.length < 2 ^ 31) :
    loop out_size (t :: next) pos =
      if toInt (toInt (pos + t.content.length : ℕ) + 1) ≥ out_size then ⟨[], some (-1)⟩
      else put out_size (writesFrom pos t.content)
        (afterToken out_size next (toInt (pos + t.content.length : ℕ))) := by
  rw [loop, toInt_of_lt hlen, copy_eq_writesFrom hlen, Int.natCast_add]
  rfl

theorem loop_cons_full (hlen : t.content.length < 2 ^ 31)
    (hint : pos + t.content.length + 1 < 2 ^ 31) (h : out_size ≤ pos + t.content.length + 1) :
    loop out_size (t :: next) pos = ⟨[], some (-1)⟩ := by
  rw [loop_cons hlen, toInt_toInt_add_one, toInt_of_lt hint]
  exact if_pos (by omega)

theorem loop_cons_fits (hlen : t.content.length < 2 ^ 31)
    (hint : pos + t.content.length + 1 < 2 ^ 31) (h : pos + t.content.length + 2 ≤ out_size) :
    loop out_size (t :: next) pos =
      ⟨writesFrom pos t.content ++
          (afterToken out_size next (pos + t.content.length : ℕ)).writes,
        (afterToken out_size next (pos + t.content.length : ℕ)).ret⟩ := by
  rw [loop_cons hlen, toInt_toInt_add_one, toInt_of_lt hint, if_neg (by omega),
    toInt_of_lt (by omega), put_of_inside (inside_writesFrom (by omega))]

theorem inside_singleton {out_size i : ℕ} (h : i < out_size) (c : Char) :
    Inside out_size [((i : ℤ), c)] := by
  intro w hw
  rw [List.mem_singleton.mp hw]
  exact ⟨Int.natCast_nonneg i, Int.ofNat_lt.mpr h⟩

theorem afterToken_nil (pos : ℕ) (h : pos < out_size) :
    afterToken out_size [] pos = ⟨writesFrom pos [nul], some 0⟩ := by
  rw [afterToken, if_pos rfl, loop, put_of_inside (inside_singleton h nul)]
  rfl

theorem afterToken_cons (hne : next ≠ []) (hint : pos + 1 < 2 ^ 31) (h : pos < out_size) :
    afterToken out_size next pos =
      ⟨writesFrom pos [' '] ++ (loop out_size next (pos + 1 : ℕ)).writes,
        (loop out_size next (pos + 1 : ℕ)).ret⟩ := by
  rw [afterToken, if_neg hne, put_of_inside (inside_singleton h ' '), ← Int.natCast_succ,
    toInt_of_lt hint]
  rfl

theorem exists_mem_afterToken (out_size : ℤ) (next : List Token) (pos : ℤ) :
    ∃ c, (pos, c) ∈ (afterToken out_size next pos).writes := by
  unfold afterToken
  split_ifs with hnext
  · subst hnext
    exact ⟨nul, subset_put _ _ _ List.mem_cons_self⟩
  · exact ⟨' ', subset_put _ _ _ List.mem_cons_self⟩

/-- A sum that is too large passes the test, and the token or the character behind it is
written outside of `out`. -/
theorem loop_cons_overflow (hlen : t.content.length < 2 ^ 31) (hpos : pos < out_size)
    (hsize : out_size < 2 ^ 31) (h : 2 ^ 31 ≤ pos + t.content.length + 1) :
    ¬Inside out_size (loop out_size (t :: next) pos).writes := by
  have hneg := toInt_neg h (by omega)
  rw [loop_cons hlen, toInt_toInt_add_one, if_neg (by omega)]
  intro hinside
  have hcopy : Inside out_size (writesFrom pos t.content) :=
    fun w hw => hinside w (subset_put _ _ _ hw)
  rw [put_of_inside hcopy] at hinside
  have hne : t.content ≠ [] := by
    intro hnil
    rw [hnil, List.length_nil] at h
    omega
  have hend : pos + t.content.length = out_size := by
    have hle := le_of_inside_writesFrom hne hcopy
    omega
  obtain ⟨c, hc⟩ := exists_mem_afterToken out_size next (toInt (pos + t.content.length : ℕ))
  have hlast := (hinside _ (List.mem_append_right _ hc)).2
  rw [toInt_of_lt (by omega), hend] at hlast
  exact Int.lt_irrefl _ hlast

theorem loop_fits {rest : List Token} (hne : rest ≠ [])
    (hlen : ∀ t ∈ rest, t.content.length < 2 ^ 31) (hfit : SumsFitFrom out_size pos rest) :
    (pos + (joined rest).length + 2 ≤ out_size →
      loop out_size rest pos = ⟨writesFrom pos (joined rest ++ [nul]), some 0⟩) ∧
    (¬pos + (joined rest).length + 2 ≤ out_size →
      (loop out_size rest pos).ret = some (-1) ∧
        Inside out_size (loop out_size rest pos).writes) := by
  induction rest generalizing pos with
  | nil => exact absurd rfl hne
  | cons t next ih =>
      obtain ⟨hint, hrest⟩ := hfit
      have ht := hlen t List.mem_cons_self
      by_cases hroom : pos + t.content.length + 2 ≤ out_size
      · rw [loop_cons_fits ht hint hroom]
        by_cases hnext : next = []
        · subst hnext
          rw [afterToken_nil _ (by omega), joined_singleton]
          refine ⟨fun _ => ?_, fun hnot => absurd hroom hnot⟩
          rw [writesFrom_append]
        · obtain ⟨hle, hgt⟩ := ih hnext (fun u hu => hlen u (List.mem_cons_of_mem _ hu))
            (hrest hroom)
          rw [afterToken_cons hnext hint (by omega), joined_cons hnext, List.length_append,
            List.length_cons]
          refine ⟨fun h => ?_, fun h => ?_⟩
          · have hline : writesFrom pos (t.content ++ ' ' :: joined next ++ [nul]) =
                writesFrom pos t.content ++ (writesFrom (pos + t.content.length) [' '] ++
                  writesFrom (pos + t.content.length + 1) (joined next ++ [nul])) := by
              rw [List.append_assoc, List.cons_append, ← List.singleton_append, writesFrom_append,
                writesFrom_append, List.length_singleton]
            rw [hle (by omega), hline]
          · obtain ⟨hret, hinside⟩ := hgt (by omega)
            refine ⟨hret, inside_append.mpr ⟨inside_writesFrom (by omega),
              inside_append.mpr ⟨inside_writesFrom ?_, hinside⟩⟩⟩
            rw [List.length_singleton]
            omega
      · rw [loop_cons_full ht hint (by omega)]
        have hlong : t.content.length ≤ (joined (t :: next)).length := by
          rw [length_joined_cons]
          exact Nat.le_add_right _ _
        exact ⟨fun h => absurd h (by omega), fun _ => ⟨rfl, fun w hw => absurd hw List.not_mem_nil⟩⟩

theorem not_inside_of_not_fit (pos : ℕ) {rest : List Token}
    (hlen : ∀ t ∈ rest, t.content.length < 2 ^ 31) (hpos : pos < out_size)
    (hsize : out_size < 2 ^ 31) (hfit : ¬SumsFitFrom out_size pos rest) :
    ¬Inside out_size (loop out_size rest pos).writes := by
  induction rest generalizing pos with
  | nil => exact absurd trivial hfit
  | cons t next ih =>
      have ht := hlen t List.mem_cons_self
      by_cases hint : pos + t.content.length + 1 < 2 ^ 31
      · -- the test is right here, so the token fits and a later one does not
        obtain ⟨hroom, hrest⟩ : pos + t.content.length + 2 ≤ out_size ∧
            ¬SumsFitFrom out_size (pos + t.content.length + 1) next := by
          by_contra hcon
          refine hfit ⟨hint, fun hroom => ?_⟩
          by_contra hrest
          exact hcon ⟨hroom, hrest⟩
        have hnext : next ≠ [] := by
          rintro rfl
          exact hrest trivial
        rw [loop_cons_fits ht hint hroom, afterToken_cons hnext hint (by omega)]
        intro hinside
        exact ih _ (fun u hu => hlen u (List.mem_cons_of_mem _ hu)) (by omega) hrest
          (inside_append.mp (inside_append.mp hinside).2).2
      · exact loop_cons_overflow ht hpos hsize (by omega)

end

theorem buildLine_fits (out_size : ℕ) {seg : List Token}
    (hlen : ∀ t ∈ seg, t.content.length < 2 ^ 31) (hmin : 2 ≤ out_size)
    (hfit : SumsFitFrom out_size 0 seg) :
    ((joined seg).length + 2 ≤ out_size →
      buildLineFromSegment seg out_size = ⟨writesFrom 0 (joined seg ++ [nul]), some 0⟩) ∧
    (¬(joined seg).length + 2 ≤ out_size →
      (buildLineFromSegment seg out_size).ret = some (-1) ∧
        Inside out_size (buildLineFromSegment seg out_size).writes) := by
  by_cases hseg : seg = []
  · subst hseg
    refine ⟨fun _ => ?_, fun h => absurd hmin h⟩
    exact afterToken_nil 0 (Nat.lt_of_lt_of_le Nat.two_pos hmin)
  · have h := loop_fits hseg hlen hfit
    rw [Nat.zero_add] at h
    exact h

theorem bounded_join_iff (out : ℤ → Char) (seg : List Token) (out_size : ℕ)
    (hlen : ∀ t ∈ seg, t.content.length < 2 ^ 31) (hmin : 2 ≤ out_size)
    (hint : out_size < 2 ^ 31) :
    BoundedJoin out seg out_size ↔ SumsFit seg out_size := by
  rw [sumsFit_iff hmin]
  constructor
  · rintro ⟨hinside, -, -⟩
    by_contra hfit
    exact not_inside_of_not_fit 0 hlen (by omega) hint hfit hinside
  · intro hfit
    obtain ⟨hfits, hfull⟩ := buildLine_fits out_size hlen hmin hfit
    unfold BoundedJoin
    by_cases hroom : (joined seg).length + 2 ≤ out_size
    · rw [hfits hroom]
      refine ⟨inside_writesFrom ?_, iff_of_true rfl hroom, fun _ i hi => ?_⟩
      · rw [List.length_append, List.length_singleton]
        omega
      · have hcell := written_writesFrom out 0 (joined seg ++ [nul]) i hi
        rwa [Nat.zero_add] at hcell
    · obtain ⟨hret, hinside⟩ := hfull hroom
      have hne : (buildLineFromSegment seg out_size).ret ≠ some 0 := by
        rw [hret]
        decide
      exact ⟨hinside, iff_of_false hne hroom, fun h => absurd h hne⟩

/-! ## The segments of the shell -/

theorem sumsFitFrom_of_words {out_size : ℕ} (hsize : out_size + bufferSize < 2 ^ 31) {pos : ℕ}
    {rest : List Token} (hlen : ∀ t ∈ rest, t.content.length < bufferSize)
    (hpos : pos < out_size) : SumsFitFrom out_size pos rest := by
  induction rest generalizing pos with
  | nil => trivial
  | cons t next ih =>
      have ht := hlen t List.mem_cons_self
      refine ⟨by omega, fun hroom => ?_⟩
      exact ih (fun u hu => hlen u (List.mem_cons_of_mem _ hu)) (by omega)

/-- The words of the lexer and the array of `main` are far too small for an overflow. -/
theorem sumsFit_of_words {seg : List Token} {out_size : ℕ} (hmin : 2 ≤ out_size)
    (hsize : out_size + bufferSize < 2 ^ 31)
    (hlen : ∀ t ∈ seg, t.content.length < bufferSize) : SumsFit seg out_size :=
  (sumsFit_iff hmin).mpr (sumsFitFrom_of_words hsize hlen (by omega))

/-- Where no sum overflows, the function computes what it does with natural numbers. -/
theorem buildLine_eq_joined {out_size : ℕ} {seg : List Token} (out : List Char)
    (hseg : seg ≠ []) :
    buildLine out_size out seg =
      if out.length + (joined seg).length + 2 ≤ out_size then some (out ++ joined seg)
      else none := by
  induction seg generalizing out with
  | nil => exact absurd rfl hseg
  | cons t next ih =>
      rw [buildLine]
      by_cases hnext : next = []
      · subst hnext
        simp only [buildLine, joined_singleton, if_true, List.append_nil]
        split_ifs <;> first | rfl | omega
      · rw [ih _ hnext, if_neg hnext, joined_cons hnext]
        simp only [List.length_append, List.length_cons, List.length_nil]
        split_ifs
        all_goals first | omega | simp

theorem ret_eq_zero_iff {seg : List Token} (hseg : seg ≠ [])
    (hlen : ∀ t ∈ seg, t.content.length < bufferSize) :
    (buildLineFromSegment seg pipeLineSize).ret = some 0 ↔
      Shell.buildLineFromSegment seg pipeLineSize = some (joined seg) := by
  have hlt : ∀ t ∈ seg, t.content.length < 2 ^ 31 :=
    fun t ht => (hlen t ht).trans (by decide)
  obtain ⟨hfits, hfull⟩ := buildLine_fits pipeLineSize hlt (by decide)
    (sumsFitFrom_of_words (by decide) hlen (by decide))
  rw [Shell.buildLineFromSegment, buildLine_eq_joined [] hseg, List.length_nil, Nat.zero_add,
    List.nil_append]
  by_cases hroom : (joined seg).length + 2 ≤ pipeLineSize
  · rw [hfits hroom, if_pos hroom]
    exact iff_of_true rfl rfl
  · rw [(hfull hroom).1, if_neg hroom]
    exact iff_of_false (by decide) (fun h => by cases h)

/-- The line of tokens of the lexer is bounded for every size that leaves an `int` room for
one more token. -/
theorem bounded_join_of_words (out : ℤ → Char) (seg : List Token) (out_size : ℕ)
    (hlen : ∀ t ∈ seg, t.content.length < 4096) (hmin : 2 ≤ out_size)
    (hmax : out_size ≤ 2 ^ 31 - 4097) : BoundedJoin out seg out_size := by
  have hlt : ∀ t ∈ seg, t.content.length < 2 ^ 31 := fun t ht => (hlen t ht).trans (by decide)
  have hsize : out_size + bufferSize < 2 ^ 31 := by
    unfold bufferSize
    omega
  exact (bounded_join_iff out seg out_size hlt hmin (by omega)).mpr
    (sumsFit_of_words hmin hsize hlen)

/-- `ls | wc` goes to `pipe_line`. -/
theorem bounded_join_pipe :
    BoundedJoin (fun _ => 'x') [⟨"ls".toList, .WORD⟩, ⟨"|".toList, .OP_PIPE⟩, ⟨"wc".toList, .WORD⟩]
      pipeLineSize :=
  bounded_join_of_words _ _ _ (by decide) (by decide) (by decide)

def longWord : Token := ⟨List.replicate 4095 'a', .WORD⟩

theorem length_longWord : longWord.content.length = 4095 := List.length_replicate

theorem length_joined_replicate (n : ℕ) :
    (joined (List.replicate (n + 1) longWord)).length = 4096 * n + 4095 := by
  induction n with
  | zero => simp [length_longWord]
  | succ n ih =>
      rw [List.replicate_succ, length_joined_cons, ih, length_longWord, if_neg (by simp)]
      omega

theorem not_sumsFit_longWords {n out_size : ℕ} (hroom : 4096 * n + 4097 ≤ out_size)
    (hsum : 2 ^ 31 ≤ 4096 * n + 8192) : ¬SumsFit (List.replicate (n + 2) longWord) out_size := by
  intro h
  have hlast := h (List.replicate (n + 1) longWord) longWord [] List.replicate_succ'
    (by rw [length_joined_replicate]; omega)
  rw [← List.replicate_succ', length_joined_replicate] at hlast
  omega

/-- With 524288 of these words the sum for the last one is `2 ^ 31`: it passes the test,
and the NUL is written behind an array of `2 ^ 31 - 1` bytes. -/
theorem sum_overflows :
    ¬BoundedJoin (fun _ => 'x') (List.replicate 524288 longWord) 2147483647 := by
  have hlen : ∀ t ∈ List.replicate 524288 longWord, t.content.length < 2 ^ 31 := by
    intro t ht
    rw [List.eq_of_mem_replicate ht, length_longWord]
    omega
  have hfit : ¬SumsFit (List.replicate (524286 + 2) longWord) 2147483647 :=
    not_sumsFit_longWords (by omega) (by omega)
  rintro ⟨hinside, -, -⟩
  refine not_inside_of_not_fit 0 hlen (by omega) (by omega) ?_ hinside
  exact fun hsums => hfit ((sumsFit_iff (by omega)).mpr hsums)

end ShellXv6.Shell.SegmentLine
