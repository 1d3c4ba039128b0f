import ShellXv6.Shell.Words

/-!
# Tokens written back to a line

`render` writes each token behind a blank, as `build_line_from_segment` does.
The lexer reads the line back as the same tokens just when every word is plain.

The hard direction follows how far the second reading is ahead of the first
writing.  A span is never shorter than its content, so a lead of two characters
can never be made up again, and a lead of one would need a word whose content
ends both in a blank and in a backslash.
-/

namespace ShellXv6.Shell

open Lexer

def render (toks : List Token) (trail : List Char) : List Char :=
  toks.flatMap (fun t => ' ' :: t.content) ++ trail

theorem render_cons (t : Token) (ts : List Token) (trail : List Char) :
    render (t :: ts) trail = ' ' :: (t.content ++ render ts trail) := by
  simp [render]

/-! ## Reading plain words and operators -/

theorem scan_of_blank {c : Char} (hc : isBlank c = true) (buffer rest : List Char) :
    scan .START buffer (c :: rest) = scan .START buffer rest := by
  have hnul : c ≠ nul := by
    rintro rfl
    cases hc
  exact scan_goto (show action .START c (rest.headD nul) = .goto .START by simp [action, hc, hnul])

theorem action_of_wordChar {c : Char} (hc : wordChar c = true) (d : Char) :
    action .IN_WORD c d = .put .IN_WORD [c] 1 := by
  simp_all [action, wordChar]

theorem action_start_of_wordChar {c : Char} (hc : wordChar c = true) (hb : isBlank c = false)
    (d : Char) : action .START c d = .put .IN_WORD [c] 1 := by
  simp_all [action, wordChar, endsWord]

theorem scan_of_wordChar {w : List Char} (hw : ∀ c ∈ w, wordChar c = true) (buffer rest : List Char)
    (hfit : buffer.length + w.length < bufferSize) :
    scan .IN_WORD buffer (w ++ rest) = scan .IN_WORD (buffer ++ w) rest := by
  induction w generalizing buffer with
  | nil => simp
  | cons c w ih =>
      have hlen : (buffer ++ [c]).length + w.length < bufferSize := by
        simp only [List.length_append, List.length_cons, List.length_nil] at hfit ⊢
        omega
      have hact := action_of_wordChar (hw c List.mem_cons_self) ((w ++ rest).headD nul)
      have hput : scan .IN_WORD buffer (c :: (w ++ rest)) =
          scan .IN_WORD (buffer ++ [c]) (w ++ rest) :=
        scan_put [c] 1 hact (by rw [List.length_append] at hlen; omega)
      rw [List.cons_append, hput, ih (fun d hd => hw d (List.mem_cons_of_mem _ hd)) _ hlen,
        List.append_assoc]
      rfl

theorem plain_cons {c : Char} {w : List Char} (h : plain (c :: w) = true) :
    isBlank c = false ∧ ∀ d ∈ c :: w, wordChar d = true := by
  simp only [plain, Bool.and_eq_true, List.all_eq_true, Bool.not_eq_true'] at h
  exact ⟨h.2, h.1⟩

theorem scan_plain {w rest : List Char} (hw : plain w = true) (hfit : w.length < bufferSize)
    (hend : endsWord (rest.headD nul) = true) :
    scan .START [] (w ++ rest) = emit ⟨w, .WORD⟩ (scan .START [] rest) := by
  cases w with
  | nil => cases hw
  | cons c w =>
      obtain ⟨hblank, hword⟩ := plain_cons hw
      have hact := action_start_of_wordChar (hword c List.mem_cons_self) hblank
        ((w ++ rest).headD nul)
      have hput : scan .START [] (c :: (w ++ rest)) = scan .IN_WORD [c] (w ++ rest) :=
        scan_put [c] 1 hact (Nat.le_of_ble_eq_true rfl)
      have hlen : [c].length + w.length < bufferSize := by
        simp only [List.length_cons, List.length_nil] at hfit ⊢
        omega
      rw [List.cons_append, hput,
        scan_of_wordChar (fun d hd => hword d (List.mem_cons_of_mem _ hd)) [c] rest hlen]
      exact scan_endWord (by simp only [action, hend, if_true]) hfit

theorem scan_operator {t : Token} (ht : t ∈ operators) {rest : List Char}
    (hrest : rest.headD nul ≠ '<' ∧ rest.headD nul ≠ '>') :
    scan .START [] (t.content ++ rest) = emit t (scan .START [] rest) := by
  simp only [operators, List.mem_cons, List.not_mem_nil, or_false] at ht
  rcases ht with rfl | rfl | rfl | rfl | rfl | rfl | rfl
  · exact scan_append "|" 1 rfl
  · exact scan_append "&" 1 rfl
  · exact scan_append ";" 1 rfl
  · exact scan_append "<" 1 (if_neg hrest.1)
  · exact scan_append "<<" 2 rfl
  · exact scan_append ">" 1 (if_neg hrest.2)
  · exact scan_append ">>" 2 rfl

/-- A token that is read back as it is written. -/
def PlainToken (t : Token) : Prop :=
  t ∈ operators ∨ t.type = .WORD ∧ plain t.content = true ∧ t.content.length < bufferSize

/-- At most one blank stands at the end of a piece. -/
def Trail (trail : List Char) : Prop := trail = [] ∨ trail = [' ']

theorem headD_render (toks : List Token) {trail : List Char} (ht : Trail trail) :
    (render toks trail).headD nul = ' ' ∨ (render toks trail).headD nul = nul := by
  cases toks with
  | nil =>
      rcases ht with rfl | rfl
      · exact Or.inr rfl
      · exact Or.inl rfl
  | cons t ts => exact Or.inl rfl

theorem scan_render_of_plain {toks : List Token} {trail : List Char} (ht : Trail trail)
    (h : ∀ t ∈ toks, PlainToken t) : scan .START [] (render toks trail) = some (toks, true) := by
  induction toks with
  | nil =>
      have hnil : scan .START [] [] = some ([], true) := by
        rw [scan]
        rfl
      rcases ht with rfl | rfl
      · exact hnil
      · exact (scan_of_blank rfl [] []).trans hnil
  | cons t ts ih =>
      have hts := ih fun u hu => h u (List.mem_cons_of_mem _ hu)
      have hhead := headD_render ts ht
      have hread : scan .START [] (t.content ++ render ts trail) =
          emit t (scan .START [] (render ts trail)) := by
        rcases h t List.mem_cons_self with hop | ⟨hword, hplain, hfit⟩
        · refine scan_operator hop ?_
          rcases hhead with hhead | hhead <;> rw [hhead] <;> decide
        · obtain ⟨content, type⟩ := t
          subst hword
          refine scan_plain hplain hfit ?_
          rcases hhead with hhead | hhead <;> rw [hhead] <;> decide
      rw [render_cons, scan_of_blank rfl, hread, hts]
      rfl

/-! ## What is read back is plain -/

theorem Span.length_le {t : Token} {r : List Char} (h : Span t r) :
    t.content.length ≤ r.length := by
  cases h with
  | operator _ hr => exact Nat.le_of_eq (congrArg List.length hr).symm
  | word _ _ _ hw => exact hw.length_le

theorem operator_content : ∀ t ∈ operators, t.content ≠ [] ∧ ' ' ∉ t.content ∧
    isBlank (t.content.headD ' ') = false := by
  decide

theorem Span.headD {t : Token} {r : List Char} (h : Span t r) : isBlank (r.headD ' ') = false := by
  cases h with
  | operator hop hr => exact hr ▸ (operator_content t hop).2.2
  | word _ _ hstart _ => exact hstart

theorem Span.ne_nil {t : Token} {r : List Char} (h : Span t r) : r ≠ [] := by
  rintro rfl
  cases h.headD

/-- A span no longer than its token is the token itself. -/
theorem Span.eq_of_length_le {t : Token} {r : List Char} (h : Span t r)
    (hlen : r.length ≤ t.content.length) : r = t.content ∧ ' ' ∉ r ∧ PlainToken t := by
  cases h with
  | operator hop hr => exact ⟨hr, hr ▸ (operator_content t hop).2.1, Or.inl hop⟩
  | word htype hfit hstart hw =>
      obtain ⟨heq, hall⟩ := hw.eq_of_length_le hlen
      refine ⟨heq.symm, fun hmem => ?_, Or.inr ⟨htype, ?_, hfit⟩⟩
      · cases hall ' ' hmem
      · rw [heq]
        simp only [plain, Bool.and_eq_true, List.all_eq_true, Bool.not_eq_true']
        exact ⟨hall, hstart⟩

/-- No span is its content with a blank behind it. -/
theorem Span.ne_snoc_blank {t : Token} {r : List Char} (h : Span t r) : r ≠ t.content ++ [' '] := by
  intro hr
  cases h with
  | operator _ hcontent =>
      rw [hcontent] at hr
      simp at hr
  | word _ _ _ hw =>
      obtain ⟨⟨w₀, hw₀⟩, ⟨hst, -⟩ | ⟨r₁, hr₁⟩⟩ := hw.escapedBlank hr
      · cases hst
      · rw [hw₀] at hr₁
        have hlast := (List.append_inj' hr₁ rfl).2
        cases hlast

/-! ## The lead of the second reading -/

theorem exists_lead {l₁ l₂ m₁ m₂ : List Char} (h : l₁ ++ l₂ = m₁ ++ m₂)
    (hlen : m₁.length ≤ l₁.length) : ∃ lead, l₁ = m₁ ++ lead ∧ m₂ = lead ++ l₂ := by
  rcases List.append_eq_append_iff.mp h with ⟨lead, hm, hl⟩ | ⟨lead, hl, hm⟩
  · have hlead : lead = [] := by
      rw [hm, List.length_append] at hlen
      exact List.length_eq_zero_iff.mp (by omega)
    subst hlead
    exact ⟨[], by simpa using hm.symm, by simpa using hl.symm⟩
  · exact ⟨lead, hl, hm⟩

theorem mem_of_append_eq_snoc {l r m : List Char} {c : Char} (h : l ++ r = m ++ [c]) (hr : r ≠ []) :
    c ∈ r := by
  obtain ⟨r', d, rfl⟩ := (List.eq_nil_or_concat r).resolve_left hr
  rw [List.concat_eq_append, ← List.append_assoc] at h
  obtain rfl : d = c := by simpa using (List.append_inj' h rfl).2
  simp

theorem eq_blank_of_render {toks : List Token} {trail l : List Char} {c : Char} (ht : Trail trail)
    (h : render toks trail = c :: l) : c = ' ' := by
  cases toks with
  | nil =>
      rcases ht with rfl | rfl <;> cases h
      rfl
  | cons t ts =>
      rw [render_cons] at h
      exact (List.cons.inj h).1.symm

/-- A lead of two characters is never made up again. -/
theorem scan_ne_of_lead {toks : List Token} {trail lead rest : List Char} (ht : Trail trail)
    (hrest : render toks trail = lead ++ rest) (hlead : 2 ≤ lead.length) :
    scan .START [] rest ≠ some (toks, true) := by
  induction toks generalizing lead rest with
  | nil =>
      have hlen := congrArg List.length hrest
      rcases ht with rfl | rfl <;>
        simp only [render, List.flatMap_nil, List.nil_append, List.length_append,
          List.length_cons, List.length_nil] at hlen <;> omega
  | cons t ts ih =>
      intro hscan
      obtain ⟨b, r, rest', rfl, -, hspan, hts⟩ := scan_start hscan
      have hlonger := hspan.length_le
      have hwritten : (lead ++ b ++ r) ++ rest' = (' ' :: t.content) ++ render ts trail := by
        rw [List.cons_append, ← render_cons, hrest]
        simp only [List.append_assoc]
      obtain ⟨lead', hread, hnext⟩ := exists_lead hwritten (by
        simp only [List.length_append, List.length_cons]
        omega)
      by_cases hlead' : 2 ≤ lead'.length
      · exact ih hnext hlead' hts
      · -- The span is as long as its content, yet ends in the next separator.
        have hlen := congrArg List.length hread
        simp only [List.length_append, List.length_cons] at hlen
        obtain ⟨c, rfl⟩ := List.length_eq_one_iff.mp (show lead'.length = 1 by omega)
        obtain rfl := eq_blank_of_render ht hnext
        obtain ⟨-, hblank, -⟩ := hspan.eq_of_length_le (by omega)
        exact hblank (mem_of_append_eq_snoc hread hspan.ne_nil)

theorem plain_of_scan_render {toks : List Token} {trail : List Char} (ht : Trail trail)
    (h : scan .START [] (render toks trail) = some (toks, true)) : ∀ t ∈ toks, PlainToken t := by
  induction toks with
  | nil => simp
  | cons t ts ih =>
      obtain ⟨b, r, rest, hrest, -, hspan, hts⟩ := scan_start h
      have hlonger := hspan.length_le
      have hb : 1 ≤ b.length := by
        rcases b with - | ⟨c, b⟩
        · rcases r with - | ⟨c, r⟩
          · exact absurd rfl hspan.ne_nil
          · rw [render_cons] at hrest
            obtain rfl := (List.cons.inj hrest).1
            cases hspan.headD
        · simp
      have hwritten : (b ++ r) ++ rest = (' ' :: t.content) ++ render ts trail := by
        rw [List.cons_append, ← render_cons, hrest]
      obtain ⟨lead, hread, hnext⟩ := exists_lead hwritten (by
        simp only [List.length_append, List.length_cons]
        omega)
      have hlen := congrArg List.length hread
      simp only [List.length_append, List.length_cons] at hlen
      rcases lead with - | ⟨c, - | ⟨d, lead⟩⟩
      · simp only [List.length_nil] at hlen
        obtain ⟨-, -, hplain⟩ := hspan.eq_of_length_le (by omega)
        rw [List.nil_append] at hnext
        rw [← hnext] at hts
        exact List.forall_mem_cons.mpr ⟨hplain, ih hts⟩
      · obtain rfl := eq_blank_of_render ht hnext
        rcases b with - | ⟨c, - | ⟨d, b⟩⟩
        · simp at hb
        · exact absurd (List.cons.inj hread).2 hspan.ne_snoc_blank
        · simp only [List.length_cons, List.length_nil] at hlen
          obtain ⟨-, hblank, -⟩ := hspan.eq_of_length_le (by omega)
          exact absurd (mem_of_append_eq_snoc hread hspan.ne_nil) hblank
      · exact absurd hts (scan_ne_of_lead ht hnext (by simp))

/-- The lexer reads a written list of tokens back just when all its words are plain. -/
theorem scan_render_iff {toks : List Token} {trail : List Char} (ht : Trail trail) :
    scan .START [] (render toks trail) = some (toks, true) ↔ ∀ t ∈ toks, PlainToken t :=
  ⟨plain_of_scan_render ht, scan_render_of_plain ht⟩

end ShellXv6.Shell
