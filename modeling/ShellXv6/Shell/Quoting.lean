import ShellXv6.Shell.Compose

/-!
# Quoting

Three ways to write any word so that the lexer reads it back: in double quotes
with the double quotes and backslashes escaped, with a backslash in front of
every character, and in single quotes.
-/

namespace ShellXv6.Shell

open Lexer

/-- A double quote or a backslash loses its meaning behind a backslash. -/
def escapeChar (c : Char) : List Char := if c = '"' ∨ c = '\\' then ['\\', c] else [c]

def doubleQuote (w : List Char) : List Char := '"' :: w.flatMap escapeChar ++ ['"']

def backslash (w : List Char) : List Char := w.flatMap fun c => ['\\', c]

def singleQuote (w : List Char) : List Char := '\'' :: w ++ ['\'']

/-- The encodings of the words with single spaces between. -/
def quoteLine (quote : List Char → List Char) (ws : List (List Char)) : List Char :=
  List.intercalate [' '] (ws.map quote)

def wordTokens (ws : List (List Char)) : List Token := ws.map fun w => ⟨w, .WORD⟩

/-! ## One word -/

/-- If the lexer reads each character of a word from its encoding and stays in its
state, it reads the word. -/
theorem scan_flatMap {st : LexerState} {encode : Char → List Char} {w : List Char}
    (hchar : ∀ c ∈ w, ∀ buffer rest, buffer.length + 1 ≤ bufferSize →
      scan st buffer (encode c ++ rest) = scan st (buffer ++ [c]) rest)
    {buffer : List Char} (hfit : buffer.length + w.length ≤ bufferSize) (rest : List Char) :
    scan st buffer (w.flatMap encode ++ rest) = scan st (buffer ++ w) rest := by
  induction w generalizing buffer with
  | nil => rw [List.flatMap_nil, List.append_nil, List.nil_append]
  | cons c w ih =>
      rw [List.length_cons] at hfit
      rw [List.flatMap_cons, List.append_assoc, hchar c List.mem_cons_self _ _ (by omega), ih,
        List.append_assoc, List.singleton_append]
      · intro d hd
        exact hchar d (List.mem_cons_of_mem c hd)
      · rw [List.length_append, List.length_singleton]
        omega

theorem scan_escapeChar {c : Char} (hc : c ≠ nul) (buffer rest : List Char)
    (hfit : buffer.length + 1 ≤ bufferSize) :
    scan .IN_DQUOTE buffer (escapeChar c ++ rest) = scan .IN_DQUOTE (buffer ++ [c]) rest := by
  by_cases hescape : c = '"' ∨ c = '\\'
  · have hact : action .IN_DQUOTE '\\' c = .put .IN_DQUOTE [c] 2 := by
      rcases hescape with rfl | rfl <;> rfl
    rw [escapeChar, if_pos hescape]
    exact scan_put [c] 2 hact hfit
  · rw [escapeChar, if_neg hescape]
    rw [not_or] at hescape
    refine scan_put [c] 1 ?_ hfit
    exact (if_neg hc).trans ((if_neg hescape.1).trans (if_neg hescape.2))

theorem scan_singleQuoted {c : Char} (hc : c ≠ nul) (hquote : c ≠ '\'') (buffer rest : List Char)
    (hfit : buffer.length + 1 ≤ bufferSize) :
    scan .IN_SQUOTE buffer ([c] ++ rest) = scan .IN_SQUOTE (buffer ++ [c]) rest := by
  refine scan_put [c] 1 ?_ hfit
  exact (if_neg hc).trans (if_neg hquote)

theorem scan_backslash {c : Char} (hc : c ≠ nul) (buffer rest : List Char)
    (hfit : buffer.length + 1 ≤ bufferSize) :
    scan .IN_WORD buffer (['\\', c] ++ rest) = scan .IN_WORD (buffer ++ [c]) rest := by
  have hgoto : scan .IN_WORD buffer (['\\', c] ++ rest) = scan .AFTER_ESCAPE buffer (c :: rest) :=
    scan_goto rfl
  rw [hgoto]
  exact scan_put [c] 1 (if_neg hc) hfit

theorem scan_word_nil {w : List Char} (hlen : w.length < bufferSize) :
    scan .IN_WORD w [] = some ([⟨w, .WORD⟩], true) := by
  have hstop : scan .START [] [] = some ([], true) := by
    rw [scan]
    rfl
  rw [scan_endWord rfl hlen, hstop]
  rfl

section

variable {w : List Char}

theorem scan_doubleQuote_word (hnul : nul ∉ w) (hlen : w.length < bufferSize) :
    scan .START [] (doubleQuote w) = some ([⟨w, .WORD⟩], true) := by
  have hopen : scan .START [] (doubleQuote w) =
      scan .IN_DQUOTE [] (w.flatMap escapeChar ++ ['"']) := scan_goto rfl
  have hclose : scan .IN_DQUOTE w ['"'] = scan .IN_WORD w [] := scan_goto rfl
  rw [hopen, scan_flatMap _ (by simpa using Nat.le_of_lt hlen), List.nil_append,
    hclose, scan_word_nil hlen]
  intro c hc
  apply scan_escapeChar
  rintro rfl
  exact hnul hc

theorem scan_singleQuote_word (hnul : nul ∉ w) (hquote : '\'' ∉ w) (hlen : w.length < bufferSize) :
    scan .START [] (singleQuote w) = some ([⟨w, .WORD⟩], true) := by
  have hopen : scan .START [] (singleQuote w) =
      scan .IN_SQUOTE [] (w.flatMap (fun c => [c]) ++ ['\'']) := by
    rw [List.flatMap_singleton']
    exact scan_goto rfl
  have hclose : scan .IN_SQUOTE w ['\''] = scan .IN_WORD w [] := scan_goto rfl
  rw [hopen, scan_flatMap _ (by simpa using Nat.le_of_lt hlen), List.nil_append,
    hclose, scan_word_nil hlen]
  intro c hc
  apply scan_singleQuoted
  · rintro rfl
    exact hnul hc
  · rintro rfl
    exact hquote hc

/-- The first backslash opens a word as one inside it goes on. -/
theorem scan_backslash_word (hne : w ≠ []) (hnul : nul ∉ w) (hlen : w.length < bufferSize) :
    scan .START [] (backslash w) = some ([⟨w, .WORD⟩], true) := by
  have hopen : scan .START [] (backslash w) = scan .IN_WORD [] (w.flatMap (['\\', ·]) ++ []) := by
    obtain ⟨c, w, rfl⟩ := List.exists_cons_of_ne_nil hne
    rw [List.append_nil]
    exact (scan_goto (s := .AFTER_ESCAPE) rfl).trans (scan_goto rfl).symm
  rw [hopen, scan_flatMap _ (by simpa using Nat.le_of_lt hlen), List.nil_append,
    scan_word_nil hlen]
  intro c hc
  apply scan_backslash
  rintro rfl
  exact hnul hc

end

/-! ## A line of words -/

theorem quoteLine_cons_cons (quote : List Char → List Char) (w v : List Char)
    (ws : List (List Char)) :
    quoteLine quote (w :: v :: ws) = quote w ++ ' ' :: quoteLine quote (v :: ws) := by
  simp only [quoteLine, List.map_cons, List.intercalate_cons_cons, List.append_assoc,
    List.singleton_append]

theorem quoteLine_singleton (quote : List Char → List Char) (w : List Char) :
    quoteLine quote [w] = quote w := by
  rw [quoteLine, List.map_singleton, List.intercalate_singleton]

section

variable {quote : List Char → List Char} {ws : List (List Char)}

theorem scan_quoteLine (hword : ∀ w ∈ ws, scan .START [] (quote w) = some ([⟨w, .WORD⟩], true))
    (hnul : ∀ w ∈ ws, nul ∉ quote w) :
    scan .START [] (quoteLine quote ws) = some (wordTokens ws, true) := by
  induction ws with
  | nil =>
      rw [quoteLine, scan]
      rfl
  | cons w ws ih =>
      obtain ⟨hw, hws⟩ := List.forall_mem_cons.mp hword
      obtain ⟨hnw, hnws⟩ := List.forall_mem_cons.mp hnul
      cases ws with
      | nil =>
          rw [quoteLine_singleton]
          exact hw
      | cons v ws =>
          rw [quoteLine_cons_cons, scan_append_separator (fun _ => rfl) hnw rfl _ hw,
            scan_separator rfl, ih hws hnws]
          rfl

theorem nul_notMem_quoteLine (hnul : ∀ w ∈ ws, nul ∉ quote w) : nul ∉ quoteLine quote ws := by
  induction ws with
  | nil => exact List.not_mem_nil
  | cons w ws ih =>
      obtain ⟨hnw, hnws⟩ := List.forall_mem_cons.mp hnul
      cases ws with
      | nil =>
          rw [quoteLine_singleton]
          exact hnw
      | cons v ws =>
          rw [quoteLine_cons_cons]
          exact nul_notMem_append hnw (by decide) (ih hnws)

theorem lexer_quoteLine_iff
    (hword : ∀ w ∈ ws, scan .START [] (quote w) = some ([⟨w, .WORD⟩], true))
    (hnul : ∀ w ∈ ws, nul ∉ quote w) :
    lexer (quoteLine quote ws) = some (wordTokens ws, true) ↔
      (quoteLine quote ws).length < 2 ^ 31 := by
  have hself := beforeNul_eq_self (nul_notMem_quoteLine hnul)
  constructor
  · intro h
    have hlt := lt_of_lexer h
    rwa [hself] at hlt
  · intro h
    rw [lexer_eq_scan (by rwa [hself]), scan_quoteLine hword hnul]

end

theorem nul_mem_of_flatMap {encode : Char → List Char} (h : ∀ c, nul ∈ encode c → c = nul)
    {w : List Char} (hmem : nul ∈ w.flatMap encode) : nul ∈ w := by
  obtain ⟨c, hc, hnul⟩ := List.mem_flatMap.mp hmem
  exact h c hnul ▸ hc

theorem nul_mem_of_mem_quotes {q : Char} (hq : nul ≠ q) {l : List Char}
    (hmem : nul ∈ q :: l ++ [q]) : nul ∈ l := by
  simpa [hq] using hmem

theorem eq_nul_of_mem_escapeChar (c : Char) (h : nul ∈ escapeChar c) : c = nul := by
  by_cases hescape : c = '"' ∨ c = '\\'
  · rw [escapeChar, if_pos hescape] at h
    rcases List.mem_pair.mp h with h | h
    · cases h
    · exact h.symm
  · rw [escapeChar, if_neg hescape] at h
    exact (List.mem_singleton.mp h).symm

theorem eq_nul_of_mem_backslash (c : Char) (h : nul ∈ ['\\', c]) : c = nul := by
  rcases List.mem_pair.mp h with h | h
  · cases h
  · exact h.symm

/-- Every list of words that fit into the buffer is read back from each of its
encodings, up to the line whose last index an `int` cannot hold. -/
theorem quoting_round_trip (ws : List (List Char)) (hnul : ∀ w ∈ ws, nul ∉ w)
    (hlen : ∀ w ∈ ws, w.length ≤ 4095) :
    (lexer (quoteLine doubleQuote ws) = some (wordTokens ws, true) ↔
        (quoteLine doubleQuote ws).length < 2 ^ 31) ∧
      ((∀ w ∈ ws, w ≠ []) → (lexer (quoteLine backslash ws) = some (wordTokens ws, true) ↔
        (quoteLine backslash ws).length < 2 ^ 31)) ∧
      ((∀ w ∈ ws, '\'' ∉ w) → (lexer (quoteLine singleQuote ws) = some (wordTokens ws, true) ↔
        (quoteLine singleQuote ws).length < 2 ^ 31)) := by
  have hfit : ∀ w ∈ ws, w.length < bufferSize := fun w hw => Nat.lt_succ_of_le (hlen w hw)
  refine ⟨?_, fun hne => ?_, fun hquote => ?_⟩
  · apply lexer_quoteLine_iff
    · intro w hw
      exact scan_doubleQuote_word (hnul w hw) (hfit w hw)
    · intro w hw hmem
      apply hnul w hw
      exact nul_mem_of_flatMap eq_nul_of_mem_escapeChar (nul_mem_of_mem_quotes (by decide) hmem)
  · apply lexer_quoteLine_iff
    · intro w hw
      exact scan_backslash_word (hne w hw) (hnul w hw) (hfit w hw)
    · intro w hw hmem
      exact hnul w hw (nul_mem_of_flatMap eq_nul_of_mem_backslash hmem)
  · apply lexer_quoteLine_iff
    · intro w hw
      exact scan_singleQuote_word (hnul w hw) (hquote w hw) (hfit w hw)
    · intro w hw hmem
      exact hnul w hw (nul_mem_of_mem_quotes (by decide) hmem)

/-- Empty words, blanks with a double quote, and a backslash at the end. -/
theorem quoting_round_trip_special :
    lexer (quoteLine doubleQuote [[], [' ', '"'], ['|', '\\']]) =
        some ([⟨[], .WORD⟩, ⟨[' ', '"'], .WORD⟩, ⟨['|', '\\'], .WORD⟩], true) ∧
      lexer (quoteLine backslash [[' ', '"'], ['|', '\\']]) =
        some ([⟨[' ', '"'], .WORD⟩, ⟨['|', '\\'], .WORD⟩], true) ∧
      lexer (quoteLine singleQuote [[], [' ', '"']]) =
        some ([⟨[], .WORD⟩, ⟨[' ', '"'], .WORD⟩], true) :=
  ⟨(quoting_round_trip [[], [' ', '"'], ['|', '\\']] (by decide) (by decide)).1.mpr (by decide),
    ((quoting_round_trip [[' ', '"'], ['|', '\\']] (by decide) (by decide)).2.1
      (by decide)).mpr (by decide),
    ((quoting_round_trip [[], [' ', '"']] (by decide) (by decide)).2.2
      (by decide)).mpr (by decide)⟩

theorem mul_le_length_quoteLine (ws : List (List Char)) :
    2 * ws.length ≤ (quoteLine doubleQuote ws).length := by
  induction ws with
  | nil => exact Nat.zero_le _
  | cons w ws ih =>
      cases ws with
      | nil => simp [quoteLine_singleton, doubleQuote]
      | cons v ws =>
          rw [quoteLine_cons_cons, doubleQuote]
          simp only [List.length_append, List.length_cons, List.length_nil] at ih ⊢
          omega

/-- `2^30` pairs of double quotes with blanks between are not read back: at
`2147483647` the statement `curr_char++` overflows. -/
theorem quoted_empty_words_too_long :
    (∀ w ∈ List.replicate (2 ^ 30) ([] : List Char), nul ∉ w ∧ w.length ≤ 4095) ∧
      lexer (quoteLine doubleQuote (List.replicate (2 ^ 30) [])) = none := by
  have hword : ∀ w ∈ List.replicate (2 ^ 30) ([] : List Char), w = [] :=
    fun w hw => List.eq_of_mem_replicate hw
  refine ⟨fun w hw => hword w hw ▸ ⟨List.not_mem_nil, Nat.zero_le _⟩, lexer_eq_none ?_⟩
  rw [beforeNul_eq_self (nul_notMem_quoteLine fun w hw => hword w hw ▸ by decide)]
  have hlength := mul_le_length_quoteLine (List.replicate (2 ^ 30) [])
  rwa [List.length_replicate] at hlength

end ShellXv6.Shell
