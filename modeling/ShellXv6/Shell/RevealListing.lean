import ShellXv6.Lib.Split
import ShellXv6.Shell.RevealTree

/-!
# When the listing of a tree is right

A call of `reveal_dir` for a directory of the tree prints what the tree has there if the
path of each entry fits into its buffer.  In the other direction the lines that an entry
prints are found again in the output, since they start with its path, so that a listing
that is right as a whole is right for each entry.
-/

namespace ShellXv6.Shell.Reveal

open Calls

namespace Tree

variable {Dir : Type} {t : Tree Dir} {o : Options} {d : Dir} {name : Path} {c : Call}
  {target : Path} {dirs : List Path}

/-! ## The listing of a tree -/

theorem mem_contents {hidden : Bool} {levels : ℕ} (hlevels : t.height d < levels) {e : Entry} :
    e ∈ t.contents hidden levels dirs d ↔
      ∃ c, t.Within hidden dirs d e.dirs c ∧ e.name ∈ t.names hidden c ∧
        e.is_dir = (t.step c e.name).isSome := by
  induction levels generalizing dirs d with
  | zero => exact absurd hlevels (Nat.not_lt_zero _)
  | succ levels ih =>
      rw [contents, List.mem_flatMap]
      constructor
      · rintro ⟨name, hname, he⟩
        rw [entryContents] at he
        rcases List.mem_cons.mp he with rfl | he
        · exact ⟨d, .here, hname, rfl⟩
        · obtain ⟨c', hsub, he⟩ := mem_subdirContents.mp he
          have hheight := height_subdir hsub
          obtain ⟨c, hwithin, hentry⟩ := (ih (by omega)).mp he
          exact ⟨c, .enter hname hsub hwithin, hentry⟩
      · rintro ⟨c, hwithin, hname, hdir⟩
        generalize hdirs : e.dirs = dirs' at hwithin
        cases hwithin with
        | here =>
            refine ⟨e.name, hname, ?_⟩
            rw [entryContents, ← hdirs, ← hdir]
            exact List.mem_cons_self
        | enter hname' hsub hbelow =>
            have hheight := height_subdir hsub
            refine ⟨_, hname', List.mem_cons_of_mem _ (mem_subdirContents.mpr ⟨_, hsub, ?_⟩)⟩
            rw [ih (by omega), hdirs]
            exact ⟨c, hbelow, hname, hdir⟩

theorem mem_below {hidden : Bool} {e : Entry} :
    e ∈ t.below hidden d ↔
      ∃ c, t.Within hidden [] d e.dirs c ∧ e.name ∈ t.names hidden c ∧
        e.is_dir = (t.step c e.name).isSome :=
  mem_contents (Nat.lt_succ_self _)

theorem dirs_of_mem_contents {hidden : Bool} {levels : ℕ} {e : Entry}
    (h : e ∈ t.contents hidden levels dirs d) : dirs <+: e.dirs := by
  induction levels generalizing dirs d with
  | zero => cases h
  | succ levels ih =>
      rw [contents] at h
      obtain ⟨name, -, he⟩ := List.mem_flatMap.mp h
      rw [entryContents] at he
      rcases List.mem_cons.mp he with rfl | he
      · exact List.prefix_refl _
      · obtain ⟨c, -, he⟩ := mem_subdirContents.mp he
        exact (List.prefix_append _ _).trans (ih he)

theorem dirs_of_mem_subdirContents {hidden : Bool} {levels : ℕ} {e : Entry}
    (h : e ∈ t.subdirContents (t.contents hidden levels) dirs d name) :
    dirs ++ [name] <+: e.dirs := by
  obtain ⟨c, -, he⟩ := mem_subdirContents.mp h
  exact dirs_of_mem_contents he

theorem name_of_mem_entryContents {hidden : Bool} {levels : ℕ} {e : Entry}
    (h : e ∈ t.entryContents (t.contents hidden levels) dirs d name) :
    dirs ++ [name] <+: e.dirs ++ [e.name] := by
  rw [entryContents] at h
  rcases List.mem_cons.mp h with rfl | h
  · exact List.prefix_refl _
  · exact (dirs_of_mem_subdirContents h).trans (List.prefix_append _ _)

theorem nodup_contents (hidden : Bool) (levels : ℕ) (dirs : List Path) (d : Dir) :
    (t.contents hidden levels dirs d).Nodup := by
  induction levels generalizing dirs d with
  | zero => exact List.nodup_nil
  | succ levels ih =>
      rw [contents]
      refine List.nodup_flatMap.mpr ⟨fun name _ => ?_, ?_⟩
      · rw [entryContents]
        refine List.nodup_cons.mpr ⟨fun hmem => ?_, ?_⟩
        · have hlen := (dirs_of_mem_subdirContents hmem).length_le
          simp only [List.length_append, List.length_singleton] at hlen
          omega
        · cases hsub : t.subdir d name with
          | none =>
              rw [subdirContents_none hsub]
              exact List.nodup_nil
          | some c =>
              rw [subdirContents_some hsub]
              exact ih _ _
      · refine (nodup_names d).imp fun {name name'} hne e he he' => hne ?_
        have hprefix := name_of_mem_entryContents he
        have hprefix' := name_of_mem_entryContents he'
        have heq := List.prefix_of_prefix_length_le hprefix hprefix' (by simp)
        exact List.singleton_inj.mp (List.append_cancel_left (heq.eq_of_length (by simp)))

theorem nodup_below (hidden : Bool) (d : Dir) : (t.below hidden d).Nodup :=
  nodup_contents hidden _ _ d

/-! ## The listing is right if everything fits -/

theorem Fits.inside {t : Tree Dir} {hidden : Bool} {e : Dir} (h : t.Fits hidden target dirs d)
    (hname : name ∈ t.names hidden d) (he : t.subdir d name = some e) :
    t.Fits hidden target (dirs ++ [name]) e :=
  fun dirs' d' hwithin => h dirs' d' (.enter hname he hwithin)

/-- Both directories are bare: what is printed for the one is the listing of the other. -/
theorem shows_bare {e e' : Dir} {levels : ℕ} (hlevels : 0 < levels) (he : t.Bare o.show_hidden e)
    (he' : t.Bare o.show_hidden e') (hlen : (t.readdir e').length ≤ bufferSize)
    (hpre : o.show_hidden = true → c.pre = prefixOf dirs) :
    Shows ((List.range (t.readdir e').length).map Event.stored ++
        (t.names o.show_hidden e').map fun name => .stdout (line c.pre name true))
      (t.contents o.show_hidden levels dirs e) := by
  apply Shows.stored hlen
  obtain ⟨levels, rfl⟩ : ∃ k, levels = k + 1 := Nat.exists_eq_succ_of_ne_zero (by omega)
  rw [contents, names_of_bare he, names_of_bare he']
  by_cases hhidden : o.show_hidden = true
  · rw [if_pos hhidden, hpre hhidden]
    simp only [List.flatMap_cons, List.flatMap_nil, entryContents,
      subdirContents_none (subdir_dot _), subdirContents_none (subdir_dotDot _),
      step_dots (.inl rfl), step_dots (.inr rfl)]
    exact .stdout rfl (.stdout rfl shows_nil)
  · rw [if_neg hhidden]
    exact shows_nil

theorem entry_plain {inside : List Path → Dir → List Entry}
    (hnot : ¬t.Entered o (callOf target dirs) name)
    (hdir : (t.openDir ((callOf target dirs).newPath name)).isSome = (t.step d name).isSome)
    (hsub : t.subdir d name = none) :
    ∃ out, Runs (revealDir t.files o)
        (entryItems t.files o.is_recursive (callOf target dirs) name) out ∧
      Shows out (t.entryContents inside dirs d name) := by
  refine ⟨_, runs_entryItems.mpr ⟨[], rfl, fun hin => absurd hin hnot, fun _ => rfl⟩, ?_⟩
  rw [entryContents, subdirContents_none hsub, hdir]
  exact .stdout rfl shows_nil

theorem entry_entered {inside : List Path → Dir → List Entry} {e : Dir}
    (hin : t.Entered o (callOf target dirs) name) (hsub : t.subdir d name = some e)
    (hstep : t.step d name = t.subdir d name) {out : List Event}
    (hruns : Runs (revealDir t.files o)
      (revealDir t.files o ((callOf target dirs).enter name)) out)
    (hshows : Shows out (inside (dirs ++ [name]) e)) :
    ∃ out, Runs (revealDir t.files o)
        (entryItems t.files o.is_recursive (callOf target dirs) name) out ∧
      Shows out (t.entryContents inside dirs d name) := by
  refine ⟨_, runs_entryItems.mpr ⟨out, rfl, fun _ => hruns, fun hnot => absurd hin hnot⟩, ?_⟩
  rw [entryContents, subdirContents_some hsub, hstep, hsub, hin.2.1]
  exact .stdout rfl hshows

theorem entry_of_cutHarmless {levels : ℕ} (hrec : o.is_recursive = true)
    (hreal : name ≠ dot ∧ name ≠ dotDot) (hstep : t.step d name = t.subdir d name)
    (hlevels : ∀ e, t.subdir d name = some e → 0 < levels)
    (hlen : bufferSize ≤ (pathOf target (dirs ++ [name])).length)
    (hcut : t.CutHarmless o.show_hidden (callOf target dirs) d name) :
    ∃ out, Runs (revealDir t.files o)
        (entryItems t.files o.is_recursive (callOf target dirs) name) out ∧
      Shows out (t.entryContents (t.contents o.show_hidden levels) dirs d name) := by
  unfold CutHarmless at hcut
  cases he : t.subdir d name with
  | none =>
      cases he' : t.openDir ((callOf target dirs).newPath name) with
      | some e' =>
          rw [he, he'] at hcut
          exact hcut.elim
      | none =>
          apply entry_plain _ _ he
          · intro hin
            rw [Entered, he'] at hin
            cases hin.2.1
          · rw [hstep, he, he']
  | some e =>
      cases he' : t.openDir ((callOf target dirs).newPath name) with
      | none =>
          rw [he, he'] at hcut
          exact hcut.elim
      | some e' =>
          rw [he, he'] at hcut
          obtain ⟨hbare, hbare', hcount, hpre⟩ := hcut
          apply entry_entered ⟨hrec, by rw [he']; rfl, hreal⟩ he hstep
            ((runs_full (c := (callOf target dirs).enter name) hrec he'
              (length_newPath_cut hlen)).mpr ⟨hbare', rfl⟩)
          apply shows_bare (hlevels e he) hbare hbare' hcount
          intro hhidden
          rw [prefixOf_concat]
          exact fitted_of_lt (hpre hhidden)

/-- One entry, if the listing of the directories below is right. -/
theorem entry_shows {levels : ℕ} (hrec : o.is_recursive = true)
    (hopen : t.openDir (callOf target dirs).path = some d)
    (hname : name ∈ t.names o.show_hidden d) (hfits : t.Fits o.show_hidden target dirs d)
    (ih : ∀ e, t.subdir d name = some e → t.openDir (callOf target (dirs ++ [name])).path = some e →
      ∃ out, Runs (revealDir t.files o) (revealDir t.files o (callOf target (dirs ++ [name]))) out ∧
        Shows out (t.contents o.show_hidden levels (dirs ++ [name]) e))
    (hlevels : ∀ e, t.subdir d name = some e → 0 < levels) :
    ∃ out, Runs (revealDir t.files o)
        (entryItems t.files o.is_recursive (callOf target dirs) name) out ∧
      Shows out (t.entryContents (t.contents o.show_hidden levels) dirs d name) := by
  by_cases hdots : name = dot ∨ name = dotDot
  · -- `.` and `..` are printed and not entered.
    apply entry_plain _ _ (subdir_dots hdots)
    · intro hin
      exact absurd hdots (not_or.mpr hin.2.2)
    · rw [step_dots hdots, openDir_dots hopen hdots]
  · have hreal := not_or.mp hdots
    have hstep : t.step d name = t.subdir d name :=
      step_of_ne (names_ne_nil hname) hreal.1 hreal.2
    by_cases hlen : (pathOf target (dirs ++ [name])).length < bufferSize
    · have hdir := openDir_enter hopen hname hlen
      cases he : t.subdir d name with
      | none =>
          apply entry_plain _ (by rw [hdir]) he
          intro hin
          rw [Entered, hdir, hstep, he] at hin
          cases hin.2.1
      | some e =>
          rw [hstep, he] at hdir
          have hopen' : t.openDir (callOf target (dirs ++ [name])).path = some e := by
            rw [← enter_callOf hlen]
            exact hdir
          obtain ⟨out, hruns, hshows⟩ := ih e he hopen'
          rw [← enter_callOf hlen] at hruns
          exact entry_entered ⟨hrec, by rw [hdir]; rfl, hreal⟩ he hstep hruns hshows
    · have hcut := (hfits dirs d .here (openDir_ne_nil hopen).2).2 name hname hreal.1 hreal.2
        (Nat.le_of_not_lt hlen)
      exact entry_of_cutHarmless hrec hreal hstep hlevels (Nat.le_of_not_lt hlen) hcut

theorem flatMap_shows {body : Call → List (Effect Event Call)} {ns : List Path}
    {f : Path → List (Effect Event Call)} {g : Path → List Entry}
    (h : ∀ n ∈ ns, ∃ out, Runs body (f n) out ∧ Shows out (g n)) :
    ∃ out, Runs body (ns.flatMap f) out ∧ Shows out (ns.flatMap g) := by
  induction ns with
  | nil => exact ⟨[], .nil, shows_nil⟩
  | cons n ns ih =>
      obtain ⟨out, hruns, hshows⟩ := h n List.mem_cons_self
      obtain ⟨rest, hruns', hshows'⟩ := ih fun m hm => h m (List.mem_cons_of_mem _ hm)
      rw [List.flatMap_cons, List.flatMap_cons]
      exact ⟨out ++ rest, runs_append.mpr ⟨out, rest, rfl, hruns, hruns'⟩, hshows.append hshows'⟩

theorem runs_of_fits {levels : ℕ} (hrec : o.is_recursive = true)
    (hopen : t.openDir (callOf target dirs).path = some d) (hlevels : t.height d < levels)
    (hfits : t.Fits o.show_hidden target dirs d) :
    ∃ out, Runs (revealDir t.files o) (revealDir t.files o (callOf target dirs)) out ∧
      Shows out (t.contents o.show_hidden levels dirs d) := by
  induction levels generalizing dirs d with
  | zero => exact absurd hlevels (Nat.not_lt_zero _)
  | succ levels ih =>
      have hentries : ∀ name ∈ t.names o.show_hidden d, ∃ out, Runs (revealDir t.files o)
          (entryItems t.files o.is_recursive (callOf target dirs) name) out ∧
            Shows out (t.entryContents (t.contents o.show_hidden levels) dirs d name) := by
        intro name hname
        apply entry_shows hrec hopen hname hfits
        · intro e he hopen'
          have hheight := height_subdir he
          exact ih hopen' (by omega) (hfits.inside hname he)
        · intro e he
          have hheight := height_subdir he
          omega
      obtain ⟨out, hruns, hshows⟩ := flatMap_shows hentries
      exact ⟨_, (runs_revealDir hopen).mpr ⟨out, rfl, hruns⟩,
        hshows.stored (hfits dirs d .here (openDir_ne_nil hopen).2).1⟩

end Tree

/-! ## Lines of different entries -/

theorem line_inj {pre name : Path} {b b' : Bool} (h : line pre name b = line pre name b') :
    b = b' := by
  have htail := List.append_cancel_left (List.append_cancel_left h)
  cases b <;> cases b' <;> first | rfl | cases htail

theorem not_prefix_line {pre name name' : Path} {b : Bool} (h : '/' ∉ name) (h' : '/' ∉ name')
    (hne : name' ≠ name) : ¬pre ++ (name ++ ['/']) <+: line pre name' b := by
  intro hprefix
  obtain ⟨rest, hrest⟩ := (List.prefix_append_right_inj pre).mp hprefix
  rw [List.append_assoc, List.singleton_append] at hrest
  cases b with
  | true =>
      have htake := congrArg (List.takeWhile (· != '/')) hrest
      rw [Split.takeWhile_ne h] at htake
      exact hne ((Split.takeWhile_ne h' ['\n']).symm.trans htake.symm)
  | false =>
      have hmem : '/' ∈ name' ++ ['\n'] :=
        hrest ▸ List.mem_append_right _ List.mem_cons_self
      rcases List.mem_append.mp hmem with hmem | hmem
      · exact h' hmem
      · exact absurd (List.mem_singleton.mp hmem) (by decide)

/-- The line of `.` behind a prefix that is cut is no line behind the whole prefix. -/
theorem line_fitted_ne {pre name : Path} {b : Bool} (hlen : bufferSize ≤ pre.length)
    (hlast : pre.getLast? = some '/') (hname : name ≠ []) :
    line (fitted pre) dot true ≠ line pre name b := by
  intro heq
  obtain ⟨c, rest, hdrop⟩ : ∃ c rest, pre.drop (bufferSize - 1) = c :: rest := by
    apply List.exists_cons_of_ne_nil
    rw [ne_eq, List.drop_eq_nil_iff]
    have hpos : 0 < bufferSize := by decide
    omega
  have hpre : pre = fitted pre ++ c :: rest := by
    rw [← hdrop, fitted, List.take_append_drop]
  have hend : (c :: rest).getLast? = some '/' := by
    rw [hpre, List.getLast?_append_of_ne_nil _ (List.cons_ne_nil _ _)] at hlast
    exact hlast
  rw [line, line] at heq
  nth_rewrite 2 [hpre] at heq
  rw [List.append_assoc] at heq
  have htail := List.append_cancel_left heq
  obtain ⟨x, name, rfl⟩ := List.exists_cons_of_ne_nil hname
  -- Only `./` and the end of the line are left for the rest of the prefix and the name.
  cases rest with
  | nil =>
      cases hend
      cases htail
  | cons y rest =>
      have hlength := congrArg List.length htail
      cases b <;> simp [dot] at hlength <;> omega

/-! ## The listing is right only if everything fits -/

def Event.under (pre : Path) : Event → Bool
  | .stdout text => pre.isPrefixOf text
  | _ => false

theorem under_line {pre pre' name : Path} {b : Bool} (h : pre <+: pre') :
    (Event.stdout (line pre' name b)).under pre = true :=
  List.isPrefixOf_iff_prefix.mpr (h.trans (List.prefix_append _ _))

theorem not_under_line {pre name name' : Path} {b : Bool} (h : '/' ∉ name) (h' : '/' ∉ name')
    (hne : name' ≠ name) :
    (Event.stdout (line pre name' b)).under (pre ++ (name ++ ['/'])) = false :=
  Bool.eq_false_iff.mpr fun hunder =>
    not_prefix_line h h' hne (List.isPrefixOf_iff_prefix.mp hunder)

/-- Two texts are cut in the same way where a property of the lines ends. -/
theorem append_inj_of_all {α : Type*} {p : α → Bool} {xs xs' ys ys' : List α}
    (hxs : ∀ x ∈ xs, p x = true) (hys : ∀ y ∈ ys, p y = true)
    (hxs' : ∀ x ∈ xs'.head?, p x = false) (hys' : ∀ y ∈ ys'.head?, p y = false)
    (h : xs ++ xs' = ys ++ ys') : xs = ys := by
  rw [← Split.takeWhile_append_eq hxs hxs', h, Split.takeWhile_append_eq hys hys']

namespace Tree

variable {Dir : Type} {t : Tree Dir} {o : Options} {d : Dir} {name : Path} {c : Call}
  {target : Path} {dirs : List Path} {levels : ℕ}

theorem emit_mem_entryItems {e : Event}
    (h : .emit e ∈ entryItems t.files o.is_recursive c name) :
    e = .stdout (line c.pre name (t.openDir (c.newPath name)).isSome) := by
  rw [entryItems] at h
  rcases List.mem_cons.mp h with heq | hmem
  · cases heq
    rfl
  · split at hmem
    · cases List.mem_singleton.mp hmem
    · cases hmem

theorem call_mem_entryItems {c' : Call}
    (h : .call c' ∈ entryItems t.files o.is_recursive c name) :
    c' = c.enter name ∧ t.Entered o c name := by
  rw [entryItems] at h
  rcases List.mem_cons.mp h with heq | hmem
  · cases heq
  · split at hmem
    · rename_i hcond
      cases List.mem_singleton.mp hmem
      exact ⟨rfl, hcond⟩
    · cases hmem

theorem printed_under {pre : Path} (hlen : pre.length < bufferSize)
    (hopen : (t.openDir c.path).isSome = true) (hpre : pre <+: c.pre) {out : List Event}
    (hruns : Runs (revealDir t.files o) (revealDir t.files o c) out) :
    ∀ e ∈ printed out, e.under pre = true := by
  have hbody : ∀ c : Call, (t.openDir c.path).isSome = true ∧ pre <+: c.pre →
      (∀ e, .emit e ∈ revealDir t.files o c → e.isPrint = true → e.under pre = true) ∧
        ∀ c', .call c' ∈ revealDir t.files o c →
          (t.openDir c'.path).isSome = true ∧ pre <+: c'.pre := by
    intro c hc
    obtain ⟨d, hd⟩ := Option.isSome_iff_exists.mp hc.1
    rw [revealDir_files hd]
    refine ⟨fun e he hprint => ?_, fun c' hc' => ?_⟩
    · rcases List.mem_append.mp he with he | he
      · obtain ⟨e', he', heq⟩ := List.mem_map.mp he
        cases heq
        obtain ⟨i, -, rfl⟩ := List.mem_map.mp he'
        cases hprint
      · obtain ⟨name, -, he⟩ := List.mem_flatMap.mp he
        rw [emit_mem_entryItems he]
        exact under_line hc.2
    · rcases List.mem_append.mp hc' with hc' | hc'
      · obtain ⟨e', -, heq⟩ := List.mem_map.mp hc'
        cases heq
      · obtain ⟨name, -, hc'⟩ := List.mem_flatMap.mp hc'
        obtain ⟨rfl, hentered⟩ := call_mem_entryItems hc'
        refine ⟨hentered.2.1, List.prefix_take_iff.mpr ⟨?_, by omega⟩⟩
        exact hc.2.trans (List.prefix_append _ _)
  obtain ⟨hemit, hcall⟩ := hbody c ⟨hopen, hpre⟩
  intro e he
  obtain ⟨hmem, hprint⟩ := List.mem_filter.mp he
  exact hruns.forall_events hbody hemit hcall e hmem hprint

theorem contents_under {hidden : Bool} :
    ∀ e ∈ lines (t.contents hidden levels dirs d), e.under (prefixOf dirs) = true := by
  intro e he
  obtain ⟨entry, hentry, rfl⟩ := List.mem_map.mp he
  apply under_line
  obtain ⟨rest, hrest⟩ := dirs_of_mem_contents hentry
  rw [prefixOf, prefixOf, ← hrest, List.flatMap_append]
  exact List.prefix_append _ _

theorem head_printed {ns : List Path} {out : List Event}
    (h : Runs (revealDir t.files o) (ns.flatMap (entryItems t.files o.is_recursive c)) out) :
    ∀ e ∈ (printed out).head?, ∃ n ∈ ns, ∃ b, e = .stdout (line c.pre n b) := by
  intro e he
  cases ns with
  | nil =>
      cases h
      cases he
  | cons n ns =>
      rw [List.flatMap_cons] at h
      obtain ⟨out₁, out₂, rfl, hfirst, -⟩ := runs_append.mp h
      obtain ⟨rest, rfl, -⟩ := runs_entryItems.mp hfirst
      cases he
      exact ⟨n, List.mem_cons_self, _, rfl⟩

theorem head_contents {inside : List Path → Dir → List Entry} {ns : List Path} :
    ∀ e ∈ (lines (ns.flatMap (t.entryContents inside dirs d))).head?,
      ∃ n ∈ ns, ∃ b, e = .stdout (line (prefixOf dirs) n b) := by
  intro e he
  cases ns with
  | nil => cases he
  | cons n ns =>
      cases he
      exact ⟨n, List.mem_cons_self, _, rfl⟩

theorem lines_entryContents (inside : List Path → Dir → List Entry) :
    lines (t.entryContents inside dirs d name) =
      .stdout (line (prefixOf dirs) name (t.step d name).isSome) ::
        lines (t.subdirContents inside dirs d name) := rfl

/-- With a prefix that does not fit, and hidden names, the first line is wrong. -/
theorem cut_prefix_ne {e : Dir} (hlevels : 0 < levels)
    (hlen : bufferSize ≤ (prefixOf (dirs ++ [name])).length) {rest rest' : List Event} :
    .stdout (line (fitted (prefixOf (dirs ++ [name]))) dot true) :: rest ≠
      lines (t.contents true levels (dirs ++ [name]) e) ++ rest' := by
  intro heq
  obtain ⟨levels, rfl⟩ : ∃ k, levels = k + 1 := Nat.exists_eq_succ_of_ne_zero (by omega)
  obtain ⟨n, ns, hns⟩ : ∃ n ns, t.names true e = n :: ns := by
    apply List.exists_cons_of_ne_nil
    intro hnil
    have hcount := length_names_true (t := t) e
    rw [hnil, List.length_nil] at hcount
    omega
  rw [contents, hns, List.flatMap_cons, lines, List.map_append, ← lines, lines_entryContents] at heq
  have hline := Event.stdout.inj (List.cons.inj heq).1
  refine line_fitted_ne hlen ?_ (names_ne_nil (hns ▸ List.mem_cons_self)) hline
  rw [prefixOf_concat, ← List.append_assoc, List.getLast?_concat]

theorem inside_under (hrec : o.is_recursive = true) (hlevels : 0 < levels) {e : Dir}
    (hin : t.Entered o (callOf target dirs) name) {inside rest rest' : List Event}
    (hruns : Runs (revealDir t.files o)
      (revealDir t.files o ((callOf target dirs).enter name)) inside)
    (h : printed inside ++ rest =
      lines (t.contents o.show_hidden levels (dirs ++ [name]) e) ++ rest') :
    ∀ event ∈ printed inside, event.under (prefixOf (dirs ++ [name])) = true := by
  have hpre : ((callOf target dirs).enter name).pre = fitted (prefixOf (dirs ++ [name])) := by
    rw [prefixOf_concat]
    rfl
  by_cases hlen : (prefixOf (dirs ++ [name])).length < bufferSize
  · apply printed_under hlen hin.2.1 _ hruns
    exact (hpre.trans (fitted_of_lt hlen)) ▸ List.prefix_refl _
  · have hcut : bufferSize ≤ (pathOf target (dirs ++ [name])).length := by
      rw [length_pathOf]
      omega
    obtain ⟨e', he'⟩ := Option.isSome_iff_exists.mp hin.2.1
    obtain ⟨hbare, hout⟩ :=
      (runs_full (c := (callOf target dirs).enter name) hrec he' (length_newPath_cut hcut)).mp
        hruns
    rw [hout, printed_stored, printed_stdout, names_of_bare hbare] at h ⊢
    by_cases hhidden : o.show_hidden = true
    · rw [if_pos hhidden, hpre, hhidden] at h
      exact absurd h (cut_prefix_ne hlevels (Nat.le_of_not_lt hlen))
    · rw [if_neg hhidden]
      exact List.forall_mem_nil _

theorem entry_segment (hrec : o.is_recursive = true)
    (hname : name ∈ t.names o.show_hidden d)
    (hlevels : ∀ e, t.subdir d name = some e → 0 < levels) {out rest rest' : List Event}
    (hruns : Runs (revealDir t.files o)
      (entryItems t.files o.is_recursive (callOf target dirs) name) out)
    (hrest : ∀ e ∈ rest.head?, e.under (prefixOf (dirs ++ [name])) = false)
    (hrest' : ∀ e ∈ rest'.head?, e.under (prefixOf (dirs ++ [name])) = false)
    (h : printed out ++ rest =
      lines (t.entryContents (t.contents o.show_hidden levels) dirs d name) ++ rest') :
    printed out = lines (t.entryContents (t.contents o.show_hidden levels) dirs d name) := by
  obtain ⟨inside, rfl, hentered, hnot⟩ := runs_entryItems.mp hruns
  rw [lines_entryContents] at h ⊢
  have hline := (List.cons.inj h).1
  have htail : printed inside ++ rest =
      lines (t.subdirContents (t.contents o.show_hidden levels) dirs d name) ++ rest' :=
    (List.cons.inj h).2
  have hdir := line_inj (Event.stdout.inj hline)
  refine congrArg₂ List.cons hline ?_
  by_cases hin : t.Entered o (callOf target dirs) name
  · have hstep := step_of_ne (t := t) (d := d) (names_ne_nil hname) hin.2.2.1 hin.2.2.2
    have hsome : (t.subdir d name).isSome = true := by rw [← hstep, ← hdir, hin.2.1]
    obtain ⟨e, he⟩ := Option.isSome_iff_exists.mp hsome
    rw [subdirContents_some he] at htail ⊢
    exact append_inj_of_all (inside_under hrec (hlevels e he) hin (hentered hin) htail)
      contents_under hrest hrest' htail
  · rw [hnot hin]
    cases he : t.subdir d name with
    | none =>
        rw [subdirContents_none he]
        rfl
    | some e =>
        have hreal := ne_dots_of_subdir he
        have hstep := step_of_ne (t := t) (d := d) (names_ne_nil hname) hreal.1 hreal.2
        refine absurd ⟨hrec, ?_, hreal⟩ hin
        rw [hdir, hstep, he]
        rfl

theorem segments (hrec : o.is_recursive = true)
    (hlevels : ∀ name e, t.subdir d name = some e → 0 < levels) {ns : List Path}
    (hns : ∀ n ∈ ns, n ∈ t.names o.show_hidden d) (hnodup : ns.Nodup) {out : List Event}
    (hruns : Runs (revealDir t.files o)
      (ns.flatMap (entryItems t.files o.is_recursive (callOf target dirs))) out)
    (hshows : Shows out
      (ns.flatMap (t.entryContents (t.contents o.show_hidden levels) dirs d))) :
    ∀ n ∈ ns, ∃ out, Runs (revealDir t.files o)
        (entryItems t.files o.is_recursive (callOf target dirs) n) out ∧
      Shows out (t.entryContents (t.contents o.show_hidden levels) dirs d n) := by
  induction ns generalizing out with
  | nil => exact List.forall_mem_nil _
  | cons n ns ih =>
      obtain ⟨hnew, hnodup⟩ := List.nodup_cons.mp hnodup
      obtain ⟨hn, hns⟩ := List.forall_mem_cons.mp hns
      rw [List.flatMap_cons] at hruns hshows
      obtain ⟨out₁, out₂, rfl, hfirst, hlater⟩ := runs_append.mp hruns
      obtain ⟨hinTable₁, hinTable₂⟩ := inTable_append.mp hshows.inTable
      have hprinted := hshows.printed_eq
      rw [printed_append, lines, List.map_append, ← lines, ← lines] at hprinted
      have hother : ∀ e : Event, (∃ m ∈ ns, ∃ b, e = .stdout (line (prefixOf dirs) m b)) →
          e.under (prefixOf (dirs ++ [n])) = false := by
        rintro e ⟨m, hm, b, rfl⟩
        rw [prefixOf_concat]
        exact not_under_line (names_no_slash hn) (names_no_slash (hns m hm))
          fun heq => hnew (heq ▸ hm)
      have hsegment := entry_segment hrec hn (hlevels n) hfirst
        (fun e he => hother e (head_printed hlater e he))
        (fun e he => hother e (head_contents e he)) hprinted
      rw [hsegment] at hprinted
      exact List.forall_mem_cons.mpr ⟨⟨out₁, hfirst, hinTable₁, hsegment⟩,
        ih hns hnodup hlater ⟨hinTable₂, List.append_cancel_left hprinted⟩⟩

theorem entry_inside {e : Dir} (hrec : o.is_recursive = true)
    (hopen : t.openDir (callOf target dirs).path = some d)
    (hname : name ∈ t.names o.show_hidden d) (he : t.subdir d name = some e)
    (hlen : (pathOf target (dirs ++ [name])).length < bufferSize) {out : List Event}
    (hruns : Runs (revealDir t.files o)
      (entryItems t.files o.is_recursive (callOf target dirs) name) out)
    (hshows : Shows out (t.entryContents (t.contents o.show_hidden levels) dirs d name)) :
    t.openDir (callOf target (dirs ++ [name])).path = some e ∧
      ∃ inside, Runs (revealDir t.files o)
          (revealDir t.files o (callOf target (dirs ++ [name]))) inside ∧
        Shows inside (t.contents o.show_hidden levels (dirs ++ [name]) e) := by
  obtain ⟨inside, rfl, hentered, -⟩ := runs_entryItems.mp hruns
  rw [entryContents, subdirContents_some he] at hshows
  have hreal := ne_dots_of_subdir he
  have hdir : t.openDir ((callOf target dirs).newPath name) = some e := by
    rw [openDir_enter hopen hname hlen, step_of_ne (names_ne_nil hname) hreal.1 hreal.2, he]
  have hin : t.Entered o (callOf target dirs) name := ⟨hrec, by rw [hdir]; rfl, hreal⟩
  rw [← enter_callOf hlen]
  exact ⟨hdir, inside, hentered hin, hshows.of_stdout⟩

theorem length_names_le (dirs : List Path) (d : Dir) (hlevels : 0 < levels) :
    (t.names o.show_hidden d).length ≤ (t.contents o.show_hidden levels dirs d).length := by
  obtain ⟨levels, rfl⟩ : ∃ k, levels = k + 1 := Nat.exists_eq_succ_of_ne_zero (by omega)
  rw [contents]
  induction t.names o.show_hidden d with
  | nil => exact Nat.le_refl 0
  | cons n ns ih =>
      rw [List.flatMap_cons, List.length_append, List.length_cons, entryContents,
        List.length_cons]
      omega

theorem bare_of_length_le {hidden : Bool} {e e' : Dir} (he' : t.Bare hidden e')
    (h : (t.names hidden e).length ≤ (t.names hidden e').length) : t.Bare hidden e := by
  rw [names_of_bare he'] at h
  cases hidden with
  | false => exact bare_false_iff.mpr (List.length_eq_zero_iff.mp (Nat.le_zero.mp h))
  | true =>
      rw [length_names_true] at h
      exact bare_true_iff.mpr
        (List.length_eq_zero_iff.mp (Nat.le_zero.mp (Nat.le_of_add_le_add_right h)))

theorem entry_cut (hrec : o.is_recursive = true)
    (hname : name ∈ t.names o.show_hidden d) (hdot : name ≠ dot) (hdotDot : name ≠ dotDot)
    (hlevels : ∀ e, t.subdir d name = some e → 0 < levels)
    (hcut : bufferSize ≤ (pathOf target (dirs ++ [name])).length) {out : List Event}
    (hruns : Runs (revealDir t.files o)
      (entryItems t.files o.is_recursive (callOf target dirs) name) out)
    (hshows : Shows out (t.entryContents (t.contents o.show_hidden levels) dirs d name)) :
    t.CutHarmless o.show_hidden (callOf target dirs) d name := by
  obtain ⟨inside, rfl, hentered, -⟩ := runs_entryItems.mp hruns
  rw [entryContents, step_of_ne (names_ne_nil hname) hdot hdotDot] at hshows
  have hdir := line_inj (Event.stdout.inj (List.cons.inj hshows.printed_eq).1)
  unfold CutHarmless
  cases he : t.subdir d name with
  | none =>
      rw [he] at hdir
      rw [Option.isNone_iff_eq_none.mp (Option.isSome_eq_false_iff.mp hdir)]
      trivial
  | some e =>
      rw [he] at hdir
      obtain ⟨e', he'⟩ := Option.isSome_iff_exists.mp hdir
      rw [he']
      rw [subdirContents_some he] at hshows
      have hin : t.Entered o (callOf target dirs) name := ⟨hrec, hdir, hdot, hdotDot⟩
      obtain ⟨hbare', rfl⟩ :=
        (runs_full (c := (callOf target dirs).enter name) hrec he' (length_newPath_cut hcut)).mp
          (hentered hin)
      have hinside := hshows.of_stdout
      have hprinted := hinside.printed_eq
      rw [printed_stored, printed_stdout] at hprinted
      have hcount := congrArg List.length hprinted
      rw [List.length_map, lines, List.length_map] at hcount
      have hnames := length_names_le (t := t) (o := o) (dirs ++ [name]) e (hlevels e he)
      refine ⟨bare_of_length_le hbare' (by omega), hbare',
        inTable_stored.mp (inTable_append.mp hinside.inTable).1, fun hhidden => ?_⟩
      by_contra hlong
      have hpre : (callOf target dirs).pre ++ (name ++ ['/']) = prefixOf (dirs ++ [name]) :=
        (prefixOf_concat dirs name).symm
      rw [hpre] at hlong
      rw [names_of_bare hbare', if_pos hhidden, hhidden, Call.enter, Call.newPrefix, hpre,
        ← List.append_nil (lines _)] at hprinted
      exact cut_prefix_ne (hlevels e he) (Nat.le_of_not_lt hlong) hprinted

theorem Within.isPrefix {hidden : Bool} {dirs' : List Path} {d' : Dir}
    (h : t.Within hidden dirs d dirs' d') : dirs <+: dirs' := by
  induction h with
  | here => exact List.prefix_refl _
  | enter _ _ _ ih => exact (List.prefix_append _ _).trans ih

theorem length_pathOf_le {dirs' : List Path} (h : dirs <+: dirs') :
    (pathOf target dirs).length ≤ (pathOf target dirs').length := by
  obtain ⟨rest, rfl⟩ := h
  rw [pathOf, pathOf, List.flatMap_append, ← List.append_assoc]
  exact (List.prefix_append _ _).length_le

theorem fits_of_runs (hrec : o.is_recursive = true)
    (hopen : t.openDir (callOf target dirs).path = some d) (hlevels : t.height d < levels)
    {out : List Event}
    (hruns : Runs (revealDir t.files o) (revealDir t.files o (callOf target dirs)) out)
    (hshows : Shows out (t.contents o.show_hidden levels dirs d)) :
    t.Fits o.show_hidden target dirs d := by
  induction levels generalizing dirs d out with
  | zero => exact absurd hlevels (Nat.not_lt_zero _)
  | succ levels ih =>
      obtain ⟨rest, rfl, hrest⟩ := (runs_revealDir hopen).mp hruns
      obtain ⟨hstored, hinTable⟩ := inTable_append.mp hshows.inTable
      have hprinted := hshows.printed_eq
      rw [printed_stored] at hprinted
      have hinside : ∀ name e, t.subdir d name = some e → t.height e < levels := by
        intro name e he
        have hheight := height_subdir he
        omega
      have hpos : ∀ name e, t.subdir d name = some e → 0 < levels :=
        fun name e he => Nat.zero_lt_of_lt (hinside name e he)
      have hentries := segments hrec hpos (fun _ hn => hn) (nodup_names d) hrest
        ⟨hinTable, hprinted⟩
      intro dirs' d' hwithin hlen
      cases hwithin with
      | here =>
          refine ⟨inTable_stored.mp hstored, fun name hname hdot hdotDot hcut => ?_⟩
          obtain ⟨out, hruns, hshows⟩ := hentries name hname
          exact entry_cut hrec hname hdot hdotDot (hpos name) hcut hruns hshows
      | enter hname he hbelow =>
          obtain ⟨out, hruns, hshows⟩ := hentries _ hname
          have hfits := Nat.lt_of_le_of_lt (length_pathOf_le hbelow.isPrefix) hlen
          obtain ⟨hopen', inside, hruns', hshows'⟩ :=
            entry_inside hrec hopen hname he hfits hruns hshows
          exact ih hopen' (hinside _ _ he) hruns' hshows' dirs' d' hbelow hlen

end Tree

/-- `reveal -t` ends, with the listing of the tree, exactly if each directory fits into the
table and each path into its buffer, except for paths that are cut without harm. -/
theorem reveal_exact_iff {Dir : Type} (t : Tree Dir) (args : List Path)
    (shell_home prev_dir : Path) (o : Options) (target : Path) (d : Dir)
    (hargs : parseArgs args = some o) (hrec : o.is_recursive = true)
    (htarget : targetDir o.target_dir shell_home prev_dir = some target)
    (hopen : t.openDir target = some d) :
    (∃ depth out, executeReveal t.files depth args shell_home prev_dir = ⟨out, true⟩ ∧
        Shows out (t.below o.show_hidden d)) ↔
      t.Fits o.show_hidden target [] d := by
  have hcall : callOf target [] = ⟨target, []⟩ := by
    rw [callOf, pathOf, List.flatMap_nil, List.append_nil]
    rfl
  have hopen' : t.openDir (callOf target []).path = some d := by rwa [hcall]
  simp only [executeReveal, hargs, htarget, ← hcall]
  constructor
  · rintro ⟨depth, out, hrun, hshows⟩
    exact Tree.fits_of_runs hrec hopen' (Nat.lt_succ_self _) (runs_of_run hrun) hshows
  · intro hfits
    obtain ⟨out, hruns, hshows⟩ := Tree.runs_of_fits hrec hopen' (Nat.lt_succ_self _) hfits
    obtain ⟨depth, hrun⟩ := runs_iff.mp hruns
    exact ⟨depth, out, hrun, hshows⟩

/-! ## A chain of directories -/

def chainEntry (levels d : ℕ) : Path × Option ℕ :=
  (['a'], if d < levels then some (d + 1) else none)

theorem chainEntry_subdir {levels d c : ℕ} {name : Path}
    (h : (name, some c) ∈ [chainEntry levels d]) : d < levels ∧ c = d + 1 := by
  have hsome := congrArg Prod.snd (List.mem_singleton.mp h)
  simp only [chainEntry] at hsome
  split at hsome
  · rename_i hlt
    exact ⟨hlt, Option.some.inj hsome⟩
  · cases hsome

/-- Directories named `a` in one another, `levels` of them, with a file `a` in the last. -/
def chain (levels : ℕ) : Tree ℕ where
  root := 0
  cwd := 0
  parent d := d - 1
  entries d := [chainEntry levels d]
  readdir _ := [dot, dotDot, ['a']]
  height d := levels - d
  readdir_perm _ := List.Perm.refl _
  names_nodup _ := List.nodup_singleton _
  name_ne_nil d e he := by
    rw [List.mem_singleton.mp he, chainEntry]
    exact List.cons_ne_nil _ _
  name_no_slash d e he := by
    rw [List.mem_singleton.mp he, chainEntry]
    simp
  name_ne_dot d e he := by
    rw [List.mem_singleton.mp he, chainEntry]
    simp [dot]
  name_ne_dotDot d e he := by
    rw [List.mem_singleton.mp he, chainEntry]
    simp [dotDot]
  height_lt d n c h := by
    obtain ⟨hlt, rfl⟩ := chainEntry_subdir h
    omega
  parent_entry d n c h := by
    obtain ⟨-, rfl⟩ := chainEntry_subdir h
    rfl
  parent_root := rfl

/-- `reveal -t` with a file in a directory. -/
theorem reveal_chain_fits : (chain 1).Fits false dot [] 0 :=
  (reveal_exact_iff (chain 1) ["-t".toList] [] [] ⟨false, true, dot⟩ dot 0 (by decide) rfl
    (by decide) (by decide)).mp
    ⟨2, [.stored 0, .stored 1, .stored 2, .stdout "a/\n".toList,
      .stored 0, .stored 1, .stored 2, .stdout "a/a\n".toList], by decide,
      ⟨by unfold InTable; simp [bufferSize], by decide⟩⟩

def chainPath (d : ℕ) : Path := pathOf ['.', '/'] (List.replicate d ['a'])

theorem chainPath_succ (d : ℕ) : chainPath (d + 1) = chainPath d ++ ['/', 'a'] := by
  rw [chainPath, List.replicate_succ', pathOf_concat]
  rfl

theorem length_chainPath (d : ℕ) : (chainPath d).length = 2 + 2 * d := by
  induction d with
  | zero => rfl
  | succ d ih =>
      rw [chainPath_succ, List.length_append, ih]
      simp only [List.length_cons, List.length_nil]
      omega

section

variable {levels d : ℕ} {o : Options} {c : Call}

theorem chain_step (h : d < levels) : (chain levels).step d ['a'] = some (d + 1) := by
  rw [Tree.step_of_ne (by decide) (by decide) (by decide), Tree.subdir]
  simp [chain, chainEntry, h]

theorem openDir_chainPath (hd : d ≤ levels) (hlen : 2 + 2 * d < bufferSize) :
    (chain levels).openDir (chainPath d) = some d := by
  induction d with
  | zero => rfl
  | succ d ih =>
      rw [← length_chainPath, chainPath_succ] at hlen
      rw [chainPath_succ, Tree.openDir_append (ih (by omega) _) (by decide) hlen, chain_step hd]
      rw [List.length_append, length_chainPath] at hlen
      omega

theorem name_mem_chain (hidden : Bool) (d : ℕ) : ['a'] ∈ (chain levels).names hidden d := by
  rw [Tree.mem_names]
  refine ⟨List.mem_cons_of_mem _ (List.mem_cons_of_mem _ List.mem_cons_self), ?_⟩
  cases hidden <;> rfl

theorem call_mem_chain (hrec : o.is_recursive = true) {d' : ℕ}
    (hopen : (chain levels).openDir c.path = some d)
    (hdir : (chain levels).openDir (c.newPath ['a']) = some d') :
    .call (c.enter ['a']) ∈ revealDir (chain levels).files o c := by
  rw [Tree.revealDir_files hopen]
  apply List.mem_append_right
  apply List.mem_flatMap.mpr ⟨_, name_mem_chain _ d, ?_⟩
  have hcond : o.is_recursive = true ∧ (chain levels).files.isDir (c.newPath ['a']) = true ∧
      ['a'] ≠ dot ∧ ['a'] ≠ dotDot :=
    ⟨hrec, by simp only [Tree.files, hdir, Option.isSome_some], by decide, by decide⟩
  rw [entryItems, if_pos hcond]
  exact List.mem_cons_of_mem _ List.mem_cons_self

end

/-- The calls on the way down the chain, and those with the path that is cut. -/
def OnChain (c : Call) : Prop :=
  (∃ d ≤ 2046, c.path = chainPath d) ∨ c.path = chainPath 2046 ++ ['/']

theorem openDir_chain_full :
    (chain 2046).openDir (chainPath 2046 ++ ['/']) = some 2046 := by
  have hopen : (chain 2046).openDir (chainPath 2046) = some 2046 :=
    openDir_chainPath (Nat.le_refl 2046) (by decide)
  rw [Tree.openDir_append hopen (by decide)]
  · rfl
  · rw [List.length_append, length_chainPath]
    decide

/-- Each call makes another one: the last directory is listed in itself. -/
theorem onChain_calls {o : Options} (hrec : o.is_recursive = true) (c : Call) (hc : OnChain c) :
    ∃ c', OnChain c' ∧ .call c' ∈ revealDir (chain 2046).files o c := by
  rcases hc with ⟨d, hd, hpath⟩ | hpath
  · have hopen : (chain 2046).openDir c.path = some d := by
      rw [hpath, openDir_chainPath hd]
      exact Nat.lt_of_le_of_lt (by omega) (show 2 + 2 * 2046 < bufferSize by decide)
    by_cases hlast : d = 2046
    · have hnew : c.newPath ['a'] = chainPath 2046 ++ ['/'] := by
        rw [Call.newPath, hpath, hlast, fitted, List.take_append, List.take_of_length_le,
          length_chainPath]
        · rfl
        · rw [length_chainPath]
          decide
      exact ⟨c.enter ['a'], .inr hnew,
        call_mem_chain hrec hopen (hnew ▸ openDir_chain_full)⟩
    · have hnew : c.newPath ['a'] = chainPath (d + 1) := by
        rw [Call.newPath, hpath, chainPath_succ, fitted_of_lt]
        rw [List.length_append, length_chainPath]
        simp only [bufferSize, List.length_cons, List.length_nil]
        omega
      have hopen' : (chain 2046).openDir (c.newPath ['a']) = some (d + 1) := by
        rw [hnew, openDir_chainPath (by omega)]
        simp only [bufferSize]
        omega
      exact ⟨c.enter ['a'], .inl ⟨d + 1, by omega, hnew⟩, call_mem_chain hrec hopen hopen'⟩
  · have hopen : (chain 2046).openDir c.path = some 2046 := by
      rw [hpath, openDir_chain_full]
    have hfull : c.path.length + 1 = bufferSize := by
      rw [hpath, List.length_append, length_chainPath]
      rfl
    have hnew := Tree.newPath_full hfull ['a']
    exact ⟨c.enter ['a'], .inr (hnew.trans hpath), call_mem_chain hrec hopen (hnew ▸ hopen)⟩

/-- `reveal -t ./` in a tree where no path has more than 4094 bytes does not end. -/
theorem reveal_does_not_end :
    ¬∃ depth, (executeReveal (chain 2046).files depth ["-t".toList, "./".toList] [] []).ended =
      true := by
  rintro ⟨depth, hended⟩
  have hrun : executeReveal (chain 2046).files depth ["-t".toList, "./".toList] [] [] =
      run (revealDir (chain 2046).files ⟨false, true, "./".toList⟩) depth ⟨"./".toList, []⟩ := rfl
  rw [hrun] at hended
  exact not_runs_of_calls (onChain_calls rfl) (.inl ⟨0, Nat.zero_le _, rfl⟩) _
    (runs_of_ended hended)

end ShellXv6.Shell.Reveal
