import Mathlib.Data.List.Basic

/-!
# Recursive procedures

A procedure is given by its body: the events and the further calls of one call, in
their order.  `run` executes a call down to a depth of nested calls.  `Runs` says that
a call ends and which events it has; `Starts` says which calls are made, also when some
of them never end.
-/

namespace ShellXv6.Calls

variable {ε σ : Type*}

inductive Effect (ε σ : Type*) where
  | emit (e : ε)
  | call (c : σ)

structure Trace (ε : Type*) where
  events : List ε
  ended : Bool
  deriving DecidableEq

def Trace.andThen (a b : Trace ε) : Trace ε :=
  if a.ended then ⟨a.events ++ b.events, b.ended⟩ else a

def runItems (call : σ → Trace ε) : List (Effect ε σ) → Trace ε
  | [] => ⟨[], true⟩
  | .emit e :: items => ⟨e :: (runItems call items).events, (runItems call items).ended⟩
  | .call c :: items => (call c).andThen (runItems call items)

/-- A call, with `depth` nested calls at most. -/
def run (body : σ → List (Effect ε σ)) : ℕ → σ → Trace ε
  | 0, _ => ⟨[], false⟩
  | depth + 1, c => runItems (run body depth) (body c)

variable (body : σ → List (Effect ε σ))

/-- The items are executed to their end. -/
inductive Runs : List (Effect ε σ) → List ε → Prop where
  | nil : Runs [] []
  | emit {e items out} : Runs items out → Runs (.emit e :: items) (e :: out)
  | call {c items out rest} : Runs (body c) out → Runs items rest →
      Runs (.call c :: items) (out ++ rest)

/-- The call is made while the items are executed. -/
inductive Starts : List (Effect ε σ) → σ → Prop where
  | here {c items} : Starts (.call c :: items) c
  | inside {c items c'} : Starts (body c) c' → Starts (.call c :: items) c'
  | skip {e items c'} : Starts items c' → Starts (.emit e :: items) c'
  | after {c items out c'} : Runs body (body c) out → Starts items c' →
      Starts (.call c :: items) c'

variable {body}

/-! ## Calls that end -/

theorem runItems_of_runs {items : List (Effect ε σ)} {out : List ε} (h : Runs body items out) :
    ∃ n, ∀ depth, n ≤ depth → runItems (run body depth) items = ⟨out, true⟩ := by
  induction h with
  | nil => exact ⟨0, fun _ _ => rfl⟩
  | emit _ ih =>
      obtain ⟨n, hn⟩ := ih
      refine ⟨n, fun depth hdepth => ?_⟩
      rw [runItems, hn depth hdepth]
  | call _ _ ih₁ ih₂ =>
      obtain ⟨n₁, hn₁⟩ := ih₁
      obtain ⟨n₂, hn₂⟩ := ih₂
      refine ⟨max (n₁ + 1) n₂, fun depth hdepth => ?_⟩
      obtain ⟨k, rfl⟩ : ∃ k, depth = k + 1 := Nat.exists_eq_succ_of_ne_zero (by omega)
      rw [runItems, run, hn₁ k (by omega), hn₂ (k + 1) (by omega)]
      rfl

theorem runs_of_runItems {call : σ → Trace ε}
    (hcall : ∀ c out, call c = ⟨out, true⟩ → Runs body (body c) out)
    {items : List (Effect ε σ)} {out : List ε} (h : runItems call items = ⟨out, true⟩) :
    Runs body items out := by
  induction items generalizing out with
  | nil =>
      cases h
      exact .nil
  | cons item items ih =>
      cases item with
      | emit e =>
          rw [runItems] at h
          obtain ⟨rfl, hended⟩ := (Trace.mk.injEq _ _ _ _).mp h
          exact .emit (ih (by rw [← hended]))
      | call c =>
          rw [runItems, Trace.andThen] at h
          split at h
          · rename_i hfirst
            obtain ⟨rfl, hended⟩ := (Trace.mk.injEq _ _ _ _).mp h
            exact .call (hcall c _ (by rw [← hfirst])) (ih (by rw [← hended]))
          · rename_i hfirst
            rw [h] at hfirst
            exact absurd rfl hfirst

theorem runs_of_run {depth : ℕ} {c : σ} {out : List ε} (h : run body depth c = ⟨out, true⟩) :
    Runs body (body c) out := by
  induction depth generalizing c out with
  | zero => cases h
  | succ depth ih => exact runs_of_runItems (fun _ _ => ih) h

theorem runs_of_ended {depth : ℕ} {c : σ} (h : (run body depth c).ended = true) :
    Runs body (body c) (run body depth c).events :=
  runs_of_run (by rw [← h])

theorem runs_iff {c : σ} {out : List ε} :
    Runs body (body c) out ↔ ∃ depth, run body depth c = ⟨out, true⟩ := by
  constructor
  · intro h
    obtain ⟨n, hn⟩ := runItems_of_runs h
    exact ⟨n + 1, hn n (Nat.le_refl n)⟩
  · rintro ⟨depth, h⟩
    exact runs_of_run h

theorem runs_append {items rest : List (Effect ε σ)} {out : List ε} :
    Runs body (items ++ rest) out ↔
      ∃ out₁ out₂, out = out₁ ++ out₂ ∧ Runs body items out₁ ∧ Runs body rest out₂ := by
  constructor
  · intro h
    induction items generalizing out with
    | nil => exact ⟨[], out, rfl, .nil, h⟩
    | cons item items ih =>
        cases h with
        | emit h =>
            obtain ⟨out₁, out₂, rfl, h₁, h₂⟩ := ih h
            exact ⟨_ :: out₁, out₂, rfl, .emit h₁, h₂⟩
        | call hcall h =>
            obtain ⟨out₁, out₂, rfl, h₁, h₂⟩ := ih h
            exact ⟨_ ++ out₁, out₂, (List.append_assoc _ _ _).symm, .call hcall h₁, h₂⟩
  · rintro ⟨out₁, out₂, rfl, h₁, h₂⟩
    induction h₁ with
    | nil => exact h₂
    | emit _ ih => exact .emit ih
    | call hcall _ _ ih =>
        rw [List.append_assoc]
        exact .call hcall ih

theorem runs_emits {events out : List ε} :
    Runs body (events.map .emit) out ↔ out = events := by
  induction events generalizing out with
  | nil =>
      constructor
      · intro h
        cases h
        rfl
      · rintro rfl
        exact .nil
  | cons e events ih =>
      constructor
      · intro h
        cases h with
        | emit h => rw [ih.mp h]
      · rintro rfl
        exact .emit (ih.mpr rfl)

/-- Calls that always make another such call do not end. -/
theorem not_runs_of_calls {P : σ → Prop} (h : ∀ c, P c → ∃ c', P c' ∧ .call c' ∈ body c)
    {c : σ} (hc : P c) (out : List ε) : ¬Runs body (body c) out := by
  have key : ∀ {items out}, Runs body items out → ¬∃ c', P c' ∧ .call c' ∈ items := by
    intro items out hruns
    induction hruns with
    | nil =>
        rintro ⟨c', -, hmem⟩
        cases hmem
    | emit _ ih =>
        rintro ⟨c', hc', hmem⟩
        rcases List.mem_cons.mp hmem with heq | hmem
        · cases heq
        · exact ih ⟨c', hc', hmem⟩
    | call _ _ ih₁ ih₂ =>
        rintro ⟨c', hc', hmem⟩
        rcases List.mem_cons.mp hmem with heq | hmem
        · cases heq
          exact ih₁ (h _ hc')
        · exact ih₂ ⟨c', hc', hmem⟩
  exact fun hruns => key hruns (h c hc)

/-- What holds of the events of a call and of the calls that it makes holds of all events. -/
theorem Runs.forall_events {P : σ → Prop} {Q : ε → Prop}
    (hbody : ∀ c, P c → (∀ e, .emit e ∈ body c → Q e) ∧ ∀ c', .call c' ∈ body c → P c')
    {items : List (Effect ε σ)} {out : List ε} (h : Runs body items out)
    (hemit : ∀ e, .emit e ∈ items → Q e) (hcall : ∀ c, .call c ∈ items → P c) :
    ∀ e ∈ out, Q e := by
  induction h with
  | nil => exact List.forall_mem_nil _
  | emit _ ih =>
      exact List.forall_mem_cons.mpr ⟨hemit _ List.mem_cons_self,
        ih (fun e he => hemit e (List.mem_cons_of_mem _ he))
          fun c hc => hcall c (List.mem_cons_of_mem _ hc)⟩
  | call _ _ ih₁ ih₂ =>
      obtain ⟨hevents, hcalls⟩ := hbody _ (hcall _ List.mem_cons_self)
      intro e he
      rcases List.mem_append.mp he with he | he
      · exact ih₁ hevents hcalls e he
      · exact ih₂ (fun e he => hemit e (List.mem_cons_of_mem _ he))
          (fun c hc => hcall c (List.mem_cons_of_mem _ hc)) e he

/-! ## All calls -/

/-- More depth shows more events, and nothing else once the call has ended. -/
structure Trace.Le (a b : Trace ε) : Prop where
  events : a.events ⊆ b.events
  ended : a.ended = true → b = a

theorem Trace.Le.refl (a : Trace ε) : a.Le a := ⟨List.Subset.refl _, fun _ => rfl⟩

theorem events_subset_andThen (a b : Trace ε) : a.events ⊆ (a.andThen b).events := by
  unfold Trace.andThen
  split
  · exact List.subset_append_left _ _
  · exact List.Subset.refl _

theorem Trace.Le.andThen {a a' b b' : Trace ε} (h : a.Le a') (h' : b.Le b') :
    (a.andThen b).Le (a'.andThen b') := by
  cases hended : a.ended with
  | true =>
      rw [h.ended hended, Trace.andThen, Trace.andThen, if_pos hended, if_pos hended]
      exact ⟨List.append_subset.mpr ⟨List.subset_append_left _ _,
        fun e he => List.mem_append_right _ (h'.events he)⟩, fun hb => by rw [h'.ended hb]⟩
  | false =>
      rw [Trace.andThen, if_neg (by rw [hended]; exact Bool.false_ne_true)]
      refine ⟨fun e he => events_subset_andThen _ _ (h.events he), fun htrue => ?_⟩
      rw [hended] at htrue
      cases htrue

theorem runItems_le {call call' : σ → Trace ε} (h : ∀ c, (call c).Le (call' c))
    (items : List (Effect ε σ)) : (runItems call items).Le (runItems call' items) := by
  induction items with
  | nil => exact .refl _
  | cons item items ih =>
      cases item with
      | emit e =>
          exact ⟨List.cons_subset_cons e ih.events, fun hended => by
            rw [runItems, runItems, ih.ended hended]⟩
      | call c => exact (h c).andThen ih

theorem run_le_succ (depth : ℕ) (c : σ) : (run body depth c).Le (run body (depth + 1) c) := by
  induction depth generalizing c with
  | zero => exact ⟨List.nil_subset _, fun h => by cases h⟩
  | succ depth ih => exact runItems_le ih (body c)

theorem events_mono {n m : ℕ} (h : n ≤ m) (c : σ) :
    (run body n c).events ⊆ (run body m c).events := by
  induction h with
  | refl => exact List.Subset.refl _
  | step _ ih => exact fun e he => (run_le_succ _ c).events (ih he)

theorem events_of_starts {items : List (Effect ε σ)} {c : σ} (h : Starts body items c) (n : ℕ) :
    ∃ m, ∀ depth, m ≤ depth →
      (run body n c).events ⊆ (runItems (run body depth) items).events := by
  induction h with
  | here => exact ⟨n, fun depth hdepth e he => events_subset_andThen _ _ (events_mono hdepth _ he)⟩
  | inside _ ih =>
      obtain ⟨m, hm⟩ := ih
      refine ⟨m + 1, fun depth hdepth e he => events_subset_andThen _ _ ?_⟩
      obtain ⟨k, rfl⟩ : ∃ k, depth = k + 1 := Nat.exists_eq_succ_of_ne_zero (by omega)
      exact hm k (by omega) he
  | skip _ ih =>
      obtain ⟨m, hm⟩ := ih
      exact ⟨m, fun depth hdepth e he => List.mem_cons_of_mem _ (hm depth hdepth he)⟩
  | after hruns _ ih =>
      obtain ⟨m, hm⟩ := ih
      obtain ⟨k, hk⟩ := runItems_of_runs hruns
      refine ⟨max m (k + 1), fun depth hdepth e he => ?_⟩
      have hrest := hm depth (by omega) he
      obtain ⟨l, rfl⟩ : ∃ l, depth = l + 1 := Nat.exists_eq_succ_of_ne_zero (by omega)
      rw [runItems, run, hk l (by omega), Trace.andThen, if_pos rfl]
      exact List.mem_append_right _ hrest

theorem starts_of_mem_runItems {call : σ → Trace ε}
    (hcall : ∀ c out, call c = ⟨out, true⟩ → Runs body (body c) out) {e : ε}
    (hmem : ∀ c, e ∈ (call c).events →
      .emit e ∈ body c ∨ ∃ c', Starts body (body c) c' ∧ .emit e ∈ body c')
    {items : List (Effect ε σ)} (h : e ∈ (runItems call items).events) :
    .emit e ∈ items ∨ ∃ c, Starts body items c ∧ .emit e ∈ body c := by
  induction items with
  | nil => cases h
  | cons item items ih =>
      cases item with
      | emit e' =>
          rcases List.mem_cons.mp h with rfl | h
          · exact .inl List.mem_cons_self
          · exact (ih h).imp (List.mem_cons_of_mem _) (Exists.imp fun c hc => ⟨.skip hc.1, hc.2⟩)
      | call c =>
          have hinside (hin : e ∈ (call c).events) :
              ∃ c', Starts body (.call c :: items) c' ∧ .emit e ∈ body c' := by
            rcases hmem c hin with he | ⟨c', hc', he⟩
            · exact ⟨c, .here, he⟩
            · exact ⟨c', .inside hc', he⟩
          rw [runItems, Trace.andThen] at h
          split at h
          · rename_i hended
            rcases List.mem_append.mp h with hin | hrest
            · exact .inr (hinside hin)
            · have hruns := hcall c (call c).events (by rw [← hended])
              exact (ih hrest).imp (List.mem_cons_of_mem _)
                (Exists.imp fun c' hc' => ⟨.after hruns hc'.1, hc'.2⟩)
          · exact .inr (hinside h)

/-- Every event comes from a call that is made. -/
theorem starts_of_mem {depth : ℕ} {c : σ} {e : ε} (h : e ∈ (run body depth c).events) :
    .emit e ∈ body c ∨ ∃ c', Starts body (body c) c' ∧ .emit e ∈ body c' := by
  induction depth generalizing c with
  | zero => cases h
  | succ depth ih => exact starts_of_mem_runItems (fun _ _ => runs_of_run) (fun _ => ih) h

end ShellXv6.Calls
