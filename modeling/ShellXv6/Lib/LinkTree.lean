import Mathlib.Algebra.BigOperators.Group.Finset.Basic
import Mathlib.Algebra.Order.BigOperators.Group.Finset
import Mathlib.Data.Finset.Card
import Mathlib.Data.Fintype.BigOperators
import Mathlib.Data.Multiset.Count

/-!
# Trees of names with counted links

Directories hold names for nodes, and every node counts its links.  A leaf may have several
names; a directory has one, and in addition it counts the directories in it, which refer to
it as their parent.  A directory whose count is zero has been removed and names nothing.
-/

namespace ShellXv6.LinkTree

inductive Kind
  | free
  | leaf
  | dir
  deriving DecidableEq

structure LinkGraph (ι ν : Type*) where
  kind : ι → Kind
  nlink : ι → ℕ
  names : ι → Multiset (ν × ι)
  parent : ι → ι

variable {ι ν : Type*}

def LinkGraph.Live (g : LinkGraph ι ν) (d : ι) : Prop := g.kind d = .dir ∧ 0 < g.nlink d

instance (g : LinkGraph ι ν) (d : ι) : Decidable (g.Live d) :=
  inferInstanceAs (Decidable (g.kind d = .dir ∧ 0 < g.nlink d))

theorem LinkGraph.Live.ne (g : LinkGraph ι ν) {d i : ι} (hd : g.Live d) (hi : ¬g.Live i) :
    d ≠ i := by
  rintro rfl
  exact hi hd

/-- Where names lead, one after the other.  In every directory `self` stands for the directory
and `up` for its parent. -/
def LinkGraph.Walk [DecidableEq ν] (g : LinkGraph ι ν) (self up : ν) : ι → List ν → ι → Prop
  | d, [], j => d = j
  | d, a :: as, j => g.Live d ∧
      if a = self then g.Walk self up d as j
      else if a = up then g.Walk self up (g.parent d) as j
      else ∃ i, (a, i) ∈ g.names d ∧ g.Walk self up i as j

section

variable [DecidableEq ι]

/-- The names that one directory has for a node. -/
def LinkGraph.share (g : LinkGraph ι ν) (d i : ι) : ℕ :=
  if g.Live d then (g.names d).countP fun x => x.2 = i else 0

theorem share_pos {g : LinkGraph ι ν} {d i : ι} {a : ν} (hd : g.Live d) (ha : (a, i) ∈ g.names d) :
    0 < g.share d i := by
  rw [LinkGraph.share, if_pos hd, Multiset.countP_pos]
  exact ⟨(a, i), ha, rfl⟩

/-- What is not live or has no names has no share in any node. -/
theorem share_eq_zero {g : LinkGraph ι ν} {d : ι} (h : g.Live d → g.names d = 0) (i : ι) :
    g.share d i = 0 := by
  unfold LinkGraph.share
  split
  · next hd => rw [h hd, Multiset.countP_zero]
  · rfl

theorem share_cons {g : LinkGraph ι ν} {d i : ι} {a : ν} (hd : g.Live d) {rest : Multiset (ν × ι)}
    (hnames : g.names d = (a, i) ::ₘ rest) (j : ι) :
    g.share d j = (rest.countP fun x => x.2 = j) + if i = j then 1 else 0 := by
  rw [LinkGraph.share, if_pos hd, hnames, Multiset.countP_cons]

/-! ## Operations -/

namespace LinkGraph

/-- A node that nobody names changes its kind. -/
def rekind (g : LinkGraph ι ν) (i : ι) (k : Kind) : LinkGraph ι ν where
  kind := Function.update g.kind i k
  nlink := Function.update g.nlink i 0
  names := Function.update g.names i 0
  parent := Function.update g.parent i i

/-- A leaf gets one more name. -/
def link (g : LinkGraph ι ν) (d : ι) (a : ν) (i : ι) : LinkGraph ι ν :=
  { g with
    nlink := Function.update g.nlink i (g.nlink i + 1)
    names := Function.update g.names d ((a, i) ::ₘ g.names d) }

/-- A leaf loses a name; `rest` are the names that `d` keeps. -/
def unlink (g : LinkGraph ι ν) (d : ι) (rest : Multiset (ν × ι)) (i : ι) : LinkGraph ι ν :=
  { g with
    nlink := Function.update g.nlink i (g.nlink i - 1)
    names := Function.update g.names d rest }

/-- An empty directory gets its name. -/
def attach (g : LinkGraph ι ν) (d : ι) (a : ν) (i : ι) : LinkGraph ι ν :=
  { g with
    nlink := Function.update (Function.update g.nlink d (g.nlink d + 1)) i 1
    names := Function.update g.names d ((a, i) ::ₘ g.names d)
    parent := Function.update g.parent i d }

/-- An empty directory loses its name. -/
def detach (g : LinkGraph ι ν) (d : ι) (rest : Multiset (ν × ι)) (i : ι) : LinkGraph ι ν :=
  { g with
    nlink := Function.update (Function.update g.nlink d (g.nlink d - 1)) i (g.nlink i - 1)
    names := Function.update g.names d rest }

end LinkGraph

variable {g : LinkGraph ι ν} {root d i : ι} {a : ν} {rest : Multiset (ν × ι)}

theorem names_attach : (g.attach d a i).names d = (a, i) ::ₘ g.names d := Function.update_self ..

theorem names_detach : (g.detach d rest i).names d = rest := Function.update_self ..

theorem live_rekind {k : Kind} {e : ι} (hdead : ¬g.Live i) :
    (g.rekind i k).Live e ↔ g.Live e := by
  by_cases hei : e = i
  · subst hei
    simp [LinkGraph.Live, LinkGraph.rekind] at hdead ⊢
    exact hdead
  · simp [LinkGraph.Live, LinkGraph.rekind, hei]

theorem nlink_attach (hdi : d ≠ i) : (g.attach d a i).nlink d = g.nlink d + 1 :=
  (Function.update_of_ne hdi _ _).trans (Function.update_self ..)

theorem nlink_attach_of_ne {e : ι} (hei : e ≠ i) (hed : e ≠ d) :
    (g.attach d a i).nlink e = g.nlink e :=
  (Function.update_of_ne hei _ _).trans (Function.update_of_ne hed _ _)

theorem live_attach (hd : g.Live d) (hi : g.kind i = .dir) (e : ι) :
    (g.attach d a i).Live e ↔ g.Live e ∨ e = i := by
  by_cases hei : e = i
  · subst hei
    simp [LinkGraph.Live, LinkGraph.attach, hi]
  · by_cases hed : e = d
    · subst hed
      simp [LinkGraph.Live, LinkGraph.attach, hei, hd.1, hd.2]
    · simp [LinkGraph.Live, LinkGraph.attach, hei, hed]

theorem nlink_detach (hdi : d ≠ i) : (g.detach d rest i).nlink d = g.nlink d - 1 :=
  (Function.update_of_ne hdi _ _).trans (Function.update_self ..)

theorem nlink_detach_of_ne {e : ι} (hei : e ≠ i) (hed : e ≠ d) :
    (g.detach d rest i).nlink e = g.nlink e :=
  (Function.update_of_ne hei _ _).trans (Function.update_of_ne hed _ _)

/-- What is known when a directory loses its last name. -/
structure Detaches (root d i : ι) (g : LinkGraph ι ν) : Prop where
  ne : d ≠ i
  top : i ≠ root
  live : g.Live i
  parent : g.parent i = d
  one : g.nlink i = 1
  two : 2 ≤ g.nlink d

theorem nlink_detach_self (h : Detaches root d i g) : (g.detach d rest i).nlink i = 0 := by
  have hself : (g.detach d rest i).nlink i = g.nlink i - 1 := Function.update_self ..
  rw [hself, h.one]

theorem live_detach (h : Detaches root d i g) (hd : g.Live d) (e : ι) :
    (g.detach d rest i).Live e ↔ g.Live e ∧ e ≠ i := by
  have hkind : (g.detach d rest i).kind = g.kind := rfl
  unfold LinkGraph.Live
  rw [hkind]
  by_cases hei : e = i
  · subst hei
    simp [nlink_detach_self h]
  · by_cases hed : e = d
    · subst hed
      have := h.two
      rw [nlink_detach h.ne]
      simp only [hd.1, ne_eq, hei, not_false_eq_true, and_true, true_and]
      omega
    · rw [nlink_detach_of_ne hei hed]
      simp [hei]

theorem share_detach (h : Detaches root d i g) (hd : g.Live d)
    (hnames : g.names d = (a, i) ::ₘ rest) (j : ι) :
    g.share d j = (g.detach d rest i).share d j + if i = j then 1 else 0 := by
  have hd' : (g.detach d rest i).Live d := (live_detach h hd d).mpr ⟨hd, h.ne⟩
  rw [share_cons hd hnames, LinkGraph.share, if_pos hd', names_detach]

end

variable [Fintype ι] [DecidableEq ι]

/-! ## Trees -/

def LinkGraph.count (g : LinkGraph ι ν) (i : ι) : ℕ := ∑ d, g.share d i

def LinkGraph.children (g : LinkGraph ι ν) (root d : ι) : Finset ι :=
  {c | g.Live c ∧ c ≠ root ∧ g.parent c = d}

structure IsTree (root : ι) (g : LinkGraph ι ν) : Prop where
  top : g.Live root
  named : ∀ d a i, g.Live d → (a, i) ∈ g.names d → g.kind i ≠ .free ∧
    (g.kind i = .dir → i ≠ root ∧ g.Live i ∧ g.parent i = d)
  unique : ∀ d, g.Live d → ((g.names d).map Prod.fst).Nodup
  leaf : ∀ i, g.kind i = .leaf → g.nlink i = g.count i
  dir : ∀ d, g.Live d → g.nlink d = 1 + (g.children root d).card
  once : ∀ d, g.Live d → d ≠ root → g.count d = 1
  dead : ∀ d, g.kind d = .dir → g.nlink d = 0 → g.names d = 0
  rooted : ∃ depth : ι → ℕ, ∀ d, g.Live d → d ≠ root → depth (g.parent d) < depth d

variable {g g' : LinkGraph ι ν} {root d i j : ι} {a : ν}

/-- What is counted has a name. -/
theorem exists_name (h : g.count i ≠ 0) : ∃ d a, g.Live d ∧ (a, i) ∈ g.names d := by
  obtain ⟨d, -, hshare⟩ := Finset.exists_ne_zero_of_sum_ne_zero h
  unfold LinkGraph.share at hshare
  split at hshare
  · next hlive =>
    obtain ⟨⟨a, j⟩, hmem, hj⟩ := Multiset.countP_pos.mp (Nat.pos_of_ne_zero hshare)
    obtain rfl : j = i := hj
    exact ⟨d, a, hlive, hmem⟩
  · exact absurd rfl hshare

/-- Only one directory changes what it names. -/
theorem count_add_share (h : ∀ e, e ≠ d → g'.share e j = g.share e j) :
    g'.count j + g.share d j = g.count j + g'.share d j := by
  unfold LinkGraph.count
  have hrest : ∑ e ∈ Finset.univ.erase d, g'.share e j = ∑ e ∈ Finset.univ.erase d, g.share e j :=
    Finset.sum_congr rfl fun e he => h e (Finset.ne_of_mem_erase he)
  have hnew := Finset.add_sum_erase Finset.univ (fun e => g'.share e j) (Finset.mem_univ d)
  have hold := Finset.add_sum_erase Finset.univ (fun e => g.share e j) (Finset.mem_univ d)
  omega

theorem count_congr (h : ∀ e, g'.share e j = g.share e j) : g'.count j = g.count j :=
  Finset.sum_congr rfl fun e _ => h e

theorem mem_children {c : ι} : c ∈ g.children root d ↔ g.Live c ∧ c ≠ root ∧ g.parent c = d := by
  simp [LinkGraph.children]

theorem share_le_count : g.share d i ≤ g.count i := by
  apply Finset.single_le_sum (f := fun d => g.share d i) (fun _ _ => Nat.zero_le _)
  exact Finset.mem_univ d

theorem isTree_root (hroot : g.Live root) (hfree : ∀ i, i ≠ root → g.kind i = .free)
    (hnames : g.names root = 0) (hlink : g.nlink root = 1) : IsTree root g := by
  have honly : ∀ i, g.kind i ≠ .free → i = root := fun i hi => by_contra fun hne => hi (hfree i hne)
  have hlive : ∀ d, g.Live d → d = root := fun d hd => honly d (by rw [hd.1]; decide)
  refine ⟨hroot, fun d a i hd hmem => ?_, fun d hd => ?_, fun i hi => ?_, fun d hd => ?_,
    fun d hd hne => absurd (hlive d hd) hne, fun d hd _ => ?_,
    ⟨fun _ => 0, fun d hd hne => absurd (hlive d hd) hne⟩⟩
  · rw [hlive d hd, hnames] at hmem
    exact absurd hmem (Multiset.notMem_zero _)
  · rw [hlive d hd, hnames]
    exact Multiset.nodup_zero
  · obtain rfl := honly i (by rw [hi]; decide)
    rw [hroot.1] at hi
    cases hi
  · have hnone : g.children root d = ∅ := Finset.eq_empty_of_forall_notMem fun c hc =>
      (mem_children.mp hc).2.1 (hlive c (mem_children.mp hc).1)
    rw [hnone, hlive d hd, hlink, Finset.card_empty]
  · rw [honly d (by rw [hd]; decide), hnames]

namespace IsTree

theorem nlink_pos (h : IsTree root g) (hd : g.Live d) (ha : (a, i) ∈ g.names d) :
    0 < g.nlink i := by
  obtain ⟨hfree, hdir⟩ := h.named d a i hd ha
  cases hk : g.kind i with
  | free => exact absurd hk hfree
  | dir => exact (hdir hk).2.1.2
  | leaf =>
      rw [h.leaf i hk]
      exact Nat.lt_of_lt_of_le (share_pos hd ha) share_le_count

/-- A node that is not in use has no name, nor has a directory that was removed. -/
theorem share_unnamed (h : IsTree root g) (hi : g.kind i = .leaf → g.nlink i = 0)
    (hlive : ¬g.Live i) (e : ι) : g.share e i = 0 := by
  unfold LinkGraph.share
  split
  · next he =>
    rw [Multiset.countP_eq_zero]
    rintro ⟨b, k⟩ hmem rfl
    obtain ⟨hfree, hdir⟩ := h.named e b _ he hmem
    have hpos := h.nlink_pos he hmem
    cases hk : g.kind k with
    | free => exact hfree hk
    | dir => exact hlive (hdir hk).2.1
    | leaf => exact Nat.ne_of_gt hpos (hi hk)
  · rfl

theorem eq_of_named (h : IsTree root g) (hd : g.Live d) (hi : (a, i) ∈ g.names d)
    (hj : (a, j) ∈ g.names d) : i = j :=
  congrArg Prod.snd (Multiset.inj_on_of_nodup_map (h.unique d hd) _ hi _ hj rfl)

theorem parent_live (h : IsTree root g) (hd : g.Live d) (hroot : d ≠ root) :
    g.Live (g.parent d) ∧ ∃ b, (b, d) ∈ g.names (g.parent d) := by
  have hcount := h.once d hd hroot
  obtain ⟨e, b, hlive, hmem⟩ := exists_name (g := g) (i := d) (by omega)
  obtain ⟨-, -, hparent⟩ := (h.named e b d hlive hmem).2 hd.1
  rw [hparent]
  exact ⟨hlive, b, hmem⟩

theorem root_or_named (h : IsTree root g) (hkind : g.kind i ≠ .free) (hlink : 0 < g.nlink i) :
    i = root ∨ ∃ d a, g.Live d ∧ (a, i) ∈ g.names d := by
  by_cases hroot : i = root
  · exact .inl hroot
  · refine .inr (exists_name ?_)
    cases hk : g.kind i with
    | free => exact absurd hk hkind
    | leaf =>
        rw [← h.leaf i hk]
        exact Nat.ne_of_gt hlink
    | dir =>
        rw [h.once i ⟨hk, hlink⟩ hroot]
        exact Nat.one_ne_zero

theorem children_of_empty (h : IsTree root g) (hi : g.names i = 0) :
    g.children root i = ∅ := by
  refine Finset.eq_empty_of_forall_notMem fun c hc => ?_
  obtain ⟨hlive, hroot, hparent⟩ := mem_children.mp hc
  obtain ⟨-, b, hb⟩ := h.parent_live hlive hroot
  rw [hparent, hi] at hb
  exact Multiset.notMem_zero _ hb

theorem ne_of_named (h : IsTree root g) (hd : g.Live d) (ha : (a, i) ∈ g.names d) : i ≠ d := by
  rintro rfl
  obtain ⟨hroot, hlive, hparent⟩ := (h.named i a i hd ha).2 hd.1
  obtain ⟨depth, hdepth⟩ := h.rooted
  have hlt := hdepth i hlive hroot
  rw [hparent] at hlt
  exact Nat.lt_irrefl _ hlt

theorem nlink_le (h : IsTree root g) (hd : g.Live d) : g.nlink d ≤ Fintype.card ι := by
  have hsub : g.children root d ⊆ Finset.univ.erase root := fun c hc =>
    Finset.mem_erase.mpr ⟨(mem_children.mp hc).2.1, Finset.mem_univ c⟩
  have hcard := Finset.card_le_card hsub
  rw [Finset.card_erase_of_mem (Finset.mem_univ root), Finset.card_univ] at hcard
  have hpos : 0 < Fintype.card ι := Fintype.card_pos_iff.mpr ⟨root⟩
  rw [h.dir d hd]
  omega

theorem children_congr {e : ι} (hlive : ∀ c, g'.Live c ↔ g.Live c)
    (hparent : ∀ c, g.Live c → g'.parent c = g.parent c) :
    g'.children root e = g.children root e := by
  ext c
  rw [mem_children, mem_children, hlive]
  exact and_congr_right fun hc => by rw [hparent c hc]

theorem rekind (h : IsTree root g) (k : Kind) (hi : g.kind i = .leaf → g.nlink i = 0)
    (hdead : ¬g.Live i) : IsTree root (g.rekind i k) := by
  have hlive : ∀ e, (g.rekind i k).Live e ↔ g.Live e := fun e => live_rekind hdead
  have hnames : ∀ e, g.Live e → (g.rekind i k).names e = g.names e := fun e he =>
    Function.update_of_ne (he.ne g hdead) _ _
  have hparent : ∀ e, g.Live e → (g.rekind i k).parent e = g.parent e := fun e he =>
    Function.update_of_ne (he.ne g hdead) _ _
  have hshare : ∀ e j, (g.rekind i k).share e j = g.share e j := by
    intro e j
    by_cases he : g.Live e
    · rw [LinkGraph.share, LinkGraph.share, if_pos he, if_pos ((hlive e).mpr he), hnames e he]
    · rw [LinkGraph.share, LinkGraph.share, if_neg he, if_neg (fun he' => he ((hlive e).mp he'))]
  have hcount : ∀ j, (g.rekind i k).count j = g.count j := fun j => count_congr fun e => hshare e j
  have hunnamed : ∀ e b j, g.Live e → (b, j) ∈ g.names e → j ≠ i := by
    rintro e b j he hmem rfl
    have := share_pos he hmem
    rw [h.share_unnamed hi hdead e] at this
    exact Nat.lt_irrefl 0 this
  refine ⟨(hlive root).mpr h.top, ?_, ?_, ?_, ?_, ?_, ?_, ?_⟩
  · intro e b j he hmem
    rw [hlive] at he
    rw [hnames e he] at hmem
    have hji := hunnamed e b j he hmem
    have hkind : (g.rekind i k).kind j = g.kind j := Function.update_of_ne hji _ _
    rw [hkind, hlive]
    obtain ⟨hfree, hdir⟩ := h.named e b j he hmem
    refine ⟨hfree, fun hj => ?_⟩
    obtain ⟨hroot, hj, hpar⟩ := hdir hj
    exact ⟨hroot, hj, (hparent j hj).trans hpar⟩
  · intro e he
    rw [hlive] at he
    rw [hnames e he]
    exact h.unique e he
  · intro j hj
    rw [hcount]
    by_cases hji : j = i
    · subst hji
      have hzero : g.count j = 0 := Finset.sum_eq_zero fun e _ => h.share_unnamed hi hdead e
      rw [hzero]
      exact Function.update_self ..
    · have hkind : g.kind j = .leaf := (Function.update_of_ne hji _ _).symm.trans hj
      exact (Function.update_of_ne hji _ _).trans (h.leaf j hkind)
  · intro e he
    rw [hlive] at he
    rw [children_congr hlive hparent]
    exact (Function.update_of_ne (he.ne g hdead) _ _).trans (h.dir e he)
  · intro e he hroot
    rw [hlive] at he
    rw [hcount]
    exact h.once e he hroot
  · intro e hk hz
    by_cases hei : e = i
    · subst hei
      exact Function.update_self ..
    · have hkind : g.kind e = .dir := (Function.update_of_ne hei _ _).symm.trans hk
      have hnlink : g.nlink e = 0 := (Function.update_of_ne hei _ _).symm.trans hz
      exact (Function.update_of_ne hei _ _).trans (h.dead e hkind hnlink)
  · obtain ⟨depth, hdepth⟩ := h.rooted
    refine ⟨depth, fun e hnew hroot => ?_⟩
    have he := (hlive e).mp hnew
    rw [hparent e he]
    exact hdepth e he hroot

/-- One directory changes its names for one leaf, which counts them. -/
theorem leafNames (h : IsTree root g) (hd : g.Live d) (hi : g.kind i = .leaf)
    (hkind : g'.kind = g.kind) (hparent : g'.parent = g.parent)
    (hnlink : ∀ e, e ≠ i → g'.nlink e = g.nlink e) (hnames : ∀ e, e ≠ d → g'.names e = g.names e)
    (hmem : ∀ b j, (b, j) ∈ g'.names d → (b, j) ∈ g.names d ∨ j = i)
    (hunique : ((g'.names d).map Prod.fst).Nodup)
    (hother : ∀ j, j ≠ i → g'.share d j = g.share d j)
    (hself : g'.nlink i + g.share d i = g.nlink i + g'.share d i) : IsTree root g' := by
  have hne : ∀ e, g.kind e = .dir → e ≠ i := by
    rintro e he rfl
    rw [hi] at he
    cases he
  have hlive : ∀ e, g'.Live e ↔ g.Live e := by
    intro e
    unfold LinkGraph.Live
    rw [hkind]
    exact and_congr_right fun he => by rw [hnlink e (hne e he)]
  have hshare : ∀ e j, e ≠ d → g'.share e j = g.share e j := by
    intro e j hed
    simp only [LinkGraph.share, hlive, hnames e hed]
  have hcount : ∀ j, g'.count j + g.share d j = g.count j + g'.share d j := fun j =>
    count_add_share fun e he => hshare e j he
  have hcount' : ∀ j, j ≠ i → g'.count j = g.count j := by
    intro j hj
    have := hcount j
    rw [hother j hj] at this
    omega
  refine ⟨(hlive root).mpr h.top, ?_, ?_, ?_, ?_, ?_, ?_, ?_⟩
  · intro e b j he hb
    rw [hlive] at he
    rw [hkind, hlive, hparent]
    by_cases hed : e = d
    · subst hed
      rcases hmem b j hb with hold | rfl
      · exact h.named e b j he hold
      · rw [hi]
        exact ⟨by decide, fun hdir => by cases hdir⟩
    · rw [hnames e hed] at hb
      exact h.named e b j he hb
  · intro e he
    by_cases hed : e = d
    · rwa [hed]
    · rw [hnames e hed]
      exact h.unique e ((hlive e).mp he)
  · intro j hj
    rw [hkind] at hj
    have hleaf := h.leaf j hj
    by_cases hji : j = i
    · subst hji
      have := hcount j
      omega
    · rw [hnlink j hji, hcount' j hji, hleaf]
  · intro e he
    rw [hlive] at he
    rw [children_congr hlive (fun c _ => congrFun hparent c), hnlink e (hne e he.1), h.dir e he]
  · intro e he hroot
    rw [hlive] at he
    rw [hcount' e (hne e he.1), h.once e he hroot]
  · intro e hk hz
    rw [hkind] at hk
    rw [hnlink e (hne e hk)] at hz
    have hed : e ≠ d := by
      rintro rfl
      exact Nat.ne_of_gt hd.2 hz
    rw [hnames e hed, h.dead e hk hz]
  · obtain ⟨depth, hdepth⟩ := h.rooted
    refine ⟨depth, fun e he => ?_⟩
    rw [hparent]
    exact hdepth e ((hlive e).mp he)

theorem link (h : IsTree root g) (hd : g.Live d) (hi : g.kind i = .leaf)
    (ha : a ∉ (g.names d).map Prod.fst) : IsTree root (g.link d a i) := by
  have hdi : d ≠ i := by
    rintro rfl
    rw [hd.1] at hi
    cases hi
  have hd' : (g.link d a i).Live d := by
    simpa [LinkGraph.Live, LinkGraph.link, hdi] using hd
  have hnames : (g.link d a i).names d = (a, i) ::ₘ g.names d := Function.update_self ..
  have hshare : ∀ j, g.share d j = (g.names d).countP fun x => x.2 = j := fun j => if_pos hd
  refine h.leafNames hd hi rfl rfl (fun e he => Function.update_of_ne he _ _)
    (fun e he => Function.update_of_ne he _ _) ?_ ?_ ?_ ?_
  · intro b j hb
    rw [hnames, Multiset.mem_cons, Prod.mk.injEq] at hb
    exact hb.symm.imp_right And.right
  · rw [hnames, Multiset.map_cons, Multiset.nodup_cons]
    exact ⟨ha, h.unique d hd⟩
  · intro j hj
    rw [share_cons hd' hnames, if_neg (Ne.symm hj), hshare]
    rfl
  · have hself : (g.link d a i).nlink i = g.nlink i + 1 := Function.update_self ..
    rw [share_cons hd' hnames, if_pos rfl, hself, hshare]
    omega

theorem unlink (h : IsTree root g) (hd : g.Live d) (hi : g.kind i = .leaf)
    {rest : Multiset (ν × ι)} (hnames : g.names d = (a, i) ::ₘ rest) :
    IsTree root (g.unlink d rest i) := by
  have hdi : d ≠ i := by
    rintro rfl
    rw [hd.1] at hi
    cases hi
  have hd' : (g.unlink d rest i).Live d := by
    simpa [LinkGraph.Live, LinkGraph.unlink, hdi] using hd
  have hrest : (g.unlink d rest i).names d = rest := Function.update_self ..
  have hshare : ∀ j, (g.unlink d rest i).share d j = rest.countP fun x => x.2 = j := by
    intro j
    rw [LinkGraph.share, if_pos hd', hrest]
  have hpos := h.nlink_pos hd (hnames ▸ Multiset.mem_cons_self (a, i) rest)
  refine h.leafNames hd hi rfl rfl (fun e he => Function.update_of_ne he _ _)
    (fun e he => Function.update_of_ne he _ _) ?_ ?_ ?_ ?_
  · intro b j hb
    rw [hrest] at hb
    rw [hnames]
    exact .inl (Multiset.mem_cons_of_mem hb)
  · have := h.unique d hd
    rw [hnames, Multiset.map_cons, Multiset.nodup_cons] at this
    rw [hrest]
    exact this.2
  · intro j hj
    rw [share_cons hd hnames, if_neg (Ne.symm hj), hshare]
    rfl
  · have hself : (g.unlink d rest i).nlink i = g.nlink i - 1 := Function.update_self ..
    rw [share_cons hd hnames, if_pos rfl, hself, hshare]
    omega

/-! ### Attaching an empty directory -/

section Attach

theorem count_attach (h : IsTree root g) (hd : g.Live d) (hi : g.kind i = .dir)
    (hz : g.nlink i = 0) (j : ι) :
    (g.attach d a i).count j = g.count j + if i = j then 1 else 0 := by
  have hempty := h.dead i hi hz
  have hshare : ∀ e, e ≠ d → (g.attach d a i).share e j = g.share e j := by
    intro e hed
    have hother : (g.attach d a i).names e = g.names e := Function.update_of_ne hed _ _
    by_cases hei : e = i
    · subst hei
      rw [share_eq_zero (fun _ => hempty), share_eq_zero (fun _ => hother.trans hempty)]
    · simp only [LinkGraph.share, live_attach hd hi, hei, or_false, hother]
  have hshared : (g.attach d a i).share d j = g.share d j + if i = j then 1 else 0 := by
    rw [share_cons ((live_attach hd hi d).mpr (.inl hd)) names_attach, LinkGraph.share, if_pos hd]
  have := count_add_share hshare
  omega

theorem mem_children_attach (h : IsTree root g) (hd : g.Live d) (hi : g.kind i = .dir)
    (hz : g.nlink i = 0) {c e : ι} : c ∈ (g.attach d a i).children root e ↔
      c ∈ g.children root e ∨ c = i ∧ e = d := by
  have hdead : ¬g.Live i := fun hlive => Nat.ne_of_gt hlive.2 hz
  rw [mem_children, mem_children, live_attach hd hi]
  by_cases hci : c = i
  · subst hci
    have hroot := (h.top.ne g hdead).symm
    simp [LinkGraph.attach, hdead, hroot, eq_comm]
  · simp [LinkGraph.attach, hci]

theorem parent_ne_dead (h : IsTree root g) (hdead : ¬g.Live i) {c : ι} (hc : g.Live c)
    (hroot : c ≠ root) : g.parent c ≠ i :=
  (h.parent_live hc hroot).1.ne g hdead

theorem nlink_eq_attach (h : IsTree root g) (hd : g.Live d) (hi : g.kind i = .dir)
    (hz : g.nlink i = 0) {e : ι} (he : (g.attach d a i).Live e) :
    (g.attach d a i).nlink e = 1 + ((g.attach d a i).children root e).card := by
  have hdead : ¬g.Live i := fun hlive => Nat.ne_of_gt hlive.2 hz
  have hdi := hd.ne g hdead
  by_cases hei : e = i
  · subst hei
    have hnone : (g.attach d a e).children root e = ∅ := by
      refine Finset.eq_empty_of_forall_notMem fun c hc => ?_
      rcases (h.mem_children_attach hd hi hz).mp hc with hc | ⟨-, hed⟩
      · obtain ⟨hc, hroot, hpar⟩ := mem_children.mp hc
        exact h.parent_ne_dead hdead hc hroot hpar
      · exact hdi hed.symm
    rw [hnone, Finset.card_empty]
    exact Function.update_self ..
  · have hold := ((live_attach hd hi e).mp he).resolve_right hei
    by_cases hed : e = d
    · subst hed
      have hinsert : (g.attach e a i).children root e = insert i (g.children root e) := by
        ext c
        rw [h.mem_children_attach hd hi hz, Finset.mem_insert]
        simp [or_comm]
      have hnot : i ∉ g.children root e := fun hc => hdead (mem_children.mp hc).1
      rw [hinsert, Finset.card_insert_of_notMem hnot, nlink_attach hdi, h.dir e hold]
      omega
    · have hsame : (g.attach d a i).children root e = g.children root e := by
        ext c
        rw [h.mem_children_attach hd hi hz]
        simp [hed]
      rw [hsame, nlink_attach_of_ne hei hed, h.dir e hold]

theorem named_attach (h : IsTree root g) (hd : g.Live d) (hi : g.kind i = .dir)
    (hz : g.nlink i = 0) {e j : ι} {b : ν} (he : (g.attach d a i).Live e)
    (hb : (b, j) ∈ (g.attach d a i).names e) : g.kind j ≠ .free ∧ (g.kind j = .dir →
      j ≠ root ∧ (g.attach d a i).Live j ∧ (g.attach d a i).parent j = e) := by
  have hdead : ¬g.Live i := fun hlive => Nat.ne_of_gt hlive.2 hz
  have hold : (b, j) ∈ g.names e → g.Live e → g.kind j ≠ .free ∧ (g.kind j = .dir →
      j ≠ root ∧ (g.attach d a i).Live j ∧ (g.attach d a i).parent j = e) := by
    intro hb he
    obtain ⟨hfree, hdir⟩ := h.named e b j he hb
    refine ⟨hfree, fun hk => ?_⟩
    obtain ⟨hroot, hj, hpar⟩ := hdir hk
    refine ⟨hroot, (live_attach hd hi j).mpr (.inl hj), ?_⟩
    exact (Function.update_of_ne (hj.ne g hdead) _ _).trans hpar
  by_cases hed : e = d
  · subst hed
    rw [names_attach, Multiset.mem_cons, Prod.mk.injEq] at hb
    rcases hb with ⟨rfl, rfl⟩ | hb
    · refine ⟨by simp [hi], fun _ => ⟨(h.top.ne g hdead).symm, ?_, Function.update_self ..⟩⟩
      exact (live_attach hd hi j).mpr (.inr rfl)
    · exact hold hb hd
  · have hother : (g.attach d a i).names e = g.names e := Function.update_of_ne hed _ _
    rw [hother] at hb
    rcases (live_attach hd hi e).mp he with hlive | rfl
    · exact hold hb hlive
    · rw [h.dead e hi hz] at hb
      exact absurd hb (Multiset.notMem_zero _)

theorem attach (h : IsTree root g) (hd : g.Live d) (hi : g.kind i = .dir) (hz : g.nlink i = 0)
    (ha : a ∉ (g.names d).map Prod.fst) : IsTree root (g.attach d a i) := by
  have hdead : ¬g.Live i := fun hlive => Nat.ne_of_gt hlive.2 hz
  have hdi : d ≠ i := hd.ne g hdead
  have hlive := live_attach (a := a) hd hi
  have hkind : (g.attach d a i).kind = g.kind := rfl
  have hother : ∀ e, e ≠ d → (g.attach d a i).names e = g.names e := fun e he =>
    Function.update_of_ne he _ _
  refine ⟨(hlive root).mpr (.inl h.top), fun e b j => h.named_attach hd hi hz, ?_, ?_,
    fun e => h.nlink_eq_attach hd hi hz, ?_, ?_, ?_⟩
  · intro e he
    by_cases hed : e = d
    · subst hed
      rw [names_attach, Multiset.map_cons, Multiset.nodup_cons]
      exact ⟨ha, h.unique e hd⟩
    · rw [hother e hed]
      rcases (hlive e).mp he with he | rfl
      · exact h.unique e he
      · simp [h.dead e hi hz]
  · intro j hj
    rw [hkind] at hj
    have hji : j ≠ i := fun heq => by rw [heq, hi] at hj; cases hj
    have hjd : j ≠ d := fun heq => by rw [heq, hd.1] at hj; cases hj
    rw [nlink_attach_of_ne hji hjd, h.count_attach hd hi hz, if_neg (Ne.symm hji)]
    exact h.leaf j hj
  · intro e he hroot
    rw [h.count_attach hd hi hz]
    by_cases hei : e = i
    · subst hei
      have hzero : g.count e = 0 := Finset.sum_eq_zero fun c _ =>
        h.share_unnamed (fun hk => by rw [hi] at hk; cases hk) hdead c
      rw [hzero, if_pos rfl]
    · rw [if_neg (Ne.symm hei), h.once e (((hlive e).mp he).resolve_right hei) hroot]
  · intro e hk hzero
    have hpos : ¬(g.attach d a i).Live e := fun hlive => Nat.ne_of_gt hlive.2 hzero
    rw [hlive, not_or] at hpos
    have hed : e ≠ d := (hd.ne g hpos.1).symm
    rw [hother e hed]
    exact h.dead e hk ((nlink_attach_of_ne hpos.2 hed).symm.trans hzero)
  · obtain ⟨depth, hdepth⟩ := h.rooted
    refine ⟨Function.update depth i (depth d + 1), fun e he hroot => ?_⟩
    by_cases hei : e = i
    · subst hei
      have hpar : (g.attach d a e).parent e = d := Function.update_self ..
      rw [hpar, Function.update_of_ne hdi, Function.update_self]
      exact Nat.lt_succ_self _
    · have hold := ((hlive e).mp he).resolve_right hei
      have hpar : (g.attach d a i).parent e = g.parent e := Function.update_of_ne hei _ _
      rw [hpar, Function.update_of_ne (h.parent_ne_dead hdead hold hroot),
        Function.update_of_ne hei]
      exact hdepth e hold hroot

end Attach

/-! ### Detaching an empty directory -/

theorem detaches (h : IsTree root g) (hd : g.Live d) (hi : g.kind i = .dir)
    (hempty : g.names i = 0) {rest : Multiset (ν × ι)} (hnames : g.names d = (a, i) ::ₘ rest) :
    Detaches root d i g := by
  obtain ⟨-, hdir⟩ := h.named d a i hd (hnames ▸ Multiset.mem_cons_self (a, i) rest)
  obtain ⟨hroot, hlive, hparent⟩ := hdir hi
  have hdi : d ≠ i := by
    rintro rfl
    rw [hempty] at hnames
    exact Multiset.cons_ne_zero hnames.symm
  have hmem : i ∈ g.children root d := mem_children.mpr ⟨hlive, hroot, hparent⟩
  refine ⟨hdi, hroot, hlive, hparent, ?_, ?_⟩
  · rw [h.dir i hlive, h.children_of_empty hempty, Finset.card_empty]
  · have := Finset.card_pos.mpr ⟨i, hmem⟩
    rw [h.dir d hd]
    omega

section Detach

variable {rest : Multiset (ν × ι)}

theorem count_detach (h : Detaches root d i g) (hd : g.Live d) (hempty : g.names i = 0)
    (hnames : g.names d = (a, i) ::ₘ rest) (j : ι) :
    g.count j = (g.detach d rest i).count j + if i = j then 1 else 0 := by
  have hshare : ∀ e, e ≠ d → (g.detach d rest i).share e j = g.share e j := by
    intro e hed
    have hother : (g.detach d rest i).names e = g.names e := Function.update_of_ne hed _ _
    by_cases hei : e = i
    · subst hei
      rw [share_eq_zero (fun _ => hempty), share_eq_zero (fun _ => hother.trans hempty)]
    · simp only [LinkGraph.share, live_detach h hd, hei, ne_eq, not_false_eq_true, and_true, hother]
  have hsum := count_add_share hshare
  rw [share_detach h hd hnames] at hsum
  omega

/-- The directory had no other name. -/
theorem named_detach (h : IsTree root g) (hd : g.Live d) (hi : g.kind i = .dir)
    (hempty : g.names i = 0) (hnames : g.names d = (a, i) ::ₘ rest) {e j : ι} {b : ν}
    (he : g.Live e) (hb : (b, j) ∈ (g.detach d rest i).names e) :
    (b, j) ∈ g.names e ∧ j ≠ i := by
  have hdet := h.detaches hd hi hempty hnames
  have hlive : ∀ e, (g.detach d rest i).Live e ↔ g.Live e ∧ e ≠ i := live_detach hdet hd
  by_cases hed : e = d
  · subst hed
    have hcount : g.count i = 1 := h.once i hdet.live hdet.top
    have hle := share_le_count (g := g) (d := e) (i := i)
    rw [share_detach hdet hd hnames, if_pos rfl] at hle
    refine ⟨?_, ?_⟩
    · rw [names_detach] at hb
      exact hnames ▸ Multiset.mem_cons_of_mem hb
    · intro hji
      have hpos := share_pos ((hlive e).mpr ⟨hd, hdet.ne⟩) hb
      rw [hji] at hpos
      omega
  · have hother : (g.detach d rest i).names e = g.names e := Function.update_of_ne hed _ _
    rw [hother] at hb
    refine ⟨hb, fun hji => ?_⟩
    subst hji
    obtain ⟨-, -, hpar⟩ := (h.named e b j he hb).2 hi
    exact hed (hpar.symm.trans hdet.parent)

theorem children_detach (h : Detaches root d i g) (hd : g.Live d) (e : ι) :
    (g.detach d rest i).children root e = (g.children root e).erase i := by
  have hparent : (g.detach d rest i).parent = g.parent := rfl
  ext c
  rw [Finset.mem_erase, mem_children, mem_children, live_detach h hd, hparent]
  tauto

theorem detach (h : IsTree root g) (hd : g.Live d) (hi : g.kind i = .dir) (hempty : g.names i = 0)
    (hnames : g.names d = (a, i) ::ₘ rest) : IsTree root (g.detach d rest i) := by
  have hdet := h.detaches hd hi hempty hnames
  have hlive : ∀ e, (g.detach d rest i).Live e ↔ g.Live e ∧ e ≠ i := live_detach hdet hd
  have hkind : (g.detach d rest i).kind = g.kind := rfl
  have hother : ∀ e, e ≠ d → (g.detach d rest i).names e = g.names e := fun e he =>
    Function.update_of_ne he _ _
  have hcount := count_detach hdet hd hempty hnames
  refine ⟨(hlive root).mpr ⟨h.top, hdet.top.symm⟩, ?_, ?_, ?_, ?_, ?_, ?_, ?_⟩
  · intro e b j hnew hb
    obtain ⟨he, -⟩ := (hlive e).mp hnew
    obtain ⟨hold, hji⟩ := h.named_detach hd hi hempty hnames he hb
    obtain ⟨hfree, hdir⟩ := h.named e b j he hold
    refine ⟨hfree, fun hk => ?_⟩
    obtain ⟨hroot, hj, hpar⟩ := hdir hk
    exact ⟨hroot, (hlive j).mpr ⟨hj, hji⟩, hpar⟩
  · intro e hnew
    have hnodup := h.unique e ((hlive e).mp hnew).1
    by_cases hed : e = d
    · subst hed
      rw [hnames, Multiset.map_cons, Multiset.nodup_cons] at hnodup
      rw [names_detach]
      exact hnodup.2
    · rwa [hother e hed]
  · intro j hj
    rw [hkind] at hj
    have hji : j ≠ i := fun heq => by rw [heq, hi] at hj; cases hj
    have hjd : j ≠ d := fun heq => by rw [heq, hd.1] at hj; cases hj
    have hc := hcount j
    rw [if_neg (Ne.symm hji)] at hc
    rw [nlink_detach_of_ne hji hjd, h.leaf j hj]
    exact hc
  · intro e hnew
    obtain ⟨he, hei⟩ := (hlive e).mp hnew
    rw [children_detach hdet hd]
    by_cases hed : e = d
    · subst hed
      have hmem : i ∈ g.children root e := mem_children.mpr ⟨hdet.live, hdet.top, hdet.parent⟩
      have hpos := Finset.card_pos.mpr ⟨i, hmem⟩
      rw [nlink_detach hdet.ne, Finset.card_erase_of_mem hmem, h.dir e he]
      omega
    · have hnot : i ∉ g.children root e := fun hc =>
        hed ((mem_children.mp hc).2.2.symm.trans hdet.parent)
      rw [nlink_detach_of_ne hei hed, Finset.erase_eq_of_notMem hnot, h.dir e he]
  · intro e hnew hroot
    obtain ⟨he, hei⟩ := (hlive e).mp hnew
    have hc := hcount e
    rw [if_neg (Ne.symm hei), h.once e he hroot] at hc
    exact hc.symm
  · intro e hk hz
    by_cases hei : e = i
    · subst hei
      exact (hother e hdet.ne.symm).trans hempty
    · have hed : e ≠ d := by
        rintro rfl
        have := hdet.two
        rw [nlink_detach hdet.ne] at hz
        omega
      rw [hother e hed]
      exact h.dead e hk ((nlink_detach_of_ne hei hed).symm.trans hz)
  · obtain ⟨depth, hdepth⟩ := h.rooted
    exact ⟨depth, fun e hnew hroot => hdepth e ((hlive e).mp hnew).1 hroot⟩

end Detach

end IsTree

end ShellXv6.LinkTree
