import CosmeticFilter.Document.Fixture
import CosmeticFilter.Proofs.Document.Preorder

/-!
# Documents that are loaded

Loading appends a node, then all that is below it, and only then its next sibling. So each node is
appended to the node before it or to one that stands above that, and this alone puts the numbers of
the nodes into document order: once a sibling has been appended, nothing is ever appended below the
ones before it. In general, numbers need not follow the order of the document.

* `Built.pairwise_children`: later children have greater numbers;
* `IsPreordered`: each node is appended to the node before it or above that;
* `IsPreordered.lt_of_precedes`: then numbers are in document order;
* `IsLoading`: what holds while a document is loaded;
* `built_ofFixture`, `pairwise_descendants_ofFixture`: documents that are loaded.
-/

namespace CosmeticFilter
namespace Document

variable {d : Document} {a b m n parent : Nat}

/-! ### Children and the nodes above -/

theorem Built.pairwise_children (h : Built d) (p : Nat) : (d.children p).Pairwise (· < ·) := by
  induction h with
  | empty =>
    have hnil : Document.empty.children p = [] := by cases p <;> rfl
    rw [hnil]
    exact List.Pairwise.nil
  | @append d h parent content ih =>
    by_cases hparent : parent < d.size
    · rw [children_append hparent]
      split
      · refine List.pairwise_append.mpr ⟨ih, List.pairwise_singleton _ _, fun n hn m hm => ?_⟩
        rw [List.mem_singleton.mp hm]
        exact (child_gt hn).2
      · exact ih
    · rw [Document.append, dif_neg hparent]
      exact ih

theorem le_of_mem_selfAndAncestors (h : a ∈ d.selfAndAncestors n) : a ≤ n := by
  rcases List.mem_cons.mp h with rfl | h
  · exact Nat.le_refl a
  · exact Nat.le_of_lt (lt_of_mem_ancestors h)

theorem mem_selfAndAncestors_trans (hm : m ∈ d.selfAndAncestors n)
    (ha : a ∈ d.selfAndAncestors m) : a ∈ d.selfAndAncestors n := by
  rcases List.mem_cons.mp hm with rfl | hm
  · exact ha
  rcases List.mem_cons.mp ha with rfl | ha
  · exact List.mem_cons_of_mem _ hm
  · exact List.mem_cons_of_mem _ (mem_ancestors_trans hm ha)

/-- The way up from a node goes on with the way up from each node on it. -/
theorem eq_selfAndAncestors_of_suffix {path : List Nat} (h : m :: path <:+ d.selfAndAncestors n) :
    m :: path = d.selfAndAncestors m := by
  induction n using Nat.strongRecOn with
  | _ n ih =>
    rcases List.suffix_cons_iff.mp h with heq | h
    · obtain ⟨rfl, rfl⟩ := List.cons.inj heq
      rfl
    · cases hp : d.parent? n with
      | none =>
        rw [ancestors_eq_nil hp] at h
        exact absurd (List.suffix_nil.mp h) (List.cons_ne_nil _ _)
      | some p =>
        rw [ancestors_eq_cons hp] at h
        exact ih p (parent_lt hp) h

/-- Appending does not change what stands above the nodes that are there. -/
theorem ancestors_append (hparent : parent < d.size) (content : Content) (hn : n < d.size) :
    (d.append parent content).ancestors n = d.ancestors n := by
  induction n using Nat.strongRecOn with
  | _ n ih =>
    have hsame : (d.append parent content).parent? n = d.parent? n := by
      rw [parent?_append hparent, if_neg (Nat.ne_of_lt hn)]
    cases hp : d.parent? n with
    | none => rw [ancestors_eq_nil hp, ancestors_eq_nil (hsame.trans hp)]
    | some p =>
      have hlt := parent_lt hp
      rw [ancestors_eq_cons hp, ancestors_eq_cons (hsame.trans hp), selfAndAncestors,
        selfAndAncestors, ih p hlt (Nat.lt_trans hlt hn)]

theorem selfAndAncestors_append (hparent : parent < d.size) (content : Content) (hn : n < d.size) :
    (d.append parent content).selfAndAncestors n = d.selfAndAncestors n :=
  congrArg (n :: ·) (ancestors_append hparent content hn)

theorem selfAndAncestors_append_self (hparent : parent < d.size) (content : Content) :
    (d.append parent content).selfAndAncestors d.size = d.size :: d.selfAndAncestors parent := by
  rw [← selfAndAncestors_append hparent content hparent, selfAndAncestors,
    ancestors_eq_cons (p := parent)]
  rw [parent?_append hparent, if_pos rfl]

/-! ### Numbers in document order -/

/-- Each node has been appended to the node before it, or to one that stands above that. -/
def IsPreordered (d : Document) : Prop :=
  ∀ n p, d.parent? (n + 1) = some p → p ∈ d.selfAndAncestors n

theorem isPreordered_empty : IsPreordered empty := fun n p hp => by
  have hnone : empty.parent? (n + 1) = none := rfl
  rw [hnone] at hp
  exact absurd hp (by simp)

theorem IsPreordered.append (h : IsPreordered d)
    (hlast : parent ∈ d.selfAndAncestors (d.size - 1)) (hsize : 0 < d.size) (content : Content) :
    IsPreordered (d.append parent content) := by
  have hparent : parent < d.size := by
    have := le_of_mem_selfAndAncestors hlast
    omega
  intro n p hp
  rw [parent?_append hparent] at hp
  split at hp
  · rename_i hnew
    obtain rfl := Option.some_inj.mp hp
    rw [selfAndAncestors_append hparent content (by omega), show n = d.size - 1 by omega]
    exact hlast
  · have hn : n + 1 < d.size := by
      refine Nat.lt_of_not_le fun hle => ?_
      rw [parent?, node?_eq_none hle] at hp
      exact absurd hp (by simp)
    rw [selfAndAncestors_append hparent content (by omega)]
    exact h n p hp

/-- Once a later sibling is there, nothing is appended below a node any more. -/
theorem IsPreordered.not_mem_selfAndAncestors (h : IsPreordered d) {p x y : Nat}
    (hx : d.parent? x = some p) (hy : d.parent? y = some p) (hxy : x < y) (hn : y ≤ n) :
    x ∉ d.selfAndAncestors n := by
  induction hn with
  | refl =>
    intro hmem
    rcases List.mem_cons.mp hmem with rfl | hmem
    · exact Nat.lt_irrefl x hxy
    · rw [ancestors_eq_cons hy] at hmem
      have := parent_lt hx
      have := le_of_mem_selfAndAncestors hmem
      omega
  | @step n hle ih =>
    have hle : y ≤ n := hle
    intro hmem
    rcases List.mem_cons.mp hmem with rfl | hmem
    · omega
    · cases hq : d.parent? (n + 1) with
      | none =>
        rw [ancestors_eq_nil hq] at hmem
        exact absurd hmem List.not_mem_nil
      | some q =>
        rw [ancestors_eq_cons hq] at hmem
        exact ih (mem_selfAndAncestors_trans (h n q hq) hmem)

/-- A node that comes before another has the smaller number. -/
theorem IsPreordered.lt_of_precedes (h : IsPreordered d) (hd : Built d) (hab : d.Precedes a b) :
    a < b := by
  rcases hab with hbelow | ⟨p, x, y, hsub, hxa, hyb⟩
  · exact lt_of_mem_ancestors (isBelow_iff.mp hbelow)
  · have hxy : x < y := by
      have := (hd.pairwise_children p).sublist hsub
      exact List.rel_of_pairwise_cons this (List.mem_singleton_self y)
    have hparent : ∀ n ∈ [x, y], d.parent? n = some p := fun n hn =>
      (hd.isTree.mem_children p n).mp (hsub.subset hn)
    have hb := le_of_mem_selfAndAncestors hyb
    refine Nat.lt_of_lt_of_le (Nat.lt_of_not_le fun hle => ?_) hb
    exact h.not_mem_selfAndAncestors (hparent x (by simp)) (hparent y (by simp)) hxy hle hxa

/-! ### Loading -/

/-- What holds while a document is loaded: the next node may be appended to any node of the path,
which leads up from the last node or from one above it. -/
structure IsLoading (d : Document) (path : List Nat) : Prop where
  /-- The document has been built by appending. -/
  built : Built d
  /-- The numbers are in document order so far. -/
  preordered : IsPreordered d
  /-- There is a last node. -/
  size_pos : 0 < d.size
  /-- The path leads up from the last node or from one above it. -/
  path_suffix : path <:+ d.selfAndAncestors (d.size - 1)

namespace IsLoading

variable {path : List Nat}

theorem append (h : IsLoading d (parent :: path)) (content : Content) :
    IsLoading (d.append parent content) (d.size :: parent :: path) := by
  have hmem : parent ∈ d.selfAndAncestors (d.size - 1) :=
    h.path_suffix.subset (List.mem_cons_self ..)
  have hparent : parent < d.size := by
    have := le_of_mem_selfAndAncestors hmem
    have := h.size_pos
    omega
  have hsize := size_append hparent content
  have hpath : d.size :: parent :: path =
      (d.append parent content).selfAndAncestors ((d.append parent content).size - 1) := by
    rw [hsize, Nat.add_sub_cancel, selfAndAncestors_append_self hparent content,
      eq_selfAndAncestors_of_suffix h.path_suffix]
  exact ⟨h.built.append parent content, h.preordered.append hmem h.size_pos content, by omega,
    hpath ▸ List.suffix_rfl⟩

/-- What is below the first node of the path is complete. -/
theorem up (h : IsLoading d (n :: path)) : IsLoading d path :=
  ⟨h.built, h.preordered, h.size_pos, (List.suffix_cons n path).trans h.path_suffix⟩

mutual

theorem appendFixture (f : Fixture) {d : Document} {parent : Nat} {path : List Nat}
    (h : IsLoading d (parent :: path)) :
    IsLoading (d.appendFixture parent f) (parent :: path) :=
  match f with
  | .text t => (h.append (.text t)).up
  | .comment t => (h.append (.comment t)).up
  | .element e children => (appendFixtures children (h.append (.element e))).up

theorem appendFixtures (fs : List Fixture) {d : Document} {parent : Nat} {path : List Nat}
    (h : IsLoading d (parent :: path)) :
    IsLoading (d.appendFixtures parent fs) (parent :: path) :=
  match fs with
  | [] => h
  | f :: r => appendFixtures r (appendFixture f h)

end

end IsLoading

theorem isLoading_ofFixture (f : Fixture) : IsLoading (ofFixture f) [0] := by
  have hpath : empty.selfAndAncestors 0 = [0] := congrArg (List.cons 0) (ancestors_eq_nil rfl)
  exact IsLoading.appendFixture f
    ⟨.empty, isPreordered_empty, by decide, hpath ▸ List.suffix_rfl⟩

theorem built_ofFixture (f : Fixture) : Built (ofFixture f) := (isLoading_ofFixture f).built

/-- **The numbers of a loaded document are in document order.** -/
theorem pairwise_descendants_ofFixture (f : Fixture) (n : Nat) :
    ((ofFixture f).descendants n).Pairwise (· < ·) := by
  have h := isLoading_ofFixture f
  exact (h.built.isTree.pairwise_descendants n).imp (h.preordered.lt_of_precedes h.built)

end Document
end CosmeticFilter
