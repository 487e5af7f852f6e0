import CosmeticFilter.Proofs.Document.Tree

/-!
# Document order

A walk down from a node keeps a stack of what is still to be visited; whether a node stands below
another is asked the other way round, by going up. In a tree both agree, and the walk visits what
stands below in document order: a node before those below it, and all that stands below a child
before the next child.

* `Precedes`: the order of two nodes in the document;
* `IsTree.mem_descendants_iff`, `IsTree.nodup_descendants`, `IsTree.pairwise_descendants`: the walk
  down;
* `IsOrderedTree`: what a document is after any appending;
* `Built.isOrderedTree`: every document that is built by appending is such a tree.
-/

namespace CosmeticFilter
namespace Document

variable {d : Document}

/-- One node comes before another in the document: the other stands below it, or they stand in the
parts of the tree that belong to an earlier and to a later child of one node. -/
def Precedes (d : Document) (a b : Nat) : Prop :=
  d.isBelow b a = true ∨
    ∃ p x y, [x, y].Sublist (d.children p) ∧ x ∈ d.selfAndAncestors a ∧ y ∈ d.selfAndAncestors b

theorem isBelow_iff {n above : Nat} : d.isBelow n above = true ↔ above ∈ d.ancestors n := by
  rw [isBelow, List.contains_iff_mem]

namespace IsTree

/-- The walk down comes to the nodes from which the walk up comes back. -/
theorem mem_descendants_iff (h : IsTree d) {n m : Nat} :
    m ∈ d.descendants n ↔ n ∈ d.ancestors m := by
  constructor
  · intro hm
    induction hs : d.size - n using Nat.strongRecOn generalizing n with
    | _ s ih =>
      subst hs
      rw [descendants_eq] at hm
      obtain ⟨c, hc, hm⟩ := List.mem_flatMap.mp hm
      have hgt := child_gt hc
      have hn : n ∈ d.ancestors c := by
        rw [ancestors_eq_cons ((h.mem_children n c).mp hc)]
        exact List.mem_cons_self ..
      rcases List.mem_cons.mp hm with rfl | hm
      · exact hn
      · exact mem_ancestors_trans (ih (d.size - c) (by omega) hm rfl) hn
  · intro hn
    induction m using Nat.strongRecOn with
    | _ m ih =>
      cases hp : d.parent? m with
      | none =>
        rw [ancestors_eq_nil hp] at hn
        exact absurd hn List.not_mem_nil
      | some p =>
        have hchild := (h.mem_children p m).mpr hp
        rw [ancestors_eq_cons hp] at hn
        rcases List.mem_cons.mp hn with rfl | hn
        · rw [descendants_eq]
          exact List.mem_flatMap.mpr ⟨m, hchild, List.mem_cons_self ..⟩
        · exact mem_descendants_of_child (ih p (parent_lt hp) hn) hchild

/-- What the walk visits with a child: the nodes that have it above them, or are it. -/
theorem mem_cons_descendants_iff (h : IsTree d) {c m : Nat} :
    m ∈ c :: d.descendants c ↔ c ∈ d.selfAndAncestors m := by
  rw [List.mem_cons, selfAndAncestors, List.mem_cons, h.mem_descendants_iff, eq_comm]

/-- A node stands in the part of one child only. -/
theorem eq_of_mem_selfAndAncestors {p x y n : Nat} (hx : d.parent? x = some p)
    (hy : d.parent? y = some p) (hxn : x ∈ d.selfAndAncestors n) (hyn : y ∈ d.selfAndAncestors n) :
    x = y := by
  -- If `n` is one of them, then the other one stands above it: it is its parent or above that.
  have hself : ∀ {x y : Nat}, d.parent? x = some p → d.parent? y = some p →
      y ∈ d.selfAndAncestors x → x = y := by
    intro x y hx hy hyx
    rcases List.mem_cons.mp hyx with rfl | hyx
    · rfl
    · rw [ancestors_eq_cons hx] at hyx
      have hlt := parent_lt hy
      rcases List.mem_cons.mp hyx with rfl | hyx
      · exact absurd hlt (Nat.lt_irrefl _)
      · exact absurd (lt_of_mem_ancestors hyx) (Nat.lt_asymm hlt)
  induction n using Nat.strongRecOn with
  | _ n ih =>
    rcases List.mem_cons.mp hxn with rfl | hxn'
    · exact hself hx hy hyn
    rcases List.mem_cons.mp hyn with rfl | hyn'
    · exact (hself hy hx hxn).symm
    cases hq : d.parent? n with
    | none =>
      rw [ancestors_eq_nil hq] at hxn'
      exact absurd hxn' List.not_mem_nil
    | some q =>
      rw [ancestors_eq_cons hq] at hxn' hyn'
      exact ih q (parent_lt hq) hxn' hyn'

/-- The walk comes to no node twice. -/
theorem nodup_descendants (h : IsTree d) (n : Nat) : (d.descendants n).Nodup := by
  induction hs : d.size - n using Nat.strongRecOn generalizing n with
  | _ s ih =>
    subst hs
    rw [descendants_eq, List.nodup_flatMap]
    constructor
    · intro c hc
      have hgt := child_gt hc
      refine List.nodup_cons.mpr ⟨fun hmem => ?_, ih (d.size - c) (by omega) c rfl⟩
      exact absurd (lt_of_mem_ancestors (h.mem_descendants_iff.mp hmem)) (Nat.lt_irrefl c)
    · refine (h.nodup_children n).imp_of_mem fun {x y} hx hy hne m hmx hmy => hne ?_
      exact eq_of_mem_selfAndAncestors ((h.mem_children n x).mp hx) ((h.mem_children n y).mp hy)
        (h.mem_cons_descendants_iff.mp hmx) (h.mem_cons_descendants_iff.mp hmy)

/-- The walk keeps to the order of the document. -/
theorem pairwise_descendants (h : IsTree d) (n : Nat) :
    (d.descendants n).Pairwise d.Precedes := by
  induction hs : d.size - n using Nat.strongRecOn generalizing n with
  | _ s ih =>
    subst hs
    rw [descendants_eq, List.pairwise_flatMap]
    constructor
    · intro c hc
      have hgt := child_gt hc
      refine List.pairwise_cons.mpr ⟨fun m hm => Or.inl ?_, ih (d.size - c) (by omega) c rfl⟩
      exact isBelow_iff.mpr (h.mem_descendants_iff.mp hm)
    · refine List.pairwise_iff_forall_sublist.mpr fun {x y} hxy a ha b hb => ?_
      exact Or.inr ⟨n, x, y, hxy, h.mem_cons_descendants_iff.mp ha,
        h.mem_cons_descendants_iff.mp hb⟩

end IsTree

/-- An ordered tree, kept in lists of children and in links, whose walks up and down agree. -/
structure IsOrderedTree (d : Document) : Prop where
  /-- Every node but the document stands once in the list of its parent, and in no other list. -/
  child : ∀ n, n < d.size → n ≠ 0 →
    ∃ p, d.parent? n = some p ∧ ∀ q, (d.children q).count n = if q = p then 1 else 0
  /-- The document stands in no list, and has no parent and no neighbours. -/
  root : (∀ q, 0 ∉ d.children q) ∧ d.parent? 0 = none ∧ d.previous? 0 = none ∧ d.next? 0 = none
  /-- The neighbours of a node are its neighbours in the list. -/
  neighbours : ∀ p n before after, d.children p = before ++ n :: after →
    d.previous? n = before.getLast? ∧ d.next? n = after.head?
  /-- The nodes above are reached by going from parent to parent until there is none. -/
  ancestors : ∀ n i, (d.ancestors n)[i]? = (Option.bind · d.parent?)^[i + 1] (some n)
  /-- The last of them is the document. -/
  top : ∀ n, n < d.size → n ≠ 0 → (d.ancestors n).getLast? = some 0
  /-- The walk down comes to what stands below, and to nothing else. -/
  mem_descendants : ∀ n m, m ∈ d.descendants n ↔ d.isBelow m n = true
  /-- It comes to each node once. -/
  nodup_descendants : ∀ n, (d.descendants n).Nodup
  /-- It keeps to the order of the document. -/
  pairwise_descendants : ∀ n, (d.descendants n).Pairwise d.Precedes

/-- **Documents are ordered trees**, in whatever order their nodes have been appended. -/
theorem Built.isOrderedTree (h : Built d) : IsOrderedTree d where
  child n hn hne := by
    obtain ⟨p, hp⟩ := h.isTree.exists_parent n hn hne
    refine ⟨p, hp, fun q => ?_⟩
    split
    · rename_i heq
      subst heq
      exact List.count_eq_one_of_mem (h.isTree.nodup_children q)
        ((h.isTree.mem_children q n).mpr hp)
    · rename_i hother
      refine List.count_eq_zero.mpr fun hmem => hother ?_
      exact Option.some_inj.mp (((h.isTree.mem_children q n).mp hmem).symm.trans hp)
  root := by
    have hnone : d.parent? 0 = none :=
      Option.eq_none_iff_forall_ne_some.mpr fun p hp => Nat.not_lt_zero p (parent_lt hp)
    exact ⟨fun q hmem => absurd (child_gt hmem).1 (Nat.not_lt_zero q), hnone, h.isTree.alone⟩
  neighbours := h.isTree.neighbours
  ancestors := getElem?_ancestors d
  top _ hn hne := h.isTree.getLast?_ancestors hn hne
  mem_descendants _ _ := h.isTree.mem_descendants_iff.trans isBelow_iff.symm
  nodup_descendants := h.isTree.nodup_descendants
  pairwise_descendants := h.isTree.pairwise_descendants

/-- Nodes appended out of order, one of them below a text: 4 below 1 when 1 has a sibling already,
and 5 below the text 2. -/
def outOfOrder : Document :=
  ((((empty.append 0 (.element ⟨"a".toList, [], []⟩)).append 1 (.text "t".toList)).append 0
    (.comment [])).append 1 (.element ⟨"b".toList, [], []⟩)).append 2 (.text [])

/-- The numbers of the nodes do not follow the order of the document. -/
theorem isOrderedTree_outOfOrder :
    outOfOrder.Built ∧ outOfOrder.descendants 0 = [1, 2, 5, 4, 3] ∧ IsOrderedTree outOfOrder := by
  have hbuilt : outOfOrder.Built :=
    ((((Built.empty.append 0 _).append 1 _).append 0 _).append 1 _).append 2 _
  exact ⟨hbuilt, by decide +kernel, hbuilt.isOrderedTree⟩

end Document
end CosmeticFilter
