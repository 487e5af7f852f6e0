import CosmeticFilter.Document.Traversal

/-!
# Documents that are built by appending

Every node of such a document but the document itself is a child of its parent, so a walk down from
the document comes to every node.

* `Built`: the documents that appending leads to;
* `Built.exists_parent`: a node is a child of its parent;
* `Built.mem_descendants`: every node stands below the document.
-/

namespace CosmeticFilter
namespace Document

/-- The document has been built from the empty one by appending nodes. -/
inductive Built : Document → Prop where
  /-- Nothing has been appended. -/
  | empty : Built empty
  /-- One more node has been appended. -/
  | append {d : Document} (h : Built d) (parent : Nat) (content : Content) :
      Built (d.append parent content)

variable {d : Document}

theorem exists_node? {n : Nat} : (∃ x, d.node? n = some x) ↔ n < d.size := by
  constructor
  · rintro ⟨x, hx⟩
    exact (Array.getElem?_eq_some_iff.mp hx).1
  · intro h
    exact ⟨_, Array.getElem?_eq_getElem h⟩

theorem node?_eq_none {n : Nat} (h : d.size ≤ n) : d.node? n = none :=
  Array.getElem?_eq_none h

/-- A node has the children that it had, and its new child behind them. -/
theorem children_append {parent : Nat} (h : parent < d.size) (content : Content) (n : Nat) :
    (d.append parent content).children n =
      if n = parent then d.children n ++ [d.size] else d.children n := by
  unfold children
  rw [node?_append h]
  by_cases hn : n = d.size
  · rw [if_pos hn, if_neg (by omega), node?_eq_none (Nat.le_of_eq hn.symm)]
    rfl
  · rw [if_neg hn]
    cases hx : d.node? n with
    | none =>
      have hne : n ≠ parent := by
        rintro rfl
        obtain ⟨x, hx'⟩ := exists_node?.mpr h
        exact absurd (hx.symm.trans hx') (by simp)
      rw [if_neg hne]
      rfl
    | some x => rfl

theorem parent?_append {parent : Nat} (h : parent < d.size) (content : Content) (n : Nat) :
    (d.append parent content).parent? n = if n = d.size then some parent else d.parent? n := by
  unfold parent?
  rw [node?_append h]
  split
  · rfl
  · cases d.node? n <;> rfl

/-- A node is a child of its parent. -/
theorem Built.exists_parent (h : Built d) {n : Nat} (hn : n < d.size) (hne : n ≠ 0) :
    ∃ p, d.parent? n = some p ∧ n ∈ d.children p := by
  induction h with
  | empty =>
    have hsize : Document.empty.size = 1 := rfl
    omega
  | @append d h parent content ih =>
    by_cases hparent : parent < d.size
    · rw [size_append hparent] at hn
      by_cases hlast : n = d.size
      · refine ⟨parent, ?_, ?_⟩
        · rw [parent?_append hparent, if_pos hlast]
        · rw [children_append hparent content, if_pos rfl, hlast]
          exact List.mem_append_right _ (List.mem_singleton_self _)
      · obtain ⟨p, hp, hmem⟩ := ih (by omega)
        have hlt := parent_lt hp
        refine ⟨p, ?_, ?_⟩
        · rw [parent?_append hparent, if_neg hlast]
          exact hp
        · rw [children_append hparent content]
          split
          · exact List.mem_append_left _ hmem
          · exact hmem
    · rw [Document.append, dif_neg hparent] at hn ⊢
      exact ih hn

/-- What stands below is closed under children. -/
theorem mem_descendants_of_child {n m k : Nat} (hm : m ∈ d.descendants n)
    (hk : k ∈ d.children m) : k ∈ d.descendants n := by
  induction hs : d.size - n using Nat.strongRecOn generalizing n with
  | _ s ih =>
    subst hs
    rw [descendants_eq] at hm ⊢
    obtain ⟨c, hc, hm⟩ := List.mem_flatMap.mp hm
    have hgt := child_gt hc
    refine List.mem_flatMap.mpr ⟨c, hc, List.mem_cons_of_mem _ ?_⟩
    rcases List.mem_cons.mp hm with rfl | hm
    · rw [descendants_eq]
      exact List.mem_flatMap.mpr ⟨k, hk, List.mem_cons_self ..⟩
    · exact ih (d.size - c) (by omega) hm rfl

/-- Every node but the document stands below the document. -/
theorem Built.mem_descendants (h : Built d) {n : Nat} (hn : n < d.size) (hne : n ≠ 0) :
    n ∈ d.descendants 0 := by
  induction n using Nat.strongRecOn with
  | _ n ih =>
    obtain ⟨p, hp, hmem⟩ := h.exists_parent hn hne
    have hlt := parent_lt hp
    by_cases hroot : p = 0
    · subst hroot
      rw [descendants_eq]
      exact List.mem_flatMap.mpr ⟨n, hmem, List.mem_cons_self ..⟩
    · exact mem_descendants_of_child (ih p hlt (by omega) hroot) hmem

theorem lt_size_of_isElement {n : Nat} (h : d.isElement n = true) : n < d.size := by
  unfold isElement element? content? at h
  cases hnode : d.node? n with
  | none =>
    rw [hnode] at h
    exact absurd h (by simp)
  | some x => exact exists_node?.mp ⟨x, hnode⟩

/-- Node 0 is the document. -/
theorem Built.content?_zero (h : Built d) : d.content? 0 = some .document := by
  induction h with
  | empty => rfl
  | @append d h parent content ih =>
    by_cases hparent : parent < d.size
    · have hne : (0 : Nat) ≠ d.size := by omega
      unfold content? at ih ⊢
      rw [node?_append hparent, if_neg hne]
      cases hnode : d.node? 0 with
      | none =>
        rw [hnode] at ih
        exact absurd ih (by simp)
      | some x =>
        rw [hnode] at ih
        exact ih
    · rw [Document.append, dif_neg hparent]
      exact ih

/-- The document is no element. -/
theorem Built.not_isElement_zero (h : Built d) : d.isElement 0 = false := by
  unfold isElement element?
  rw [h.content?_zero]
  rfl

end Document
end CosmeticFilter
