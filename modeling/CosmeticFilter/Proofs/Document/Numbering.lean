import CosmeticFilter.Proofs.Document.Order
import CosmeticFilter.Proofs.Document.Subtree
import Mathlib.Data.List.Pairwise

/-!
# When numbers are in document order

The numbers of the nodes say in which order they were appended, and that need not be the order of
the document. It is if each node was appended to the node before it or to one above that. Nothing
less will do: had a node been appended anywhere else, it would stand in an earlier part of the
document than the node before it.

* `precedes_of_lt`: where a walk counts upwards, it says which of two nodes comes first;
* `IsPreordered.precedes_iff_lt`: then numbers tell the order of the document;
* `Built.isPreordered_iff`: the documents in which the walk through everything counts upwards.
-/

namespace CosmeticFilter
namespace Document

variable {d : Document} {a b m n p : Nat}

theorem Built.size_pos (h : d.Built) : 0 < d.size := by
  induction h with
  | empty => exact Nat.one_pos
  | @append d h parent content ih =>
    by_cases hparent : parent < d.size
    · rw [size_append hparent]
      exact Nat.succ_pos _
    · rw [Document.append, dif_neg hparent]
      exact ih

/-- If the walk through the document counts upwards, a node with a smaller number comes first. -/
theorem precedes_of_lt (h : d.Built) (hsorted : (d.descendants 0).Pairwise (· < ·))
    (ha : a ∈ d.descendants 0) (hb : b ∈ d.descendants 0) (hab : a < b) : d.Precedes a b := by
  -- Said of two nodes in either order, this depends on their places in the walk no more.
  let R : Nat → Nat → Prop := fun a b => (a < b → d.Precedes a b) ∧ (b < a → d.Precedes b a)
  have hsymm : Std.Symm R := ⟨fun _ _ hand => And.symm hand⟩
  have hwalk : (d.descendants 0).Pairwise R :=
    (hsorted.and (h.isTree.pairwise_descendants 0)).imp fun hand =>
      ⟨fun _ => hand.2, fun hlt => absurd hlt (Nat.lt_asymm hand.1)⟩
  exact (hwalk.forall ha hb (Nat.ne_of_lt hab)).1 hab

/-- If the walk through the document counts upwards, a node that comes first has the smaller
number. -/
theorem lt_of_precedes (h : d.Built) (hsorted : (d.descendants 0).Pairwise (· < ·))
    (ha : a ∈ d.descendants 0) (hb : b ∈ d.descendants 0) (hab : d.Precedes a b) : a < b := by
  refine Nat.lt_of_not_le fun hle => ?_
  rcases Nat.lt_or_eq_of_le hle with hlt | rfl
  · exact h.precedes_asymm hab (precedes_of_lt h hsorted hb ha hlt)
  · exact h.precedes_asymm hab hab

theorem IsPreordered.pairwise_descendants (h : d.IsPreordered) (hd : d.Built) (n : Nat) :
    (d.descendants n).Pairwise (· < ·) :=
  (hd.isTree.pairwise_descendants n).imp (h.lt_of_precedes hd)

/-- The numbers tell the order of the document. -/
theorem IsPreordered.precedes_iff_lt (h : d.IsPreordered) (hd : d.Built) (hn : n < d.size) :
    d.Precedes m n ↔ m < n := by
  refine ⟨h.lt_of_precedes hd, fun hmn => ?_⟩
  have hmem := hd.mem_descendants hn (Nat.ne_of_gt (Nat.zero_lt_of_lt hmn))
  by_cases hroot : m = 0
  · rw [hroot]
    exact .inl (hd.isBelow_document hmem)
  · exact precedes_of_lt hd (h.pairwise_descendants hd 0)
      (hd.mem_descendants (Nat.lt_trans hmn hn) hroot) hmem hmn

/-- **The walk through the document counts upwards** if each node was appended to the node before it
or above that, and only then. -/
theorem Built.isPreordered_iff (h : d.Built) :
    d.IsPreordered ↔ (d.descendants 0).Pairwise (· < ·) := by
  refine ⟨fun hpre => hpre.pairwise_descendants h 0, fun hsorted n p hp => ?_⟩
  have hlt := parent_lt hp
  by_cases hn : n = 0
  · obtain rfl : p = n := by omega
    exact List.mem_cons_self
  have hsize : n + 1 < d.size := by
    obtain ⟨x, hx, -⟩ := Option.bind_eq_some_iff.mp hp
    exact exists_node?.mp ⟨x, hx⟩
  have hmem : n ∈ d.descendants 0 := h.mem_descendants (Nat.lt_of_succ_lt hsize) hn
  have hnext : n + 1 ∈ d.descendants 0 := h.mem_descendants hsize (Nat.succ_ne_zero n)
  have habove : d.selfAndAncestors (n + 1) = (n + 1) :: d.selfAndAncestors p := by
    rw [selfAndAncestors, ancestors_eq_cons hp]
  rcases precedes_of_lt h hsorted hmem hnext (Nat.lt_succ_self n) with
    hbelow | ⟨q, x, y, hxy, hx, hy⟩
  · -- The next node stands below this one, so its parent is this one.
    rw [isBelow_iff, ancestors_eq_cons hp] at hbelow
    have hle := le_of_mem_selfAndAncestors hbelow
    obtain rfl : p = n := by omega
    exact List.mem_cons_self
  · obtain ⟨hxq, hyq⟩ := h.parent?_of_sublist hxy
    rw [habove] at hy
    rcases List.mem_cons.mp hy with rfl | hy
    · -- The next node is a later sibling of one that this node stands below, or is.
      obtain rfl := Option.some_inj.mp (hp.symm.trans hyq)
      exact List.mem_cons_of_mem _ (mem_ancestors_of_parent hx hxq)
    · -- The parent would come after this node, and its number is not greater.
      have hpos : p ≠ 0 := by
        have := le_of_mem_selfAndAncestors hy
        have := parent_lt hyq
        omega
      have hparent := h.mem_descendants (Nat.lt_trans hlt hsize) hpos
      have := lt_of_precedes h hsorted hmem hparent (.inr ⟨q, x, y, hxy, hx, hy⟩)
      omega

end Document
end CosmeticFilter
