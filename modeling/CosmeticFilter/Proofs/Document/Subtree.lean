import CosmeticFilter.Proofs.Document.Preorder
import Mathlib.Data.List.Perm.Subperm

/-!
# Parts of a document

What stands below a node is visited in one piece, wherever above it the walk begins. So the walk
from a node is what the walk through the whole document leaves if one keeps the nodes below.

* `isInfix_descendants`: the part of a node in a longer walk;
* `Built.descendants_eq_filter`: the walk from a node, as a part of the walk through everything;
* `Built.isBelow_document`: everything stands below the document.
-/

namespace CosmeticFilter
namespace Document

variable {d : Document} {n m : Nat}

/-- What stands below a node is visited in one piece. -/
theorem isInfix_descendants (h : m ∈ d.descendants n) : d.descendants m <:+: d.descendants n := by
  induction hs : d.size - n using Nat.strongRecOn generalizing n with
  | _ s ih =>
    subst hs
    have hpart : ∀ c ∈ d.children n, c :: d.descendants c <:+: d.descendants n := by
      intro c hc
      obtain ⟨before, after, hsplit⟩ := List.append_of_mem hc
      rw [descendants_eq d n, hsplit, List.flatMap_append, List.flatMap_cons]
      exact ⟨_, _, List.append_assoc ..⟩
    rw [descendants_eq] at h
    obtain ⟨c, hc, hm⟩ := List.mem_flatMap.mp h
    have hgt := child_gt hc
    rcases List.mem_cons.mp hm with rfl | hm
    · exact (List.suffix_cons _ _).isInfix.trans (hpart m hc)
    · exact ((ih (d.size - c) (by omega) hm rfl).trans (List.suffix_cons _ _).isInfix).trans
        (hpart c hc)

theorem lt_size_of_mem_descendants (h : m ∈ d.descendants n) : n < m ∧ m < d.size := by
  induction hs : d.size - n using Nat.strongRecOn generalizing n with
  | _ s ih =>
    subst hs
    rw [descendants_eq] at h
    obtain ⟨c, hc, hm⟩ := List.mem_flatMap.mp h
    have hgt := child_gt hc
    rcases List.mem_cons.mp hm with rfl | hm
    · exact hgt
    · have hlater := ih (d.size - c) (by omega) hm rfl
      omega

namespace Built

/-- Everything stands below the document. -/
theorem isBelow_document (h : Built d) (hm : m ∈ d.descendants 0) : d.isBelow m 0 = true :=
  isBelow_iff.mpr (h.isTree.mem_descendants_iff.mp hm)

/-- The walk from a node keeps to the walk through the whole document. -/
theorem descendants_sublist (h : Built d) (n : Nat) :
    (d.descendants n).Sublist (d.descendants 0) := by
  by_cases hroot : n = 0
  · rw [hroot]
  by_cases hn : n < d.size
  · exact (isInfix_descendants (h.mem_descendants hn hroot)).sublist
  · have hnil : d.descendants n = [] := List.eq_nil_iff_forall_not_mem.mpr fun m hm => by
      have hlt := lt_size_of_mem_descendants hm
      omega
    rw [hnil]
    exact List.nil_sublist _

/-- The walk from a node leaves out exactly what does not stand below it. -/
theorem descendants_eq_filter (h : Built d) (n : Nat) :
    d.descendants n = (d.descendants 0).filter fun m => d.isBelow m n := by
  have hmem : ∀ m, m ∈ d.descendants n ↔ d.isBelow m n = true := fun m =>
    h.isTree.mem_descendants_iff.trans isBelow_iff.symm
  have hkept : (d.descendants n).Sublist ((d.descendants 0).filter fun m => d.isBelow m n) := by
    rw [← List.filter_eq_self.mpr fun m hm => (hmem m).mp hm]
    exact (h.descendants_sublist n).filter _
  refine hkept.eq_of_length_le (List.subperm_of_subset ?_ fun m hm => ?_).length_le
  · exact (h.isTree.nodup_descendants 0).filter _
  · exact (hmem m).mpr (List.mem_filter.mp hm).2

end Built
end Document
end CosmeticFilter
