import CosmeticFilter.Proofs.Document.Loaded
import CosmeticFilter.Proofs.Document.Parents

/-!
# Text content

The text content of a node is collected on a walk with a stack through everything below it. In a
document that is loaded, a text has nothing below it, and so the walk collects child by child what
is the text content of the child: an element or the document has the text of its children, one after
the other. Where a text has been given children, its own text content is its text alone, and the
text below it counts for the nodes above only.

* `textOf`: the text that a node itself contributes;
* `textContent_eq_flatMap`: the text content, node by node on the walk;
* `HasElementParents.textContent_eq`: the text content, child by child;
* `HasElementParents.isInfix_textContent`: the text content of a node is part of that of each node
  above it.
-/

namespace CosmeticFilter
namespace Document

variable {d : Document} {n m a : Nat} {t : Text}

/-- What the node itself contributes to the text content of the nodes above: its text, if it is
one. -/
def textOf (d : Document) (n : Nat) : Text := (d.text? n).getD []

theorem text?_eq_some_iff : d.text? n = some t ↔ d.content? n = some (.text t) := by
  unfold text?
  cases d.content? n with
  | none => simp
  | some x => cases x <;> simp

theorem text?_of_isElement (h : d.isElement n = true) : d.text? n = none := by
  unfold isElement element? at h
  unfold text?
  cases hcontent : d.content? n with
  | none => rfl
  | some x =>
    rw [hcontent] at h
    cases x <;> first | rfl | exact absurd h (by simp)

theorem Built.text?_zero (h : Built d) : d.text? 0 = none := by
  unfold text?
  rw [h.content?_zero]

theorem textContent_of_text? (h : d.text? n = some t) : d.textContent n = t := by
  unfold textContent
  rw [h]

/-- The text content of a node that is no text, node by node on the walk. -/
theorem textContent_eq_flatMap (h : d.text? n = none) :
    d.textContent n = (d.descendants n).flatMap d.textOf := by
  unfold textContent
  rw [h]
  dsimp only
  induction d.descendants n with
  | nil => rfl
  | cons m r ih =>
    rw [List.flatMap_cons, ← ih, List.filterMap_cons, textOf]
    cases d.text? m <;> rfl

namespace HasElementParents

/-- Only elements and the document have children. -/
theorem children_eq_nil (h : d.HasElementParents) (hd : Built d) (hn : n ≠ 0)
    (helement : d.isElement n = false) : d.children n = [] := by
  refine List.eq_nil_iff_forall_not_mem.mpr fun m hm => ?_
  rcases h m n ((hd.isTree.mem_children n m).mp hm) with hroot | hn'
  · exact hn hroot
  · exact Bool.false_ne_true (helement.symm.trans hn')

theorem descendants_eq_nil (h : d.HasElementParents) (hd : Built d) (hn : n ≠ 0)
    (helement : d.isElement n = false) : d.descendants n = [] := by
  rw [descendants_eq, h.children_eq_nil hd hn helement]
  rfl

/-- The part of the walk that begins with a node collects its text content. -/
theorem textOf_append_descendants (h : d.HasElementParents) (hd : Built d) (hn : n ≠ 0) :
    d.textOf n ++ (d.descendants n).flatMap d.textOf = d.textContent n := by
  unfold textOf
  cases ht : d.text? n with
  | none => exact (textContent_eq_flatMap ht).symm
  | some t =>
    have helement : d.isElement n = false := by
      by_contra helement
      rw [Bool.not_eq_false] at helement
      exact absurd (ht.symm.trans (text?_of_isElement helement)) (by simp)
    rw [h.descendants_eq_nil hd hn helement, textContent_of_text? ht]
    exact List.append_nil t

/-- **The text content is put together from the text contents of the children.** -/
theorem textContent_eq (h : d.HasElementParents) (hd : Built d) (hn : d.text? n = none) :
    d.textContent n = (d.children n).flatMap d.textContent := by
  rw [textContent_eq_flatMap hn, descendants_eq, List.flatMap_assoc]
  refine List.flatMap_congr fun m hm => ?_
  have hgt := (child_gt hm).1
  rw [List.flatMap_cons, h.textOf_append_descendants hd (by omega)]

/-- A comment has no text content. -/
theorem textContent_of_comment (h : d.HasElementParents) (hd : Built d)
    (hn : d.content? n = some (.comment t)) : d.textContent n = [] := by
  have hroot : n ≠ 0 := by
    rintro rfl
    cases hd.content?_zero.symm.trans hn
  have htext : d.text? n = none := by
    unfold text?
    rw [hn]
  have helement : d.isElement n = false := by
    unfold isElement element?
    rw [hn]
    rfl
  rw [h.textContent_eq hd htext, h.children_eq_nil hd hroot helement]
  rfl

theorem isInfix_textContent_of_child (h : d.HasElementParents) (hd : Built d)
    (hm : m ∈ d.children n) : d.textContent m <:+: d.textContent n := by
  have hn : d.text? n = none := by
    rcases h m n ((hd.isTree.mem_children n m).mp hm) with rfl | helement
    · exact hd.text?_zero
    · exact text?_of_isElement helement
  obtain ⟨before, after, hsplit⟩ := List.append_of_mem hm
  rw [h.textContent_eq hd hn, hsplit, List.flatMap_append, List.flatMap_cons]
  exact ⟨_, _, List.append_assoc ..⟩

/-- The text content of a node stands in one piece in that of each node above. -/
theorem isInfix_textContent (h : d.HasElementParents) (hd : Built d) (ha : a ∈ d.ancestors n) :
    d.textContent n <:+: d.textContent a := by
  induction n using Nat.strongRecOn with
  | _ n ih =>
    cases hp : d.parent? n with
    | none =>
      rw [ancestors_eq_nil hp] at ha
      exact absurd ha List.not_mem_nil
    | some p =>
      have hchild := h.isInfix_textContent_of_child hd ((hd.isTree.mem_children p n).mpr hp)
      rw [ancestors_eq_cons hp] at ha
      rcases List.mem_cons.mp ha with rfl | ha
      · exact hchild
      · exact hchild.trans (ih p (parent_lt hp) ha)

end HasElementParents
end Document
end CosmeticFilter
