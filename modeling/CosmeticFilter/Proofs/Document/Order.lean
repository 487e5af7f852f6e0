import CosmeticFilter.Proofs.Document.Loaded

/-!
# Document order is one way only

Two nodes part where they stand below two children of one node, and they part at one place only:
what is above both of them is above that place, or is that place. So no two nodes come before each
other, in whatever order the nodes of the document have been appended.

* `ancestors_comparable`, `exists_child_of_mem_ancestors`: the way up from a node;
* `Built.not_mem_ancestors_of_sublist`: where two nodes part;
* `Built.precedes_asymm`: no two nodes come before each other;
* `precedes_of_sublist`, `pairwise_ancestors`: children, and nodes above, in document order.
-/

namespace CosmeticFilter
namespace Document
variable {d : Document} {a b p q x y : Nat}

/-- Of two nodes above a third, one is above the other. -/
theorem ancestors_comparable (hp : p ∈ d.ancestors a) (hq : q ∈ d.ancestors a) :
    p = q ∨ p ∈ d.ancestors q ∨ q ∈ d.ancestors p := by
  induction a using Nat.strongRecOn with
  | _ a ih =>
    cases hparent : d.parent? a with
    | none =>
      rw [ancestors_eq_nil hparent] at hp
      exact absurd hp List.not_mem_nil
    | some m =>
      rw [ancestors_eq_cons hparent] at hp hq
      rcases List.mem_cons.mp hp with rfl | hp'
      · rcases List.mem_cons.mp hq with rfl | hq'
        · exact .inl rfl
        · exact .inr (.inr hq')
      · rcases List.mem_cons.mp hq with rfl | hq'
        · exact .inr (.inl hp')
        · exact ih m (parent_lt hparent) hp' hq'

/-- The way up to a node above goes through one of its children. -/
theorem exists_child_of_mem_ancestors (h : p ∈ d.ancestors a) :
    ∃ c, d.parent? c = some p ∧ c ∈ d.selfAndAncestors a := by
  induction a using Nat.strongRecOn with
  | _ a ih =>
    cases hparent : d.parent? a with
    | none =>
      rw [ancestors_eq_nil hparent] at h
      exact absurd h List.not_mem_nil
    | some m =>
      rw [ancestors_eq_cons hparent] at h
      rcases List.mem_cons.mp h with rfl | h
      · exact ⟨a, hparent, List.mem_cons_self⟩
      · obtain ⟨c, hc, hmem⟩ := ih m (parent_lt hparent) h
        refine ⟨c, hc, List.mem_cons_of_mem _ ?_⟩
        rw [ancestors_eq_cons hparent]
        exact hmem

/-- The parent of a node on the way up, the start included, stands above. -/
theorem mem_ancestors_of_parent (hx : x ∈ d.selfAndAncestors a) (hp : d.parent? x = some p) :
    p ∈ d.ancestors a := by
  have hmem : p ∈ d.ancestors x := by
    rw [ancestors_eq_cons hp]
    exact List.mem_cons_self
  rcases List.mem_cons.mp hx with rfl | hx
  · exact hmem
  · exact mem_ancestors_trans hx hmem

/-- Children come in document order. -/
theorem precedes_of_sublist (hxy : [x, y].Sublist (d.children p)) : d.Precedes x y :=
  .inr ⟨p, x, y, hxy, List.mem_cons_self, List.mem_cons_self⟩

/-- Each node on the way up stands below those that follow. -/
theorem pairwise_ancestors (d : Document) (n : Nat) :
    (d.ancestors n).Pairwise fun a b => d.isBelow a b = true := by
  induction n using Nat.strongRecOn with
  | _ n ih =>
    cases hparent : d.parent? n with
    | none =>
      rw [ancestors_eq_nil hparent]
      exact .nil
    | some m =>
      rw [ancestors_eq_cons hparent]
      exact .cons (fun b hb => isBelow_iff.mpr hb) (ih m (parent_lt hparent))

namespace Built

theorem lt_of_sublist (h : Built d) (hxy : [x, y].Sublist (d.children p)) : x < y :=
  List.pairwise_iff_forall_sublist.mp (h.pairwise_children p) hxy

theorem parent?_of_sublist (h : Built d) (hxy : [x, y].Sublist (d.children p)) :
    d.parent? x = some p ∧ d.parent? y = some p :=
  ⟨(h.isTree.mem_children p x).mp (hxy.subset List.mem_cons_self),
    (h.isTree.mem_children p y).mp (hxy.subset (List.mem_cons_of_mem _ List.mem_cons_self))⟩

/-- Where two nodes part is as far down as a node can be that is above both. -/
theorem not_mem_ancestors_of_sublist (h : Built d) (hxy : [x, y].Sublist (d.children p))
    (hx : x ∈ d.selfAndAncestors a) (hy : y ∈ d.selfAndAncestors b) (hqa : q ∈ d.ancestors a)
    (hqb : q ∈ d.ancestors b) : p ∉ d.ancestors q := by
  intro hpq
  obtain ⟨c, hc, hmem⟩ := exists_child_of_mem_ancestors hpq
  obtain ⟨hxp, hyp⟩ := h.parent?_of_sublist hxy
  have hxc : x = c := IsTree.eq_of_mem_selfAndAncestors hxp hc hx
    (mem_selfAndAncestors_trans (List.mem_cons_of_mem _ hqa) hmem)
  have hyc : y = c := IsTree.eq_of_mem_selfAndAncestors hyp hc hy
    (mem_selfAndAncestors_trans (List.mem_cons_of_mem _ hqb) hmem)
  exact absurd (h.lt_of_sublist hxy) (by omega)

/-- No two nodes come before each other. -/
theorem precedes_asymm (h : Built d) (hab : d.Precedes a b) : ¬ d.Precedes b a := by
  -- A node does not come, in another part of the tree, before one that it stands below.
  have hbelow : ∀ {a b p x y}, d.isBelow b a = true → [x, y].Sublist (d.children p) →
      x ∈ d.selfAndAncestors b → y ∉ d.selfAndAncestors a := by
    intro a b p x y hba hxy hx hy
    obtain ⟨hxp, hyp⟩ := h.parent?_of_sublist hxy
    have hyb : y ∈ d.selfAndAncestors b :=
      mem_selfAndAncestors_trans (List.mem_cons_of_mem _ (isBelow_iff.mp hba)) hy
    have heq := IsTree.eq_of_mem_selfAndAncestors hxp hyp hx hyb
    exact absurd (h.lt_of_sublist hxy) (heq ▸ Nat.lt_irrefl x)
  rcases hab with hba | ⟨p, x, y, hxy, hx, hy⟩
  · rintro (hab | ⟨p, x, y, hxy, hx, hy⟩)
    · exact absurd (lt_of_mem_ancestors (isBelow_iff.mp hab))
        (Nat.lt_asymm (lt_of_mem_ancestors (isBelow_iff.mp hba)))
    · exact hbelow hba hxy hx hy
  · rintro (hab | ⟨q, x', y', hxy', hx', hy'⟩)
    · exact hbelow hab hxy hx hy
    · obtain ⟨hxp, hyp⟩ := h.parent?_of_sublist hxy
      obtain ⟨hxq, hyq⟩ := h.parent?_of_sublist hxy'
      have hpa := mem_ancestors_of_parent hx hxp
      have hpb := mem_ancestors_of_parent hy hyp
      have hqb := mem_ancestors_of_parent hx' hxq
      have hqa := mem_ancestors_of_parent hy' hyq
      rcases ancestors_comparable hpa hqa with rfl | hpq | hqp
      · have hx := IsTree.eq_of_mem_selfAndAncestors hxp hyq hx hy'
        have hy := IsTree.eq_of_mem_selfAndAncestors hyp hxq hy hx'
        have hlt := h.lt_of_sublist hxy
        have hgt := h.lt_of_sublist hxy'
        omega
      · exact h.not_mem_ancestors_of_sublist hxy hx hy hqa hqb hpq
      · exact h.not_mem_ancestors_of_sublist hxy' hx' hy' hpb hpa hqp

end Built
end Document
end CosmeticFilter
