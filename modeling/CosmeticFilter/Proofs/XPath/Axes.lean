import CosmeticFilter.Proofs.Document.Order
import CosmeticFilter.Proofs.XPath.Meaning
import CosmeticFilter.XPath.Evaluation

/-!
# Axes as lists

The evaluator lists the nodes of an axis, nearest first, and the position of a node is its place in
the list. In XPath 1.0 the nodes of an axis are a set, and a position counts the nodes of the set
that come first in the direction of the axis. A list that holds the nodes of the set in that
direction gives both: its length is the number of nodes, and a place in it is a proximity position,
because no two nodes come before each other.

* `Lists`: a list holds the nodes of a set in the direction of an axis;
* `Lists.ncard_eq`, `Lists.proximity_eq`: numbers and positions of nodes;
* `Axis.lists_nodes`: the evaluator lists the nodes that an axis leads to;
* `Predicate.lists_keep`: it lists what is left of them.
-/

namespace CosmeticFilter

variable {d : Document} {axis : Axis} {k m n : Nat}

/-! ### The nodes of an axis -/

namespace Axis

theorem isNearer_asymm (h : d.Built) {a b : Nat} (hab : axis.IsNearer d a b) :
    ¬ axis.IsNearer d b a := by
  unfold IsNearer at hab ⊢
  split
  · rename_i hreverse
    rw [if_pos hreverse] at hab
    exact h.precedes_asymm hab
  · rename_i hreverse
    rw [if_neg hreverse] at hab
    exact h.precedes_asymm hab

theorem mem_following_iff_sublist (h : d.Built) :
    m ∈ d.following n ↔ ∃ p, [n, m].Sublist (d.children p) := by
  constructor
  · intro hm
    cases hp : d.parent? n with
    | none =>
      rw [Document.following_eq_nil (h.isTree.neighbours_of_parent?_eq_none hp).2] at hm
      exact absurd hm List.not_mem_nil
    | some p =>
      obtain ⟨before, after, hsplit⟩ :=
        List.append_of_mem ((h.isTree.mem_children p n).mpr hp)
      rw [h.isTree.following_eq hsplit] at hm
      refine ⟨p, ?_⟩
      rw [hsplit]
      exact ((List.singleton_sublist.mpr hm).cons_cons n).trans (List.sublist_append_right _ _)
  · rintro ⟨p, hnm⟩
    have hlt := h.lt_of_sublist hnm
    obtain ⟨before, after, hsplit⟩ := List.append_of_mem (hnm.subset List.mem_cons_self)
    have hsorted := h.pairwise_children p
    have hm : m ∈ d.children p := hnm.subset (List.mem_cons_of_mem _ List.mem_cons_self)
    rw [hsplit] at hm hsorted
    rw [h.isTree.following_eq hsplit]
    rcases List.mem_append.mp hm with hbefore | hrest
    · have hgt := (List.pairwise_append.mp hsorted).2.2 m hbefore n List.mem_cons_self
      omega
    · rcases List.mem_cons.mp hrest with rfl | hafter
      · omega
      · exact hafter

/-- The evaluator lists the nodes that the axis leads to. -/
theorem mem_nodes_iff (h : d.Built) : m ∈ axis.nodes d n ↔ axis.Leads d n m := by
  cases axis with
  | child => exact h.isTree.mem_children n m
  | descendant => exact h.isTree.mem_descendants_iff.trans Document.isBelow_iff.symm
  | descendantOrSelf =>
    exact List.mem_cons.trans
      (or_congr_right (h.isTree.mem_descendants_iff.trans Document.isBelow_iff.symm))
  | parent => exact Option.mem_toList
  | ancestor => exact Document.isBelow_iff.symm
  | ancestorOrSelf => exact List.mem_cons.trans (or_congr_right Document.isBelow_iff.symm)
  | followingSibling => exact mem_following_iff_sublist h
  | precedingSibling =>
    exact h.isTree.mem_following_iff.symm.trans (mem_following_iff_sublist h)
  | self => exact List.mem_singleton

theorem pairwise_of_sublist_children {l : List Nat} {p : Nat} (hl : l.Sublist (d.children p)) :
    l.Pairwise d.Precedes :=
  List.pairwise_iff_forall_sublist.mpr fun hab => Document.precedes_of_sublist (hab.trans hl)

/-- They are listed in the direction of the axis. -/
theorem pairwise_nodes (h : d.Built) (axis : Axis) (n : Nat) :
    (axis.nodes d n).Pairwise (axis.IsNearer d) := by
  cases axis with
  | child => exact pairwise_of_sublist_children (List.Sublist.refl _)
  | descendant => exact h.isTree.pairwise_descendants n
  | descendantOrSelf =>
    refine .cons (fun m hm => .inl ?_) (h.isTree.pairwise_descendants n)
    exact Document.isBelow_iff.mpr (h.isTree.mem_descendants_iff.mp hm)
  | parent =>
    show (d.parent? n).toList.Pairwise _
    cases d.parent? n with
    | none => exact .nil
    | some p => exact List.pairwise_singleton _ _
  | ancestor => exact (Document.pairwise_ancestors d n).imp .inl
  | ancestorOrSelf =>
    refine .cons (fun m hm => .inl ?_) ((Document.pairwise_ancestors d n).imp .inl)
    exact Document.isBelow_iff.mpr hm
  | followingSibling =>
    show (d.following n).Pairwise d.Precedes
    cases hp : d.parent? n with
    | none =>
      rw [Document.following_eq_nil (h.isTree.neighbours_of_parent?_eq_none hp).2]
      exact .nil
    | some p =>
      obtain ⟨before, after, hsplit⟩ :=
        List.append_of_mem ((h.isTree.mem_children p n).mpr hp)
      rw [h.isTree.following_eq hsplit]
      refine pairwise_of_sublist_children (p := p) ?_
      rw [hsplit]
      exact (List.sublist_cons_self n after).trans (List.sublist_append_right _ _)
  | precedingSibling =>
    show (d.preceding n).Pairwise fun a b => d.Precedes b a
    rcases h.isTree.preceding_cases n with ⟨p, before, after, hsplit, heq⟩ | ⟨-, heq⟩
    · rw [heq, List.pairwise_reverse]
      refine pairwise_of_sublist_children (p := p) ?_
      rw [hsplit]
      exact List.sublist_append_left _ _
    · rw [heq]
      exact .nil
  | self => exact List.pairwise_singleton _ _

/-- No axis leads out of the document. -/
theorem lt_size_of_leads {axis : Axis} (hn : n < d.size) (h : axis.Leads d n m) : m < d.size := by
  have hparent : ∀ {a b : Nat}, d.parent? a = some b → a < d.size := by
    intro a b hab
    obtain ⟨x, hx, -⟩ := Option.bind_eq_some_iff.mp hab
    exact Document.exists_node?.mp ⟨x, hx⟩
  have hbelow : ∀ {a b : Nat}, d.isBelow a b = true → a < d.size := by
    intro a b hab
    have hmem := Document.isBelow_iff.mp hab
    cases hp : d.parent? a with
    | none =>
      rw [Document.ancestors_eq_nil hp] at hmem
      exact absurd hmem List.not_mem_nil
    | some p => exact hparent hp
  cases axis with
  | child => exact hparent h
  | descendant => exact hbelow h
  | descendantOrSelf => exact h.elim (fun heq => heq ▸ hn) hbelow
  | parent => exact (Document.parent_lt h).trans hn
  | ancestor => exact (Document.lt_of_mem_ancestors (Document.isBelow_iff.mp h)).trans hn
  | ancestorOrSelf =>
    exact h.elim (fun heq => heq ▸ hn) fun habove =>
      (Document.lt_of_mem_ancestors (Document.isBelow_iff.mp habove)).trans hn
  | followingSibling =>
    obtain ⟨p, hsub⟩ := h
    exact (Document.child_gt (hsub.subset (List.mem_cons_of_mem _ List.mem_cons_self))).2
  | precedingSibling =>
    obtain ⟨p, hsub⟩ := h
    exact (Document.child_gt (hsub.subset List.mem_cons_self)).2
  | self => exact h ▸ hn

end Axis

/-! ### Lists and sets of nodes -/

namespace XPath
namespace Standard

/-- The list holds the nodes of the set in the direction of the axis. -/
structure Lists (d : Document) (axis : Axis) (l : List Nat) (s : Set Nat) : Prop where
  /-- The members of the list are those of the set. -/
  mem_iff : ∀ m, m ∈ l ↔ m ∈ s
  /-- The list has the direction of the axis. -/
  pairwise : l.Pairwise (axis.IsNearer d)

namespace Lists

variable {l : List Nat} {s : Set Nat}

theorem nodup (h : Lists d axis l s) (hd : d.Built) : l.Nodup :=
  h.pairwise.imp fun {a b} (hab : axis.IsNearer d a b) (heq : a = b) =>
    Axis.isNearer_asymm hd hab (heq ▸ heq ▸ hab)

theorem ncard_eq (h : Lists d axis l s) (hd : d.Built) : s.ncard = l.length := by
  have hs : s = (l.toFinset : Set Nat) := by
    ext m
    rw [SetLike.mem_coe, List.mem_toFinset, h.mem_iff]
  rw [hs, Set.ncard_coe_finset, List.toFinset_card_of_nodup (h.nodup hd)]

/-- The nodes up to a place are those that are not behind the node at that place. -/
theorem mem_take_iff (h : Lists d axis l s) (hd : d.Built) {i : Nat} (hm : l[i]? = some m) :
    k ∈ l.take (i + 1) ↔ k ∈ s ∧ (k = m ∨ axis.IsNearer d k m) := by
  obtain ⟨hi, rfl⟩ := List.getElem?_eq_some_iff.mp hm
  have hsorted := List.pairwise_iff_getElem.mp h.pairwise
  rw [← h.mem_iff]
  constructor
  · intro hk
    obtain ⟨j, hj, rfl⟩ := List.mem_take_iff_getElem.mp hk
    refine ⟨List.getElem_mem _, ?_⟩
    rcases Nat.lt_or_ge j i with hlt | hge
    · exact .inr (hsorted j i (by omega) hi hlt)
    · exact .inl (by congr 1; omega)
  · rintro ⟨hk, hnear⟩
    obtain ⟨j, hj, rfl⟩ := List.getElem_of_mem hk
    refine List.mem_take_iff_getElem.mpr ⟨j, ?_, rfl⟩
    have hji : ¬ i < j := by
      intro hlt
      have hafter := hsorted i j hi hj hlt
      rcases hnear with heq | hnear
      · exact Axis.isNearer_asymm hd (heq ▸ hafter) (heq ▸ hafter)
      · exact Axis.isNearer_asymm hd hnear hafter
    omega

/-- The place of a node in the list is its proximity position in the set. -/
theorem proximity_eq (h : Lists d axis l s) (hd : d.Built) {i : Nat} (hm : l[i]? = some m) :
    proximity d axis s m = i + 1 := by
  have hi := (List.getElem?_eq_some_iff.mp hm).1
  have hset : {k ∈ s | k = m ∨ axis.IsNearer d k m} = ((l.take (i + 1)).toFinset : Set Nat) := by
    ext k
    rw [SetLike.mem_coe, List.mem_toFinset, h.mem_take_iff hd hm, Set.mem_sep_iff]
  rw [proximity, hset, Set.ncard_coe_finset,
    List.toFinset_card_of_nodup ((h.nodup hd).sublist (List.take_sublist _ _)), List.length_take]
  omega

/-- There are no more nodes than the document has. -/
theorem length_le (h : Lists d axis l s) (hd : d.Built) (hl : ∀ m ∈ l, m < d.size) :
    l.length ≤ d.size := by
  have hsub : l ⊆ List.range d.size := fun m hm => List.mem_range.mpr (hl m hm)
  have hle := ((h.nodup hd).subperm hsub).length_le
  rwa [List.length_range] at hle

end Lists

end Standard
end XPath

open XPath.Standard (Lists)

theorem Axis.lists_nodes (h : d.Built) (axis : Axis) (n : Nat) :
    Lists d axis (axis.nodes d n) {m | axis.Leads d n m} :=
  ⟨fun _ => axis.mem_nodes_iff h, axis.pairwise_nodes h n⟩

theorem NodeTest.passes_iff (test : NodeTest) : test.passes d n = true ↔ test.IsTrueOf d n := by
  have helement : ∀ e, d.element? n = some e ↔ d.content? n = some (.element e) := by
    intro e
    unfold Document.element?
    split <;> simp_all
  cases test with
  | anyElement =>
    show (d.element? n).isSome = true ↔ _
    rw [Option.isSome_iff_exists]
    exact exists_congr helement
  | name tag =>
    show (d.element? n).any _ = true ↔ _
    rw [Option.any_eq_true]
    exact exists_congr fun e => and_congr (helement e) beq_iff_eq
  | node => exact iff_of_true rfl trivial
  | text =>
    show (d.text? n).isSome = true ↔ ∃ t, d.content? n = some (.text t)
    unfold Document.text?
    split <;> simp_all

/-! ### Predicates -/

namespace Predicate

theorem sublist_keepFrom (p : Predicate) (count place : Nat) (l : List Nat) :
    (keepFrom d p count place l).Sublist l := by
  induction l generalizing place with
  | nil => exact .slnil
  | cons n r ih =>
    rw [keepFrom]
    split
    · exact (ih (place + 1)).cons_cons n
    · exact (ih (place + 1)).cons n

/-- A node is kept for its place in the list. -/
theorem mem_keepFrom_iff {p : Predicate} {count place : Nat} {l : List Nat} :
    m ∈ keepFrom d p count place l ↔
      ∃ i, l[i]? = some m ∧ p.holds d m (place + i) count = true := by
  induction l generalizing place with
  | nil => simp [keepFrom]
  | cons n r ih =>
    have hplace : ∀ i, place + (i + 1) = place + 1 + i := fun i => by omega
    have hcons : (∃ i, (n :: r)[i]? = some m ∧ p.holds d m (place + i) count = true) ↔
        (n = m ∧ p.holds d n place count = true) ∨
          ∃ i, r[i]? = some m ∧ p.holds d m (place + 1 + i) count = true := by
      constructor
      · rintro ⟨_ | i, hi, hholds⟩
        · obtain rfl := Option.some_inj.mp hi
          exact .inl ⟨rfl, hholds⟩
        · exact .inr ⟨i, hi, hplace i ▸ hholds⟩
      · rintro (⟨rfl, hholds⟩ | ⟨i, hi, hholds⟩)
        · exact ⟨0, rfl, hholds⟩
        · exact ⟨i + 1, hi, (hplace i).symm ▸ hholds⟩
    rw [hcons, keepFrom, ← ih]
    split
    · rename_i hholds
      rw [List.mem_cons, eq_comm, and_iff_left hholds]
    · rename_i hnot
      exact (or_iff_right fun hand => hnot hand.2).symm

/-- Where the predicate and an expression say the same at each place of a list, they keep the same
nodes, in the same direction. -/
theorem lists_keep (hd : d.Built) {R : XPath.Standard.Rounding} {l : List Nat} {s : Set Nat}
    (h : Lists d axis l s) {p : Predicate} {e : XPath.Standard.Expr}
    (hsame : ∀ i m, l[i]? = some m →
      ((e.value R d ⟨m, i + 1, l.length⟩).Keeps R (i + 1) ↔
        p.holds d m (i + 1) l.length = true)) :
    Lists d axis (p.keep d l) (XPath.Standard.keep R d axis s e) where
  mem_iff m := by
    rw [keep, mem_keepFrom_iff, XPath.Standard.keep, Set.mem_sep_iff]
    constructor
    · rintro ⟨i, hi, hholds⟩
      rw [Nat.add_comm] at hholds
      refine ⟨(h.mem_iff m).mp (List.mem_of_getElem? hi), ?_⟩
      rw [h.ncard_eq hd, h.proximity_eq hd hi]
      exact (hsame i m hi).mpr hholds
    · rintro ⟨hm, hkeeps⟩
      obtain ⟨i, hi⟩ := List.getElem?_of_mem ((h.mem_iff m).mpr hm)
      rw [h.ncard_eq hd, h.proximity_eq hd hi] at hkeeps
      refine ⟨i, hi, ?_⟩
      rw [Nat.add_comm]
      exact (hsame i m hi).mp hkeeps
  pairwise := h.pairwise.sublist (p.sublist_keepFrom l.length 1 l)

end Predicate

end CosmeticFilter
