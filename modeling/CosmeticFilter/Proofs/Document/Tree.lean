import CosmeticFilter.Proofs.Document.Built
import Mathlib.Data.List.Nodup
import Mathlib.Logic.Function.Iterate

/-!
# Links of a document

A document keeps its tree twice: each node has the list of its children, and each node knows its
parent and its two neighbours. Appending a node writes to both, and they always agree: the links of
a node are read off the one list of children that it stands in.

* `IsTree`: both agree;
* `IsTree.append`, `Built.isTree`: appending keeps it so;
* `IsTree.preceding_eq`, `IsTree.following_eq`: the siblings on the left are those before the node
  in the list, and those on the right are behind it;
* `IsTree.mem_following_iff`: a node is on the right of the nodes that are on its left;
* `getElem?_ancestors`, `IsTree.getLast?_ancestors`: the nodes above lead up to the document.
-/

namespace CosmeticFilter
namespace Document

variable {d : Document}

/-- The links of the nodes are those of an ordered tree with the document at the top. -/
structure IsTree (d : Document) : Prop where
  /-- The children of a node are the nodes that have it as their parent. -/
  mem_children : ∀ p n, n ∈ d.children p ↔ d.parent? n = some p
  /-- No node is listed twice. -/
  nodup_children : ∀ p, (d.children p).Nodup
  /-- Every node but the document has a parent. -/
  exists_parent : ∀ n, n < d.size → n ≠ 0 → ∃ p, d.parent? n = some p
  /-- The neighbours of a node are its neighbours in the list of children. -/
  neighbours : ∀ p n before after, d.children p = before ++ n :: after →
    d.previous? n = before.getLast? ∧ d.next? n = after.head?
  /-- The document has no neighbours. -/
  alone : d.previous? 0 = none ∧ d.next? 0 = none

/-! ### Appending -/

theorem lastChild?_eq (d : Document) (p : Nat) :
    lastChild? d.nodes p = (d.children p).getLast? := by
  unfold lastChild? children node?
  cases d.nodes[p]? <;> rfl

theorem previous?_append {parent : Nat} (h : parent < d.size) (content : Content) (n : Nat) :
    (d.append parent content).previous? n =
      if n = d.size then (d.children parent).getLast? else d.previous? n := by
  unfold previous?
  rw [node?_append h, lastChild?_eq]
  split
  · rfl
  · cases d.node? n <;> rfl

theorem next?_append {parent : Nat} (h : parent < d.size) (content : Content) {n : Nat}
    (hn : n < d.size) :
    (d.append parent content).next? n =
      if (d.children parent).getLast? = some n then some d.size else d.next? n := by
  obtain ⟨x, hx⟩ := exists_node?.mpr hn
  unfold next?
  rw [node?_append h, if_neg (Nat.ne_of_lt hn), hx, lastChild?_eq]
  rfl

theorem next?_append_self {parent : Nat} (h : parent < d.size) (content : Content) :
    (d.append parent content).next? d.size = none := by
  unfold next?
  rw [node?_append h, if_pos rfl]
  rfl

theorem isTree_empty : IsTree empty where
  mem_children p n := by
    have hchildren : empty.children p = [] := by
      cases p <;> rfl
    have hparent : empty.parent? n = none := by
      cases n <;> rfl
    rw [hchildren, hparent]
    simp
  nodup_children p := by
    cases p <;> exact List.nodup_nil
  exists_parent n hn hne := by
    have hsize : empty.size = 1 := rfl
    omega
  neighbours p n before after h := by
    have hchildren : empty.children p = [] := by
      cases p <;> rfl
    rw [hchildren] at h
    exact absurd h.symm (List.append_ne_nil_of_right_ne_nil _ (List.cons_ne_nil _ _))
  alone := ⟨rfl, rfl⟩

namespace IsTree

/-- Appending a node keeps the lists and the links in agreement. -/
theorem append (h : IsTree d) {parent : Nat} (hparent : parent < d.size) (content : Content) :
    IsTree (d.append parent content) where
  mem_children p n := by
    rw [children_append hparent, parent?_append hparent]
    have hmem := h.mem_children p n
    by_cases hn : n = d.size
    · -- The new node is a child of `parent` alone.
      have hnot : n ∉ d.children p := fun hc => absurd (child_gt hc).2 (by omega)
      rw [if_pos hn, hn, Option.some_inj]
      split
      · rename_i hp
        simp [hp]
      · rename_i hp
        exact iff_of_false (hn ▸ hnot) fun heq => hp heq.symm
    · rw [if_neg hn, ← hmem]
      split
      · simp [hn]
      · exact Iff.rfl
  nodup_children p := by
    rw [children_append hparent]
    split
    · refine List.nodup_append.mpr ⟨h.nodup_children p, List.nodup_singleton _, ?_⟩
      rintro n hn m hm rfl
      have := (child_gt hn).2
      rw [List.mem_singleton] at hm
      omega
    · exact h.nodup_children p
  exists_parent n hn hne := by
    rw [parent?_append hparent]
    split
    · exact ⟨parent, rfl⟩
    · rw [size_append hparent] at hn
      exact h.exists_parent n (by omega) hne
  neighbours p n before after hsplit := by
    rw [children_append hparent] at hsplit
    split at hsplit
    · rename_i hp
      subst hp
      rcases List.eq_nil_or_concat after with rfl | ⟨front, last, rfl⟩
      · -- The new node itself.
        obtain ⟨hbefore, hn⟩ := List.append_inj' hsplit rfl
        obtain rfl := (List.cons.inj hn).1
        rw [previous?_append hparent, if_pos rfl, next?_append_self hparent, hbefore]
        exact ⟨rfl, rfl⟩
      · rw [List.concat_eq_append, ← List.cons_append, ← List.append_assoc] at hsplit
        obtain ⟨hold, hlast⟩ := List.append_inj' hsplit rfl
        obtain rfl := (List.cons.inj hlast).1
        obtain ⟨hprevious, hnext⟩ := h.neighbours p n before front hold
        have hn : n < d.size := (child_gt (n := p) (by rw [hold]; simp)).2
        rw [previous?_append hparent, if_neg (Nat.ne_of_lt hn), next?_append hparent content hn,
          hold, List.concat_eq_append]
        refine ⟨hprevious, ?_⟩
        cases front with
        | nil => simp
        | cons m front =>
          -- The last child is another one, as no child is listed twice.
          have hnodup := h.nodup_children p
          rw [hold] at hnodup
          have hne : (before ++ n :: m :: front).getLast? ≠ some n := by
            intro hlast
            rw [List.getLast?_append_of_ne_nil _ (List.cons_ne_nil _ _),
              List.getLast?_cons_cons] at hlast
            exact (List.nodup_cons.mp (List.nodup_append.mp hnodup).2.1).1
              (List.mem_of_getLast? hlast)
          rw [if_neg hne, hnext]
          rfl
    · rename_i hp
      obtain ⟨hprevious, hnext⟩ := h.neighbours p n before after hsplit
      have hmem : n ∈ d.children p := by
        rw [hsplit]
        simp
      have hn : n < d.size := (child_gt hmem).2
      have hne : (d.children parent).getLast? ≠ some n := by
        intro hlast
        have hother := (h.mem_children parent n).mp (List.mem_of_getLast? hlast)
        rw [(h.mem_children p n).mp hmem] at hother
        exact hp (Option.some_inj.mp hother)
      rw [previous?_append hparent, if_neg (Nat.ne_of_lt hn), next?_append hparent content hn,
        if_neg hne]
      exact ⟨hprevious, hnext⟩
  alone := by
    have hzero : (0 : Nat) < d.size := by omega
    have hne : (d.children parent).getLast? ≠ some 0 := by
      intro hlast
      have := (child_gt (List.mem_of_getLast? hlast)).1
      omega
    rw [previous?_append hparent, if_neg (Nat.ne_of_lt hzero), next?_append hparent content hzero,
      if_neg hne]
    exact h.alone

end IsTree

/-- Every document that is built by appending is a tree. -/
theorem Built.isTree (h : Built d) : IsTree d := by
  induction h with
  | empty => exact isTree_empty
  | @append d h parent content ih =>
    by_cases hparent : parent < d.size
    · exact ih.append hparent content
    · rw [Document.append, dif_neg hparent]
      exact ih

/-! ### Siblings -/

theorem preceding_eq_cons {n m : Nat} (h : d.previous? n = some m) :
    d.preceding n = m :: d.preceding m := by
  rw [preceding]
  split
  · rename_i hnone
    rw [h] at hnone
    exact absurd hnone (by simp)
  · rename_i hsome
    rw [h] at hsome
    rw [Option.some_inj.mp hsome]

theorem preceding_eq_nil {n : Nat} (h : d.previous? n = none) : d.preceding n = [] := by
  rw [preceding]
  split
  · rfl
  · rename_i hsome
    rw [h] at hsome
    exact absurd hsome (by simp)

/-- The siblings on the left are the children before the node, nearest first. -/
theorem IsTree.preceding_eq (h : IsTree d) {p n : Nat} {before after : List Nat}
    (hsplit : d.children p = before ++ n :: after) : d.preceding n = before.reverse := by
  obtain ⟨hprevious, -⟩ := h.neighbours p n before after hsplit
  induction hlength : before.length generalizing before n after with
  | zero =>
    obtain rfl := List.length_eq_zero_iff.mp hlength
    exact preceding_eq_nil hprevious
  | succ k ih =>
    rcases List.eq_nil_or_concat before with rfl | ⟨front, m, rfl⟩
    · exact absurd hlength (by simp)
    · rw [List.concat_eq_append] at hsplit hprevious hlength ⊢
      rw [List.getLast?_concat] at hprevious
      have hfront : d.children p = front ++ m :: n :: after := by
        rw [hsplit, List.append_assoc]
        rfl
      rw [preceding_eq_cons hprevious, List.reverse_append,
        ih hfront (h.neighbours p m front _ hfront).1 (by simpa using hlength)]
      rfl

/-- A node that stands in no list of children has no neighbours. -/
theorem IsTree.neighbours_of_parent?_eq_none (h : IsTree d) {n : Nat} (hp : d.parent? n = none) :
    d.previous? n = none ∧ d.next? n = none := by
  by_cases hn : n < d.size
  · by_cases hne : n = 0
    · rw [hne]
      exact h.alone
    · obtain ⟨p, hp'⟩ := h.exists_parent n hn hne
      rw [hp'] at hp
      exact absurd hp (by simp)
  · rw [previous?, next?, node?_eq_none (Nat.le_of_not_lt hn)]
    exact ⟨rfl, rfl⟩

/-- A node stands in one list of children, and its siblings on the left are those before it there;
or it stands in none, and has no siblings. -/
theorem IsTree.preceding_cases (h : IsTree d) (n : Nat) :
    (∃ p before after, d.children p = before ++ n :: after ∧ d.preceding n = before.reverse) ∨
      (∀ p, n ∉ d.children p) ∧ d.preceding n = [] := by
  cases hp : d.parent? n with
  | some p =>
    obtain ⟨before, after, hsplit⟩ := List.append_of_mem ((h.mem_children p n).mpr hp)
    exact Or.inl ⟨p, before, after, hsplit, h.preceding_eq hsplit⟩
  | none =>
    refine Or.inr ⟨fun p hmem => ?_, preceding_eq_nil (h.neighbours_of_parent?_eq_none hp).1⟩
    rw [(h.mem_children p n).mp hmem] at hp
    exact absurd hp (by simp)

theorem following_eq_cons {n m : Nat} (h : d.next? n = some m) :
    d.following n = m :: d.following m := by
  rw [following]
  split
  · rename_i hnone
    rw [h] at hnone
    exact absurd hnone (by simp)
  · rename_i hsome
    rw [h] at hsome
    rw [Option.some_inj.mp hsome]

theorem following_eq_nil {n : Nat} (h : d.next? n = none) : d.following n = [] := by
  rw [following]
  split
  · rfl
  · rename_i hsome
    rw [h] at hsome
    exact absurd hsome (by simp)

/-- The siblings on the right are the children behind the node. -/
theorem IsTree.following_eq (h : IsTree d) {p n : Nat} {before after : List Nat}
    (hsplit : d.children p = before ++ n :: after) : d.following n = after := by
  induction after generalizing before n with
  | nil => exact following_eq_nil (h.neighbours p n before [] hsplit).2
  | cons m after ih =>
    have hrest : d.children p = (before ++ [n]) ++ m :: after := by
      rw [hsplit, List.append_assoc]
      rfl
    rw [following_eq_cons (h.neighbours p n before _ hsplit).2, ih hrest]

/-- One node is on the right of another if that one is on its left. -/
theorem IsTree.mem_following_iff (h : IsTree d) {n m : Nat} :
    m ∈ d.following n ↔ n ∈ d.preceding m := by
  constructor
  · intro hm
    cases hp : d.parent? n with
    | some p =>
      obtain ⟨before, after, hsplit⟩ := List.append_of_mem ((h.mem_children p n).mpr hp)
      rw [h.following_eq hsplit] at hm
      obtain ⟨between, rest, rfl⟩ := List.append_of_mem hm
      have hm' : d.children p = (before ++ n :: between) ++ m :: rest := by
        rw [hsplit, List.append_assoc, List.cons_append]
      rw [h.preceding_eq hm', List.mem_reverse]
      exact List.mem_append_right _ (List.mem_cons_self ..)
    | none =>
      rw [following_eq_nil (h.neighbours_of_parent?_eq_none hp).2] at hm
      exact absurd hm List.not_mem_nil
  · intro hn
    rcases h.preceding_cases m with ⟨p, before, after, hsplit, hpreceding⟩ | ⟨-, hpreceding⟩
    · rw [hpreceding, List.mem_reverse] at hn
      obtain ⟨front, between, rfl⟩ := List.append_of_mem hn
      have hn' : d.children p = front ++ n :: (between ++ m :: after) := by
        rw [hsplit, List.append_assoc, List.cons_append]
      rw [h.following_eq hn']
      exact List.mem_append_right _ (List.mem_cons_self ..)
    · rw [hpreceding] at hn
      exact absurd hn List.not_mem_nil

/-! ### The nodes above -/

theorem ancestors_eq_cons {n p : Nat} (h : d.parent? n = some p) :
    d.ancestors n = d.selfAndAncestors p := by
  rw [ancestors, selfAndAncestors]
  split
  · rename_i hnone
    rw [h] at hnone
    exact absurd hnone (by simp)
  · rename_i hsome
    rw [h] at hsome
    rw [Option.some_inj.mp hsome]

theorem ancestors_eq_nil {n : Nat} (h : d.parent? n = none) : d.ancestors n = [] := by
  rw [ancestors]
  split
  · rfl
  · rename_i hsome
    rw [h] at hsome
    exact absurd hsome (by simp)

/-- The nodes above have smaller numbers. -/
theorem lt_of_mem_ancestors {n a : Nat} (h : a ∈ d.ancestors n) : a < n := by
  induction n using Nat.strongRecOn with
  | _ n ih =>
    cases hp : d.parent? n with
    | none =>
      rw [ancestors_eq_nil hp] at h
      exact absurd h List.not_mem_nil
    | some p =>
      rw [ancestors_eq_cons hp] at h
      have hlt := parent_lt hp
      rcases List.mem_cons.mp h with rfl | h
      · exact hlt
      · exact Nat.lt_trans (ih p hlt h) hlt

/-- What is above a node that is above, is above. -/
theorem mem_ancestors_trans {n m a : Nat} (hm : m ∈ d.ancestors n) (ha : a ∈ d.ancestors m) :
    a ∈ d.ancestors n := by
  induction n using Nat.strongRecOn with
  | _ n ih =>
    cases hp : d.parent? n with
    | none =>
      rw [ancestors_eq_nil hp] at hm
      exact absurd hm List.not_mem_nil
    | some p =>
      rw [ancestors_eq_cons hp] at hm ⊢
      rcases List.mem_cons.mp hm with rfl | hm
      · exact List.mem_cons_of_mem _ ha
      · exact List.mem_cons_of_mem _ (ih p (parent_lt hp) hm)

/-- Each step upwards is a step to the parent, and the walk ends where there is none. -/
theorem getElem?_ancestors (d : Document) (n i : Nat) :
    (d.ancestors n)[i]? = (Option.bind · d.parent?)^[i + 1] (some n) := by
  rw [Function.iterate_succ_apply]
  induction i generalizing n with
  | zero =>
    cases hp : d.parent? n with
    | none => simp [ancestors_eq_nil hp, hp]
    | some p => simp [ancestors_eq_cons hp, selfAndAncestors, hp]
  | succ i ih =>
    rw [Function.iterate_succ_apply, Option.bind_some]
    cases hp : d.parent? n with
    | none =>
      rw [ancestors_eq_nil hp, Option.bind_none, Function.iterate_fixed rfl]
      rfl
    | some p =>
      rw [ancestors_eq_cons hp, selfAndAncestors, List.getElem?_cons_succ, ih]

/-- Every walk upwards ends at the document. -/
theorem IsTree.getLast?_ancestors (h : IsTree d) {n : Nat} (hn : n < d.size) (hne : n ≠ 0) :
    (d.ancestors n).getLast? = some 0 := by
  induction n using Nat.strongRecOn with
  | _ n ih =>
    obtain ⟨p, hp⟩ := h.exists_parent n hn hne
    have hlt := parent_lt hp
    rw [ancestors_eq_cons hp, selfAndAncestors]
    by_cases hroot : p = 0
    · have hnone : d.parent? 0 = none := by
        cases hq : d.parent? 0 with
        | none => rfl
        | some q => exact absurd (parent_lt hq) (Nat.not_lt_zero q)
      rw [hroot, ancestors_eq_nil hnone]
      rfl
    · rw [List.getLast?_cons, ih p hlt (by omega) hroot]
      rfl

end Document
end CosmeticFilter
