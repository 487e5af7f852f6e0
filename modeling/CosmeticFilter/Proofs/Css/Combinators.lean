import CosmeticFilter.Css.Matching
import CosmeticFilter.Proofs.Document.Tree
import Mathlib.Logic.Relation

/-!
# What combinators mean

A chain of compounds is met by assigning a node to each of them, so that neighbours stand to each
other as the combinator between them says. The matcher looks for such nodes one after the other, by
the links of the document, and goes back where it cannot go on. It finds an assignment whenever
there is one.

* `Combinator.Relates`: how two nodes stand to each other, by the lists of children alone;
* `mem_candidates_iff`: one step of the matcher;
* `chainHolds_iff`: all steps;
* `selects_iff_exists_assignment`: what a complex selector stands for.
-/

namespace CosmeticFilter
namespace Css

variable {d : Document} {scope : Option Nat}

/-- The nodes stand to each other as the combinator says. -/
def Combinator.Relates (d : Document) (left right : Nat) : Combinator → Prop
  | descendant => Relation.TransGen (fun p n => n ∈ d.children p) left right
  | child => right ∈ d.children left
  | nextSibling =>
    d.isElement left = true ∧ ∃ p before between after,
      d.children p = before ++ left :: (between ++ right :: after) ∧
        ∀ m ∈ between, d.isElement m = false
  | subsequentSibling =>
    d.isElement left = true ∧ ∃ p before between after,
      d.children p = before ++ left :: (between ++ right :: after)

/-! ### One step -/

/-- The nodes above are those from which a way down leads to the node. -/
theorem mem_ancestors_iff (h : d.IsTree) {n m : Nat} :
    m ∈ d.ancestors n ↔ Relation.TransGen (fun p n => n ∈ d.children p) m n := by
  constructor
  · intro hm
    induction n using Nat.strongRecOn with
    | _ n ih =>
      cases hp : d.parent? n with
      | none =>
        rw [Document.ancestors_eq_nil hp] at hm
        exact absurd hm List.not_mem_nil
      | some p =>
        have hstep := (h.mem_children p n).mpr hp
        rw [Document.ancestors_eq_cons hp] at hm
        rcases List.mem_cons.mp hm with rfl | hm
        · exact .single hstep
        · exact .tail (ih p (Document.parent_lt hp) hm) hstep
  · intro hm
    induction hm with
    | single hstep =>
      rw [Document.ancestors_eq_cons ((h.mem_children _ _).mp hstep)]
      exact List.mem_cons_self ..
    | tail _ hstep ih =>
      rw [Document.ancestors_eq_cons ((h.mem_children _ _).mp hstep)]
      exact List.mem_cons_of_mem _ ih

/-- The siblings on the left stand before the node in a list of children. -/
theorem reverse_preceding_eq_iff (h : d.IsTree) {n m : Nat} {before between : List Nat} :
    (d.preceding n).reverse = before ++ m :: between ↔
      ∃ p after, d.children p = before ++ m :: (between ++ n :: after) := by
  constructor
  · intro hleft
    rcases h.preceding_cases n with ⟨p, front, after, hsplit, hpreceding⟩ | ⟨-, hpreceding⟩
    · rw [hpreceding, List.reverse_reverse] at hleft
      refine ⟨p, after, ?_⟩
      rw [hsplit, hleft, List.append_assoc, List.cons_append]
    · rw [hpreceding, List.reverse_nil] at hleft
      exact absurd hleft.symm (List.append_ne_nil_of_right_ne_nil _ (List.cons_ne_nil _ _))
  · rintro ⟨p, after, hsplit⟩
    rw [← List.cons_append, ← List.append_assoc] at hsplit
    rw [h.preceding_eq hsplit, List.reverse_reverse]

/-- The matcher tries the nodes that stand as the combinator says, and no others. -/
theorem mem_candidates_iff (h : d.IsTree) (k : Combinator) {n m : Nat} :
    m ∈ k.candidates d n ↔ k.Relates d m n := by
  cases k with
  | descendant => exact mem_ancestors_iff h
  | child =>
    rw [Combinator.candidates, Option.mem_toList, Combinator.Relates, h.mem_children]
  | nextSibling =>
    rw [Combinator.candidates, Option.mem_toList, Document.previousElement?,
      List.find?_eq_some_iff_append, Combinator.Relates]
    refine and_congr_right fun _ => ?_
    constructor
    · rintro ⟨near, far, hsplit, hnear⟩
      obtain ⟨p, after, hchildren⟩ := (reverse_preceding_eq_iff h).mp
        (show (d.preceding n).reverse = far.reverse ++ m :: near.reverse by simp [hsplit])
      refine ⟨p, far.reverse, near.reverse, after, hchildren, fun x hx => ?_⟩
      simpa using hnear x (List.mem_reverse.mp hx)
    · rintro ⟨p, before, between, after, hchildren, hbetween⟩
      have hleft := (reverse_preceding_eq_iff h).mpr ⟨p, after, hchildren⟩
      refine ⟨between.reverse, before.reverse, ?_, fun x hx => ?_⟩
      · simpa using congrArg List.reverse hleft
      · simpa using hbetween x (List.mem_reverse.mp hx)
  | subsequentSibling =>
    rw [Combinator.candidates, List.mem_filter, and_comm, Combinator.Relates]
    refine and_congr_right fun _ => ?_
    rw [← List.mem_reverse, List.mem_iff_append]
    constructor
    · rintro ⟨before, between, hleft⟩
      obtain ⟨p, after, hchildren⟩ := (reverse_preceding_eq_iff h).mp hleft
      exact ⟨p, before, between, after, hchildren⟩
    · rintro ⟨p, before, between, after, hchildren⟩
      exact ⟨before, between, (reverse_preceding_eq_iff h).mpr ⟨p, after, hchildren⟩⟩

/-! ### All steps -/

/-- Nodes are assigned to the compounds of a chain, the last compound's node first: each meets its
compound, and neighbours stand to each other as the combinator between them says. -/
def IsAssignment (d : Document) (scope : Option Nat) (chain : List (Combinator × Compound))
    (node : Nat → Nat) : Prop :=
  ∀ (i : Nat) (hi : i < chain.length),
    Compound.holdsAt d scope chain[i].2 (node (i + 1)) = true ∧
      chain[i].1.Relates d (node (i + 1)) (node i)

theorem isAssignment_cons {k : Combinator} {c : Compound} {rest : List (Combinator × Compound)}
    {node : Nat → Nat} :
    IsAssignment d scope ((k, c) :: rest) node ↔
      (Compound.holdsAt d scope c (node 1) = true ∧ k.Relates d (node 1) (node 0)) ∧
        IsAssignment d scope rest fun i => node (i + 1) := by
  constructor
  · intro h
    exact ⟨h 0 (Nat.zero_lt_succ _), fun i hi => h (i + 1) (Nat.succ_lt_succ hi)⟩
  · rintro ⟨hfirst, hrest⟩ i hi
    cases i with
    | zero => exact hfirst
    | succ i => exact hrest i (Nat.lt_of_succ_lt_succ hi)

/-- The matcher finds nodes for all compounds exactly if there are such nodes. -/
theorem chainHolds_iff (h : d.IsTree) (chain : List (Combinator × Compound)) (n : Nat) :
    chainHolds d scope chain n = true ↔
      ∃ node : Nat → Nat, node 0 = n ∧ IsAssignment d scope chain node := by
  induction chain generalizing n with
  | nil => exact iff_of_true rfl ⟨fun _ => n, rfl, fun i hi => absurd hi (Nat.not_lt_zero i)⟩
  | cons step rest ih =>
    obtain ⟨k, c⟩ := step
    rw [chainHolds, List.any_eq_true]
    constructor
    · rintro ⟨m, hm, hok⟩
      obtain ⟨hcompound, hchain⟩ := Bool.and_eq_true_iff.mp hok
      obtain ⟨node, rfl, hnode⟩ := (ih m).mp hchain
      refine ⟨fun i => i.casesOn n node, rfl, isAssignment_cons.mpr ⟨⟨hcompound, ?_⟩, hnode⟩⟩
      exact (mem_candidates_iff h k).mp hm
    · rintro ⟨node, rfl, hnode⟩
      obtain ⟨⟨hcompound, hrelates⟩, hrest⟩ := isAssignment_cons.mp hnode
      refine ⟨node 1, (mem_candidates_iff h k).mpr hrelates,
        Bool.and_eq_true_iff.mpr ⟨hcompound, ?_⟩⟩
      exact (ih (node 1)).mpr ⟨fun i => node (i + 1), rfl, hrest⟩

/-- **Matching is what the combinators mean.** A complex selector stands for the elements that meet
its subject and from which nodes can be assigned to the compounds of its chain. -/
theorem selects_iff_exists_assignment (h : d.Built) (scope : Option Nat) (s : Complex) (n : Nat) :
    s.selects d scope n = true ↔
      (d.isElement n = true ∧ Compound.holdsAt d scope s.subject n = true) ∧
        ∃ node : Nat → Nat, node 0 = n ∧ IsAssignment d scope s.chain node := by
  rw [Complex.selects, Bool.and_eq_true_iff, Bool.and_eq_true_iff, chainHolds_iff h.isTree]

/-- A document with an `a` that holds two `b`, one inside the other, and a `c` in the inner one. -/
def nestedElements : Document :=
  (((Document.empty.append 0 (.element ⟨"a".toList, [], []⟩)).append 1
    (.element ⟨"b".toList, [], []⟩)).append 2 (.element ⟨"b".toList, [], []⟩)).append 3
      (.element ⟨"c".toList, [], []⟩)

/-- In `a > b c` the nearest `b` above `c` has no `a` for its parent; the next one has. -/
theorem selects_iff_exists_assignment_nestedElements :
    nestedElements.Built ∧
      ∃ node : Nat → Nat, node 0 = 4 ∧
        IsAssignment nestedElements none
          [(.descendant, [.tag "b".toList]), (.child, [.tag "a".toList])] node := by
  have hbuilt : nestedElements.Built := (((Document.Built.empty.append 0 _).append 1 _).append 2
    _).append 3 _
  have hselects : Complex.selects nestedElements none ⟨[.tag "c".toList],
      [(.descendant, [.tag "b".toList]), (.child, [.tag "a".toList])]⟩ 4 = true := by
    decide +kernel
  exact ⟨hbuilt, ((selects_iff_exists_assignment hbuilt none _ 4).mp hselects).2⟩

end Css
end CosmeticFilter
