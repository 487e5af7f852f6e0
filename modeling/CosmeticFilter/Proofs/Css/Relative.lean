import CosmeticFilter.Proofs.Css.Combinators
import CosmeticFilter.Proofs.Css.ReadAlike
import CosmeticFilter.Proofs.Css.Scope
import CosmeticFilter.Proofs.Document.Order
import CosmeticFilter.Query.Continuation

/-!
# Relative selectors

A selector relative to an element says how its left-most compound stands to that element: as the
combinator in front says, and as a descendant if there is none. It is searched for as a selector
whose chain ends with `:scope`. The matcher comes to `:scope` last, after it has found elements for
all compounds from right to left, so what it finds are the assignments of elements whose left-most
one stands to the scope as it should. Neither going down nor going to a later sibling leads out of
what is below an element, so without a combinator in front the whole match is found there.

* `relative`: the combinator in front, and the selector behind it;
* `ofText_relativeSelector_eq`: the selector that is searched for;
* `IsMatch`: elements assigned to the compounds of a selector;
* `selects_behindScope_iff`: a relative selector stands for the matches that start at the scope;
* `IsMatch.isBelow`: a match that starts below an element is below it.
-/

namespace CosmeticFilter
namespace Css

variable {d : Document} {t g : Text} {x y : Complex} {k : Combinator}

/-! ### Reading -/

/-- The selector with `:scope` to its left. -/
def Complex.behindScope (k : Combinator) (y : Complex) : Complex :=
  ⟨y.subject, y.chain ++ [(k, [.pseudo .scope])]⟩

/-- How the left-most compound of a selector stands to the element that it is relative to, and the
selector alone. A selector with a combinator in front is read with `:scope` at the end of its chain;
this is not one of its compounds. -/
def relative (t : Text) (x : Complex) : Combinator × Complex :=
  match (Text.trim t).head?.bind Combinator.ofChar? with
  | some k => (k, ⟨x.subject, x.chain.dropLast⟩)
  | none => (.descendant, x)

theorem relative_congr (h : (Text.trim g).head? = (Text.trim t).head?) (x : Complex) :
    relative g x = relative t x := by
  unfold relative
  rw [h]

/-- What is read of a selector: the compounds behind the combinator in front, if there is one. -/
inductive IsRelative (t : Text) (x : Complex) : Prop where
  /-- With a combinator in front. -/
  | led {c : Char} {r : Text} {k : Combinator} {y : Complex} : Text.trim t = c :: r →
      Combinator.ofChar? c = some k → readChain [] (Text.trimStart r) = .ok y →
      x = y.behindScope k → relative t x = (k, y) → IsRelative t x
  /-- Without one. -/
  | bare {c : Char} {r : Text} : Text.trim t = c :: r → isCombinator c = false →
      readChain [] (Text.trim t) = .ok x → relative t x = (.descendant, x) → IsRelative t x

theorem isRelative_of_ofText (h : Complex.ofText t = .ok x) : IsRelative t x := by
  unfold Complex.ofText at h
  cases htrim : Text.trim t with
  | nil =>
    rw [htrim] at h
    exact absurd h (by simp)
  | cons c r =>
    rw [htrim] at h
    simp only at h
    cases hc : Combinator.ofChar? c with
    | some k =>
      rw [hc] at h
      simp only at h
      rw [← List.nil_append [_], readChain_left] at h
      obtain ⟨y, hy, rfl⟩ := Outcome.map_eq_ok.mp h
      refine .led htrim hc hy rfl ?_
      simp [relative, htrim, hc]
    | none =>
      rw [hc] at h
      simp only at h
      have hplain : isCombinator c = false := by
        rw [← Combinator.ofChar?_isSome, hc]
        rfl
      refine .bare htrim hplain (htrim ▸ h) ?_
      simp [relative, htrim, hc]

/-- A compound alone is relative to what is above. -/
theorem relative_compound {c : Compound} (h : Complex.ofText t = .ok ⟨c, []⟩) :
    relative t ⟨c, []⟩ = (.descendant, ⟨c, []⟩) := by
  cases isRelative_of_ofText h with
  | led _ _ _ hx _ => exact absurd (congrArg Complex.chain hx) (by simp [Complex.behindScope])
  | bare _ _ _ hrelative => exact hrelative

/-- A selector with nothing in front is relative to what is above. -/
theorem relative_fst_of_not_isCombinator (h : (Text.trim t).head?.any isCombinator = false)
    (x : Complex) : (relative t x).1 = .descendant := by
  unfold relative
  cases hhead : (Text.trim t).head? with
  | none => rfl
  | some c =>
    rw [hhead, Option.any_some, ← Combinator.ofChar?_isSome] at h
    simp [Option.not_isSome_iff_eq_none.mp (by rw [h]; exact Bool.false_ne_true)]

/-- Without `:scope` in the text, none of its compounds asks for it. -/
theorem isUnscoped_relative (ht : IsPlain t) (hscope : ¬ ":scope".toList <:+: Text.lower t)
    (h : Complex.ofText t = .ok x) :
    (IsUnscoped (relative t x).2.subject ∧ (relative t x).2.subject ≠ []) ∧
      ∀ p ∈ (relative t x).2.chain, IsUnscoped p.2 ∧ p.2 ≠ [] := by
  have hpart : ∀ r, r <:+: t → IsPlain r ∧ ¬ ":scope".toList <:+: Text.lower r := fun r hr =>
    ⟨fun c hc => ht c (hr.subset hc), fun hin => hscope (hin.trans (hr.map Char.toLower))⟩
  have htrim := Text.infix_trim t
  cases isRelative_of_ofText h with
  | @led c r k y heq _ hread _ hrel =>
    rw [hrel]
    have hr : Text.trimStart r <:+: t := by
      refine List.IsInfix.trans ?_ htrim
      rw [heq]
      exact ((List.dropWhile_suffix _).trans (List.suffix_cons c r)).isInfix
    obtain ⟨hplain, hnone⟩ := hpart _ hr
    exact isUnscoped_of_readChain hplain hnone hread
  | bare _ _ hread hrel =>
    rw [hrel]
    obtain ⟨hplain, hnone⟩ := hpart _ htrim
    exact isUnscoped_of_readChain hplain hnone hread

/-- **The selector that is searched for** relative to an element. -/
theorem ofText_relativeSelector_eq (h : Selector.ofText t = .ok ⟨[x]⟩) :
    Selector.ofText (Continuation.relativeSelector t) =
      .ok ⟨[(relative t x).2.behindScope (relative t x).1]⟩ := by
  have htrim := (ofText_trim t).trans h
  obtain ⟨-, -, hread⟩ := ofText_eq_singleton_iff.mp h
  unfold Continuation.relativeSelector
  cases isRelative_of_ofText hread with
  | led heq hk _ hx hrel =>
    rw [if_pos, hrel, htrim, hx]
    rw [heq, List.head?_cons, Option.any_some, ← Combinator.ofChar?_isSome, hk]
    rfl
  | @bare c r heq hc hchain hrel =>
    have hne : (":scope ".toList ++ Text.trim t) ≠ [] := by simp
    have htrimmed :
        Text.trim (":scope ".toList ++ Text.trim t) = ":scope ".toList ++ Text.trim t := by
      refine Text.trim_eq_self (fun e he => ?_) fun e he => ?_
      · rw [← Option.some_inj.mp he]
        decide
      rw [List.getLast?_append_of_ne_nil _ (by rw [heq]; exact List.cons_ne_nil _ _)] at he
      exact Text.not_blank_of_getLast?_trim he
    have hscope : Nesting.top.after .roundAndSquare ":scope ".toList = .top := by decide
    obtain ⟨hclosed, hcut, -⟩ := ofText_eq_singleton_iff.mp htrim
    rw [if_neg, hrel, ofText_eq_single htrimmed (by simp [isCombinator])]
    · refine ⟨?_, ?_, hne, ?_⟩
      · rw [Nesting.after_append, hscope]
        exact hclosed
      · rw [Nesting.cut_append_of_none (by decide), hscope, hcut]
        rfl
      · rw [readChain_scope]
        rw [readOn_descendant hc (r := r)]
        · show readChain ([] ++ [_]) (c :: r) = _
          rw [readChain_left, ← heq, hchain]
          rfl
        · rw [Text.trimStart_cons_of_blank (by decide), heq]
          refine Text.trimStart_cons_of_not_blank ?_ r
          exact Text.not_blank_of_head?_trim (t := t) (by rw [heq]; rfl)
        · intro hhead
          have hblank := Text.not_blank_of_head?_trim (t := t) (c := c) (by rw [heq]; rfl)
          rw [← Option.some_inj.mp hhead] at hblank
          exact absurd hblank (by decide)
    · rw [heq, List.head?_cons, Option.any_some, hc]
      exact Bool.false_ne_true

/-! ### Matching -/

/-- Elements are assigned to the compounds of a selector, that of the subject first: each meets its
compound, and neighbours stand to each other as the combinator between them says. -/
structure IsMatch (d : Document) (y : Complex) (node : Nat → Nat) : Prop where
  /-- They are elements. -/
  elements : ∀ i ≤ y.chain.length, d.isElement (node i) = true
  /-- The first one meets the subject. -/
  subject : Compound.holdsAt d none y.subject (node 0) = true
  /-- The others meet the compounds to the left. -/
  chain : IsAssignment d none y.chain node

/-- The nodes that a chain leads to are the last ones of its assignments. -/
theorem mem_chainEnds_iff (h : d.IsTree) {chain : List (Combinator × Compound)} {n m : Nat} :
    m ∈ chainEnds d none chain n ↔
      ∃ node : Nat → Nat, node 0 = n ∧ node chain.length = m ∧ IsAssignment d none chain node := by
  induction chain generalizing n with
  | nil =>
    rw [chainEnds, List.mem_singleton]
    constructor
    · rintro rfl
      exact ⟨fun _ => m, rfl, rfl, fun i hi => absurd hi (Nat.not_lt_zero i)⟩
    · rintro ⟨node, rfl, rfl, -⟩
      rfl
  | cons step rest ih =>
    obtain ⟨k, c⟩ := step
    rw [chainEnds, List.mem_flatMap]
    constructor
    · rintro ⟨l, hl, hm⟩
      obtain ⟨hcandidate, hholds⟩ := List.mem_filter.mp hl
      obtain ⟨node, rfl, rfl, hnode⟩ := ih.mp hm
      refine ⟨fun i => i.casesOn n node, rfl, rfl, isAssignment_cons.mpr ⟨⟨hholds, ?_⟩, hnode⟩⟩
      exact (mem_candidates_iff h k).mp hcandidate
    · rintro ⟨node, rfl, rfl, hnode⟩
      obtain ⟨⟨hholds, hrelates⟩, hrest⟩ := isAssignment_cons.mp hnode
      refine ⟨node 1, List.mem_filter.mpr ⟨(mem_candidates_iff h k).mpr hrelates, hholds⟩, ?_⟩
      exact ih.mpr ⟨fun i => node (i + 1), rfl, rfl, hrest⟩

/-- The nodes of an assignment are elements if no compound asks for `:scope`. -/
theorem isElement_of_isAssignment {chain : List (Combinator × Compound)} {node : Nat → Nat}
    (hchain : ∀ p ∈ chain, IsUnscoped p.2 ∧ p.2 ≠ []) (h : IsAssignment d none chain node)
    (hfirst : d.isElement (node 0) = true) : ∀ i ≤ chain.length, d.isElement (node i) = true := by
  intro i hi
  cases i with
  | zero => exact hfirst
  | succ i =>
    obtain ⟨hunscoped, hne⟩ := hchain chain[i] (List.getElem_mem hi)
    exact isElement_of_holdsAt hunscoped hne (h i hi).1

/-- **What a relative selector stands for**: the subjects of the matches whose left-most element
stands to the scope as the combinator in front says. -/
theorem selects_behindScope_iff (h : d.IsTree)
    (hsubject : IsUnscoped y.subject) (hchain : ∀ p ∈ y.chain, IsUnscoped p.2 ∧ p.2 ≠ [])
    (e n : Nat) :
    (y.behindScope k).selects d (some e) n = true ↔
      ∃ node : Nat → Nat, node 0 = n ∧ IsMatch d y node ∧ k.Relates d e (node y.chain.length) := by
  simp only [Complex.behindScope, Complex.selects, chainHolds_append,
    chainEnds_of_isUnscoped fun p hp => (hchain p hp).1, compound_holdsAt_of_isUnscoped hsubject,
    Bool.and_eq_true, List.any_eq_true, chainHolds, holdsAt_scope_iff, and_true,
    mem_chainEnds_iff h, mem_candidates_iff h]
  constructor
  · rintro ⟨⟨helement, hholds⟩, m, ⟨node, rfl, rfl, hnode⟩, l, hrelates, rfl⟩
    exact ⟨node, rfl, ⟨isElement_of_isAssignment hchain hnode helement, hholds, hnode⟩, hrelates⟩
  · rintro ⟨node, rfl, hmatch, hrelates⟩
    exact ⟨⟨hmatch.elements 0 (Nat.zero_le _), hmatch.subject⟩, _, ⟨node, rfl, rfl, hmatch.chain⟩,
      e, hrelates, rfl⟩

/-! ### Where matches are found -/

/-- Siblings are below the same nodes. -/
theorem ancestors_eq_of_mem_children (h : d.IsTree) {p m n : Nat} (hm : m ∈ d.children p)
    (hn : n ∈ d.children p) : d.ancestors m = d.ancestors n := by
  rw [Document.ancestors_eq_cons ((h.mem_children p m).mp hm),
    Document.ancestors_eq_cons ((h.mem_children p n).mp hn)]

/-- No combinator leads out of what is below a node. -/
theorem Combinator.Relates.mem_ancestors (h : d.IsTree) {m n e : Nat} (hrelates : k.Relates d m n)
    (he : e ∈ d.ancestors m) : e ∈ d.ancestors n := by
  cases k with
  | descendant => exact Document.mem_ancestors_trans ((mem_ancestors_iff h).mpr hrelates) he
  | child => exact Document.mem_ancestors_trans ((mem_ancestors_iff h).mpr (.single hrelates)) he
  | nextSibling =>
    obtain ⟨-, p, before, between, after, hchildren, -⟩ := hrelates
    rwa [← ancestors_eq_of_mem_children (m := m) (n := n) h (p := p) (by simp [hchildren])
      (by simp [hchildren])]
  | subsequentSibling =>
    obtain ⟨-, p, before, between, after, hchildren⟩ := hrelates
    rwa [← ancestors_eq_of_mem_children (m := m) (n := n) h (p := p) (by simp [hchildren])
      (by simp [hchildren])]

/-- A match whose left-most element is below a node is below it as a whole. -/
theorem IsMatch.isBelow (h : d.IsTree) {node : Nat → Nat} (hmatch : IsMatch d y node) {e : Nat}
    (hlast : e ∈ d.ancestors (node y.chain.length)) :
    ∀ i ≤ y.chain.length, d.isBelow (node i) e = true := by
  -- from the left-most element to the subject, as the chain is counted from the subject
  intro i hi
  rw [Document.isBelow_iff]
  induction hi using Nat.decreasingInduction with
  | self => exact hlast
  | of_succ i hi ih => exact (hmatch.chain i hi).2.mem_ancestors h ih

end Css
end CosmeticFilter
