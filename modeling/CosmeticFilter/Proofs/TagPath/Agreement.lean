import CosmeticFilter.Proofs.Document.Loaded
import CosmeticFilter.Proofs.Query.TwoSteps
import CosmeticFilter.Proofs.TagPath.XPath
import Mathlib.Data.List.Sort

/-!
# Two languages for one path

A path of tag names can be asked for as a native selector and as an XPath expression. The native
selector is matched from the right: every element is tried, and the matcher walks up and to the
left, back and forth. The expression is evaluated from the left: the set of all nodes that have been
reached is moved along one axis after the other. Both come to the same elements, because after every
step the set holds the elements that the part of the selector up to there stands for, and because an
axis leads from a node to another exactly if the combinator leads back.

An expression lists its nodes by their numbers and a selector lists its elements in document order.
In a document that has been loaded that is the same order, so the lists are equal too.

* `mem_candidates_of_link`: the axes of a link lead forth where its combinator leads back;
* `finds_stepsOf`: what is found after any number of steps;
* `finds_select`: the set that the expression comes to;
* `query_eq_xpath`: both languages list the same elements in the same order.
-/

namespace CosmeticFilter

variable {d : Document}

/-! ### One node -/

/-- The element passes the node test if it meets the condition of the compound. -/
theorem TagTest.passes_eq_holdsAt (test : TagTest) (d : Document) (n : Nat) :
    test.nodeTest.passes d n = Css.Compound.holdsAt d none [test.simple] n := by
  cases test with
  | any =>
    show (d.element? n).isSome = ((d.element? n).any (fun _ => true) && true)
    cases d.element? n <;> rfl
  | name tag => exact (Bool.and_true _).symm

theorem TagTest.isElement_of_passes {test : TagTest} {n : Nat}
    (h : test.nodeTest.passes d n = true) : d.isElement n = true := by
  cases test with
  | any => exact h
  | name tag =>
    obtain ⟨e, he, -⟩ := (Option.any_eq_true _ _).mp h
    exact Option.isSome_iff_exists.mpr ⟨e, he⟩

namespace TagPath

open Css (Combinator Compound chainHolds)

variable {left : List (Combinator × Compound)} {ns : List Nat} {m n : Nat}

theorem selects_iff {test : TagTest} :
    Css.Complex.selects d none ⟨[test.simple], left⟩ n = true ↔
      test.nodeTest.passes d n = true ∧ chainHolds d none left n = true := by
  rw [Css.Complex.selects, ← test.passes_eq_holdsAt, Bool.and_eq_true, Bool.and_eq_true]
  exact ⟨fun h => ⟨h.1.2, h.2⟩, fun h => ⟨⟨TagTest.isElement_of_passes h.1, h.1⟩, h.2⟩⟩

/-- A selector with one more step stands for what the combinator leads back from. -/
theorem selects_cons {k : Combinator} {test next : TagTest} :
    Css.Complex.selects d none ⟨[next.simple], (k, [test.simple]) :: left⟩ m = true ↔
      (∃ n, Css.Complex.selects d none ⟨[test.simple], left⟩ n = true ∧ n ∈ k.candidates d m) ∧
        next.nodeTest.passes d m = true := by
  rw [selects_iff, and_comm]
  refine and_congr_left fun _ => ?_
  rw [chainHolds, List.any_eq_true]
  refine exists_congr fun n => ?_
  rw [and_comm, selects_iff, Bool.and_eq_true, test.passes_eq_holdsAt]

/-! ### One step -/

/-- A step without predicates leads to the nodes on its axis that pass its test. -/
theorem mem_selectAll {axis : Axis} {test : NodeTest} :
    m ∈ Step.selectAll d ns ⟨axis, test, []⟩ ↔
      (∃ n, n ∈ ns ∧ m ∈ axis.nodes d n) ∧ test.passes d m = true := by
  have hselect : ∀ n, m ∈ Step.select d ⟨axis, test, []⟩ n ↔
      m ∈ axis.nodes d n ∧ test.passes d m = true := fun n => List.mem_filter
  rw [Step.selectAll, NodeSet.mem_ofList, List.mem_flatMap, ← exists_and_right]
  exact exists_congr fun n => by rw [hselect, and_assoc]

/-- What stands above a node is its parent or stands above that. -/
theorem mem_ancestors_iff_exists_parent :
    n ∈ d.ancestors m ↔ ∃ k, n ∈ d.selfAndAncestors k ∧ d.parent? m = some k := by
  cases hp : d.parent? m with
  | none => simp [Document.ancestors_eq_nil hp]
  | some p => simp [Document.ancestors_eq_cons hp]

/-- The axes of a link lead forth to the nodes from which its combinator leads back. The combinator
passes over siblings that are no elements, so there have to be none. -/
theorem mem_candidates_of_link (h : d.IsTree) (link : TagLink) {test : NodeTest}
    (hns : link = .sibling → ∀ n ∈ ns, d.isElement n = true) :
    m ∈ (link.steps test).foldl (Step.selectAll d) ns ↔
      (∃ n, n ∈ ns ∧ n ∈ link.combinator.candidates d m) ∧ test.passes d m = true := by
  cases link with
  | descendant =>
    show m ∈ Step.selectAll d (Step.selectAll d ns ⟨.descendantOrSelf, .node, []⟩)
      ⟨.child, test, []⟩ ↔ (∃ n, n ∈ ns ∧ n ∈ d.ancestors m) ∧ test.passes d m = true
    rw [mem_selectAll]
    refine and_congr_left fun _ => ?_
    constructor
    · rintro ⟨k, hk, hm⟩
      obtain ⟨⟨n, hn, hnk⟩, -⟩ := mem_selectAll.mp hk
      exact ⟨n, hn, mem_ancestors_iff_exists_parent.mpr
        ⟨k, h.mem_cons_descendants_iff.mp hnk, (h.mem_children k m).mp hm⟩⟩
    · rintro ⟨n, hn, hm⟩
      obtain ⟨k, hk, hp⟩ := mem_ancestors_iff_exists_parent.mp hm
      exact ⟨k, mem_selectAll.mpr ⟨⟨n, hn, h.mem_cons_descendants_iff.mpr hk⟩, rfl⟩,
        (h.mem_children k m).mpr hp⟩
  | child =>
    show m ∈ Step.selectAll d ns ⟨.child, test, []⟩ ↔
      (∃ n, n ∈ ns ∧ n ∈ (d.parent? m).toList) ∧ test.passes d m = true
    rw [mem_selectAll]
    refine and_congr_left fun _ => exists_congr fun n => and_congr_right fun _ => ?_
    rw [Option.mem_toList]
    exact h.mem_children n m
  | sibling =>
    show m ∈ Step.selectAll d ns ⟨.followingSibling, test, []⟩ ↔
      (∃ n, n ∈ ns ∧ n ∈ (d.preceding m).filter d.isElement) ∧ test.passes d m = true
    rw [mem_selectAll]
    refine and_congr_left fun _ => exists_congr fun n => and_congr_right fun hn => ?_
    rw [List.mem_filter, and_iff_left (hns rfl n hn)]
    exact h.mem_following_iff

/-! ### All steps -/

/-- The nodes are those that the selector stands for. -/
def Finds (d : Document) (ns : List Nat) (x : Css.Complex) : Prop :=
  ∀ n, n ∈ ns ↔ x.selects d none n = true

/-- One more step on both sides. -/
theorem Finds.step (h : d.IsTree) {test : TagTest} (hns : Finds d ns ⟨[test.simple], left⟩)
    (link : TagLink) (next : TagTest) :
    Finds d ((link.steps next.nodeTest).foldl (Step.selectAll d) ns)
      ⟨[next.simple], (link.combinator, [test.simple]) :: left⟩ := by
  intro m
  have helements : ∀ n ∈ ns, d.isElement n = true := fun n hn =>
    TagTest.isElement_of_passes (selects_iff.mp ((hns n).mp hn)).1
  rw [mem_candidates_of_link h link fun _ => helements, selects_cons]
  refine and_congr_left fun _ => exists_congr fun n => and_congr_left fun _ => hns n

/-- After any number of steps, the set holds what the selector stands for that has been read up to
there. -/
theorem finds_stepsOf (h : d.IsTree) {test : TagTest} (hns : Finds d ns ⟨[test.simple], left⟩)
    (rest : List (TagLink × TagTest)) :
    Finds d ((stepsOf rest).foldl (Step.selectAll d) ns) (complexFrom left test rest) := by
  induction rest generalizing ns left test with
  | nil => exact hns
  | cons step rest ih =>
    obtain ⟨link, next⟩ := step
    rw [stepsOf, List.flatMap_cons, List.foldl_append]
    exact ih (hns.step h link next)

/-- Every element stands below the document. -/
theorem finds_first (h : d.Built) (test : TagTest) :
    Finds d ((TagLink.descendant.steps test.nodeTest).foldl (Step.selectAll d) [0])
      ⟨[test.simple], []⟩ := by
  intro m
  rw [mem_candidates_of_link h.isTree .descendant (fun hsibling => absurd hsibling (by simp)),
    selects_iff, and_comm]
  refine and_congr_right fun hpasses => iff_of_true ⟨0, List.mem_singleton_self 0, ?_⟩ rfl
  have helement := TagTest.isElement_of_passes hpasses
  have hne : m ≠ 0 := Query.ne_zero_of_isElement (p := .ofDocument d) h helement
  exact List.mem_of_getLast?
    (h.isTree.getLast?_ancestors (Document.lt_size_of_isElement helement) hne)

/-- The set that the expression comes to, whatever node it starts from. -/
theorem finds_select (h : d.Built) (c : TagPath) (context : Nat) :
    Finds d (LocationPath.select d context ⟨true, c.steps⟩) c.complex := by
  show Finds d ((stepsOf ((.descendant, c.first) :: c.rest)).foldl (Step.selectAll d) [0]) _
  rw [stepsOf, List.flatMap_cons, List.foldl_append]
  exact finds_stepsOf h.isTree (finds_first h c.first) c.rest

/-! ### Both languages -/

theorem query_eq_ok (p : Page) (c : TagPath) (root : Nat) :
    p.query c.native root = .ok (p.select ⟨[c.complex]⟩ root) := by
  rw [Page.query, Page.readSelector, ofText_native]
  rfl

theorem xpath_eq_ok (p : Page) (c : TagPath) (context : Nat) :
    p.xpath c.xpath context =
      .ok ((XPath.select p.document context ⟨[⟨true, c.steps⟩]⟩).filter p.document.isElement) := by
  rw [Page.xpath, ofText_xpath]

/-- Every node of the set is an element, so nothing is left out in the end. -/
theorem mem_xpath_iff (h : d.Built) (c : TagPath) (context : Nat) :
    n ∈ (XPath.select d context ⟨[⟨true, c.steps⟩]⟩).filter d.isElement ↔
      c.complex.selects d none n = true := by
  rw [List.mem_filter, XPath.select, NodeSet.mem_ofList, List.flatMap_singleton,
    finds_select h c context]
  exact and_iff_left_of_imp (Query.isElement_of_selects (p := .ofDocument d))

/-- **Native selectors and XPath expressions agree on paths of tag names.** In a document that has
been loaded, both forms of a path are good, and they list the same elements in the same order. -/
theorem query_eq_xpath (f : Fixture) (styles : List KnownStyle) (c : TagPath) :
    ∃ ns, Page.query ⟨.ofFixture f, styles⟩ c.native 0 = .ok ns ∧
      Page.xpath ⟨.ofFixture f, styles⟩ c.xpath 0 = .ok ns := by
  have hbuilt := Document.built_ofFixture f
  refine ⟨_, query_eq_ok _ c 0, (xpath_eq_ok _ c 0).trans (congrArg Except.ok ?_)⟩
  have hquery : (Page.select ⟨.ofFixture f, styles⟩ ⟨[c.complex]⟩ 0).Pairwise (· < ·) :=
    (Document.pairwise_descendants_ofFixture f _).filter _
  have hxpath : ((XPath.select (.ofFixture f) 0 ⟨[⟨true, c.steps⟩]⟩).filter
      (Document.isElement (.ofFixture f))).Pairwise (· < ·) :=
    (NodeSet.pairwise_ofList _).filter _
  refine hxpath.eq_of_mem_iff hquery fun n => ?_
  rw [mem_xpath_iff hbuilt c 0, Query.mem_select_root hbuilt]

end TagPath
end CosmeticFilter
