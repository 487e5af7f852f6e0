import CosmeticFilter.Proofs.Document.Subtree
import CosmeticFilter.Proofs.Query.NativePath

/-!
# Searching from a root

A search from a root binds `:scope` to it and looks below it. A selector that refers to `:scope`, by
name or because it starts with a combinator, is looked for in the whole document, as it may stand
for elements that are not below the root; and the document itself has no scope of its own, so from
there `:scope` is the document element. Where the search begins is decided once for a list. Without
`:scope` the root does not count for the matching, only for where the search begins.

* `isAnchored_of_startsWithCombinator`: relative selectors refer to `:scope`;
* `IsAsked`: what the branches of a list ask for from a root;
* `query_finds`: what a search finds;
* `AsDocumented`, `not_query_finds`: what is documented about it, which is less, and something else
  from the document;
* `selects_of_not_isAnchored`: selectors that do not refer to `:scope`;
* `select_of_not_isAnchored`: what they find is a part of what is found from the document.
-/

namespace CosmeticFilter
namespace Css

variable {d : Document}

/-! ### Selectors with and without `:scope` -/

/-- The selector is relative: a combinator stands in front. -/
def startsWithCombinator (t : Text) : Bool := (Text.trim t).head?.any isCombinator

/-- A combinator in front refers to `:scope`. -/
theorem isAnchored_of_startsWithCombinator {t : Text} {s : Complex}
    (ht : startsWithCombinator t = true) (h : Complex.ofText t = .ok s) : s.isAnchored = true := by
  unfold startsWithCombinator at ht
  unfold Complex.ofText at h
  cases htrim : Text.trim t with
  | nil => rw [htrim] at ht; exact absurd ht (by simp)
  | cons c r =>
    rw [htrim, List.head?_cons, Option.any_some, ← Combinator.ofChar?_isSome] at ht
    obtain ⟨k, hk⟩ := Option.isSome_iff_exists.mp ht
    rw [htrim] at h
    simp only [hk] at h
    rw [← List.nil_append [_], readChain_left] at h
    obtain ⟨x, -, rfl⟩ := Outcome.map_eq_ok.mp h
    simp [Complex.isAnchored, Complex.compounds]

theorem isUnscoped_of_not_isAnchored {s : Complex} (h : s.isAnchored = false) :
    IsUnscoped s.subject ∧ ∀ p ∈ s.chain, IsUnscoped p.2 := by
  rw [Complex.isAnchored, List.any_eq_false] at h
  have hcompound : ∀ c ∈ s.compounds, IsUnscoped c := fun c hc hmem =>
    h c hc (List.contains_iff_mem.mpr hmem)
  exact ⟨hcompound _ List.mem_cons_self,
    fun p hp => hcompound _ (List.mem_cons_of_mem _ (List.mem_map_of_mem hp))⟩

theorem chainHolds_of_isUnscoped {scope : Option Nat} {l : List (Combinator × Compound)}
    (hl : ∀ p ∈ l, IsUnscoped p.2) (n : Nat) : chainHolds d scope l n = chainHolds d none l n := by
  rw [← List.append_nil l, chainHolds_append, chainHolds_append, chainEnds_of_isUnscoped hl]
  rfl

/-- Without `:scope` it does not count which node is the scope. -/
theorem selects_of_not_isAnchored {s : Selector} (hs : s.isAnchored = false)
    (scope scope' : Option Nat) (n : Nat) : s.selects d scope n = s.selects d scope' n := by
  have hnone : ∀ scope, ∀ b ∈ s.alternatives, b.selects d scope n = b.selects d none n := by
    intro scope b hb
    rw [Selector.isAnchored, List.any_eq_false] at hs
    obtain ⟨hsubject, hchain⟩ := isUnscoped_of_not_isAnchored (Bool.not_eq_true _ ▸ hs b hb)
    rw [Complex.selects, Complex.selects, compound_holdsAt_of_isUnscoped hsubject,
      chainHolds_of_isUnscoped hchain]
  rw [Bool.eq_iff_iff, Selector.selects, Selector.selects, List.any_eq_true, List.any_eq_true]
  refine exists_congr fun b => and_congr_right fun hb => ?_
  rw [hnone scope b hb, hnone scope' b hb]

end Css

namespace Query

open Css (startsWithCombinator)

variable {p : Page} {t : Text} {s : Css.Selector}

theorem query_eq (ht : Css.Selector.ofText t = .ok s) (root : Nat) :
    p.query t root = .ok (p.select s root) := by
  unfold Page.query Page.readSelector
  rw [ht]
  rfl

/-! ### What a search finds -/

/-- One of the branches asks for the element: it matches, with `:scope` bound to the root or, from
the document, to the document element; and it refers to `:scope`, or the element stands below the
root. -/
def IsAsked (p : Page) (t : Text) (root n : Nat) : Prop :=
  ∃ part ∈ Css.parts t, ∃ b, Css.Complex.ofText part = .ok b ∧
    b.selects p.document (Page.scopeOf root) n = true ∧
    (b.isAnchored = true ∨ p.document.isBelow n root = true)

theorem mem_select_iff {root n : Nat} :
    n ∈ p.select s root ↔
      n ∈ p.document.descendants (if s.isAnchored then 0 else root) ∧
        ∃ b ∈ s.alternatives, b.selects p.document (Page.scopeOf root) n = true := by
  unfold Page.select Css.Selector.selects
  rw [List.mem_filter, List.any_eq_true]

/-- Every element that is asked for is found. -/
theorem mem_select_of_isAsked (hp : p.document.Built) (ht : Css.Selector.ofText t = .ok s)
    {root n : Nat} (h : IsAsked p t root n) : n ∈ p.select s root := by
  obtain ⟨part, hpart, b, hread, hselects, hplace⟩ := h
  have hb := (Css.mem_alternatives_iff ht).mpr ⟨part, hpart, hread⟩
  refine mem_select_iff.mpr ⟨?_, b, hb, hselects⟩
  cases hanchored : s.isAnchored with
  | true => exact mem_descendants_of_isElement hp (isElement_of_selects hselects)
  | false =>
    rw [Css.Selector.isAnchored, List.any_eq_false] at hanchored
    rw [if_neg Bool.false_ne_true, hp.isTree.mem_descendants_iff]
    exact Document.isBelow_iff.mp (hplace.resolve_left (hanchored b hb))

/-- Whatever is found is asked for, if the place where the search begins fits all branches. -/
theorem isAsked_of_mem_select (hp : p.document.Built) (ht : Css.Selector.ofText t = .ok s)
    {root n : Nat} (hfits : root = 0 ∨ ∀ b ∈ s.alternatives, b.isAnchored = s.isAnchored)
    (h : n ∈ p.select s root) : IsAsked p t root n := by
  obtain ⟨hn, b, hb, hselects⟩ := mem_select_iff.mp h
  obtain ⟨part, hpart, hread⟩ := (Css.mem_alternatives_iff ht).mp hb
  refine ⟨part, hpart, b, hread, hselects, ?_⟩
  rcases hfits with rfl | hfits
  · rw [ite_self] at hn
    exact .inr (hp.isBelow_document hn)
  · rw [hfits b hb]
    cases hanchored : s.isAnchored with
    | true => exact .inl rfl
    | false =>
      rw [hanchored, if_neg Bool.false_ne_true, hp.isTree.mem_descendants_iff] at hn
      exact .inr (Document.isBelow_iff.mpr hn)

/-- **Searching from a root.** A selector that is read gives a list of elements in document order,
none of them twice. All elements that a branch asks for are in it, and each of its elements matches
one of the branches. If the branches all refer to `:scope` or if none of them does, and always from
the document, nothing else is in it than what is asked for. -/
theorem query_finds (hp : p.document.Built) (ht : Css.Selector.ofText t = .ok s) (root : Nat) :
    ∃ found, p.query t root = .ok found ∧ found.Pairwise p.document.Precedes ∧ found.Nodup ∧
      (∀ n, IsAsked p t root n → n ∈ found) ∧
      (∀ n ∈ found, ∃ part ∈ Css.parts t, ∃ b, Css.Complex.ofText part = .ok b ∧
        b.selects p.document (Page.scopeOf root) n = true) ∧
      ((root = 0 ∨ ∀ b ∈ s.alternatives, b.isAnchored = s.isAnchored) →
        ∀ n, n ∈ found ↔ IsAsked p t root n) := by
  refine ⟨p.select s root, query_eq ht root, (hp.isTree.pairwise_descendants _).filter _,
    (hp.isTree.nodup_descendants _).filter _, fun n => mem_select_of_isAsked hp ht, ?_,
    fun hfits n => ⟨isAsked_of_mem_select hp ht hfits, mem_select_of_isAsked hp ht⟩⟩
  intro n hn
  obtain ⟨-, b, hb, hselects⟩ := mem_select_iff.mp hn
  obtain ⟨part, hpart, hread⟩ := (Css.mem_alternatives_iff ht).mp hb
  exact ⟨part, hpart, b, hread, hselects⟩

/-- Three elements, each the only child of the one before. -/
def nestedElements : Document :=
  ((Document.empty.append 0 (.element ⟨"a".toList, [], []⟩)).append 1
    (.element ⟨"b".toList, [], []⟩)).append 2 (.element ⟨"i".toList, [], []⟩)

theorem built_nestedElements : nestedElements.Built :=
  ((Document.Built.empty.append 0 _).append 1 _).append 2 _

/-- The children of an element: both branches refer to `:scope`. -/
theorem query_finds_children :
    ∃ found, (Page.ofDocument nestedElements).query "> b, :scope > i".toList 1 = .ok found ∧
      ∀ n, n ∈ found ↔ IsAsked (.ofDocument nestedElements) "> b, :scope > i".toList 1 n := by
  let s : Css.Selector := ⟨[⟨[.tag "b".toList], [(.child, [.pseudo .scope])]⟩,
    ⟨[.tag "i".toList], [(.child, [.pseudo .scope])]⟩]⟩
  have hread : Css.Selector.ofText "> b, :scope > i".toList = .ok s := by decide +kernel
  obtain ⟨found, hfound, -, -, -, -, hexact⟩ :=
    query_finds (p := .ofDocument nestedElements) built_nestedElements hread 1
  exact ⟨found, hfound, hexact (.inr (by decide))⟩

/-- Where only some branches refer to `:scope`, the others are looked for everywhere as well: the
second branch finds the element above the root. -/
example : (Page.ofDocument nestedElements).query ":scope > i, a".toList 2 = .ok [1, 3] := by
  decide +kernel

/-- What is documented about a search: a branch finds what stands below the root, and other elements
only if it starts with a combinator. -/
def AsDocumented (p : Page) (t : Text) (root n : Nat) : Prop :=
  ∃ part ∈ Css.parts t, ∃ b, Css.Complex.ofText part = .ok b ∧
    b.selects p.document (some root) n = true ∧
    (startsWithCombinator part = true ∨ p.document.isBelow n root = true)

/-- All that is documented is asked for, except from the document. -/
theorem AsDocumented.isAsked {root n : Nat} (hroot : root ≠ 0) (h : AsDocumented p t root n) :
    IsAsked p t root n := by
  obtain ⟨part, hpart, b, hread, hselects, hplace⟩ := h
  refine ⟨part, hpart, b, hread, ?_, hplace.imp_left fun hlead =>
    Css.isAnchored_of_startsWithCombinator hlead hread⟩
  rwa [Page.scopeOf, if_neg hroot]

/-- The scope itself is found by its name, and from the document the document element is no
child of the scope. -/
theorem not_query_finds :
    (¬ ∀ (p : Page) (t : Text) (root : Nat) (found : List Nat), p.document.Built →
        root < p.document.size → root ≠ 0 → p.query t root = .ok found →
          ∀ n, n ∈ found ↔ AsDocumented p t root n) ∧
      ¬ ∀ (p : Page) (t : Text) (found : List Nat), p.document.Built →
        p.query t 0 = .ok found → ∀ n, n ∈ found ↔ AsDocumented p t 0 n := by
  constructor
  · intro h
    have hquery : (Page.ofDocument nestedElements).query ":scope".toList 1 = .ok [1] := by
      decide +kernel
    obtain ⟨part, hpart, b, -, -, hplace⟩ := (h _ _ 1 _ built_nestedElements (by decide)
      (by decide) hquery 1).mp (List.mem_singleton_self 1)
    rw [show Css.parts ":scope".toList = [":scope".toList] by decide, List.mem_singleton] at hpart
    subst hpart
    revert hplace
    decide +kernel
  · intro h
    have hquery : (Page.ofDocument nestedElements).query "> a".toList 0 = .ok [] := by
      decide +kernel
    have hmem := (h _ _ _ built_nestedElements hquery 1).mpr ⟨"> a".toList, by decide,
      ⟨[.tag "a".toList], [(.child, [.pseudo .scope])]⟩, by decide +kernel, by decide +kernel,
      .inl (by decide +kernel)⟩
    exact absurd hmem List.not_mem_nil

/-! ### Selectors without `:scope` -/

/-- **Selectors that do not refer to `:scope`.** They are matched alike whatever the scope is, and
from a root they find those of the elements found from the document that stand below the root. -/
theorem select_of_not_isAnchored (hp : p.document.Built) (hs : s.isAnchored = false) :
    (∀ scope scope' n, s.selects p.document scope n = s.selects p.document scope' n) ∧
      (∀ root, p.select s root = (p.select s 0).filter fun n => p.document.isBelow n root) ∧
      ∀ t, Css.Selector.ofText t = .ok s → ∃ found, p.query t 0 = .ok found ∧
        ∀ root, p.query t root = .ok (found.filter fun n => p.document.isBelow n root) := by
  have hscope := Css.selects_of_not_isAnchored (d := p.document) hs
  have hselect : ∀ root,
      p.select s root = (p.select s 0).filter fun n => p.document.isBelow n root := by
    intro root
    unfold Page.select
    rw [hs, if_neg Bool.false_ne_true, if_neg Bool.false_ne_true, hp.descendants_eq_filter root,
      List.filter_filter, List.filter_filter]
    exact List.filter_congr fun n _ => by rw [Bool.and_comm, hscope _ (Page.scopeOf 0)]
  refine ⟨hscope, hselect, fun t ht => ⟨p.select s 0, query_eq ht 0, fun root => ?_⟩⟩
  rw [query_eq ht, hselect root]

/-- The element above the root still takes part in the match. -/
theorem select_of_not_isAnchored_above :
    (⟨[⟨[.tag "i".toList], [(.descendant, [.tag "a".toList])]⟩]⟩ :
        Css.Selector).isAnchored = false ∧
      (Page.ofDocument nestedElements).query "a i".toList 2 = .ok [3] ∧
      ∃ found, (Page.ofDocument nestedElements).query "a i".toList 0 = .ok found ∧
        (Page.ofDocument nestedElements).query "a i".toList 2 =
          .ok (found.filter fun n => nestedElements.isBelow n 2) := by
  have hs : (⟨[⟨[.tag "i".toList], [(.descendant, [.tag "a".toList])]⟩]⟩ :
    Css.Selector).isAnchored = false := by decide
  obtain ⟨found, hfound, hall⟩ := (select_of_not_isAnchored (p := .ofDocument nestedElements)
    built_nestedElements hs).2.2 "a i".toList (by decide +kernel)
  exact ⟨hs, by decide +kernel, found, hfound, hall 2⟩

end Query
end CosmeticFilter
