import CosmeticFilter.Proofs.Document.Order
import CosmeticFilter.Proofs.Document.Parents
import CosmeticFilter.Proofs.Extended.Characters
import CosmeticFilter.Proofs.Query.NativePath

/-!
# The nearest ancestor that an argument finds

`:upward()` with a selector leads from a candidate to the nearest element above it that the selector
stands for. It is evaluated in one of two ways. If the argument has no extensions, the page is asked
for the nearest match at or above the parent, with the branches joined to one text again; otherwise
the argument is evaluated once for the document, and the parents are looked up one after the other.
In a loaded document both lead to the same element: the first one in the list of ancestors that is
among the elements the argument finds.

* `find?_ancestors_eq_some_iff`: what such a search leads to;
* `nearestAbove?_eq`, `nearestMatching?_eq`: both ways as a search in the list of ancestors;
* `evalArgument_native`: what an argument without extensions finds;
* `mem_evalArgument`: an argument finds what its branches find that do not fail;
* `applyNode_upward`: what `:upward()` leads to.
-/

namespace CosmeticFilter
namespace Query

open Extended (Draft Name Node Scope readAll)

variable {p : Page} {d : Document}

/-- A search in the list of ancestors leads to the node above that passes the test and is below all
others that do. -/
theorem find?_ancestors_eq_some_iff {test : Nat → Bool} {n m : Nat} :
    (d.ancestors n).find? test = some m ↔
      test m = true ∧ d.isBelow n m = true ∧
        ∀ a, test a = true → d.isBelow n a = true → ¬ d.isBelow a m = true := by
  have hfirst : ∀ {m}, (d.ancestors n).find? test = some m → test m = true ∧
      m ∈ d.ancestors n ∧ ∀ a ∈ d.ancestors n, test a = true → m ∉ d.ancestors a := by
    intro m h
    obtain ⟨hm, before, after, heq, hbefore⟩ := List.find?_eq_some_iff_append.mp h
    refine ⟨hm, by simp [heq], fun a ha htest hbelow => ?_⟩
    have hpairwise := d.pairwise_ancestors n
    rw [heq] at ha hpairwise
    rcases List.mem_append.mp ha with ha | ha
    · have hnot := hbefore a ha
      rw [htest] at hnot
      exact absurd hnot (by simp)
    · rcases List.mem_cons.mp ha with rfl | ha
      · exact Nat.lt_irrefl _ (Document.lt_of_mem_ancestors hbelow)
      · -- what follows in the list is above
        have habove := List.rel_of_pairwise_cons (List.pairwise_append.mp hpairwise).2.1 ha
        exact Nat.lt_asymm (Document.lt_of_mem_ancestors hbelow)
          (Document.lt_of_mem_ancestors (Document.isBelow_iff.mp habove))
  simp only [Document.isBelow_iff]
  constructor
  · intro h
    obtain ⟨hm, hmem, hnearest⟩ := hfirst h
    exact ⟨hm, hmem, fun a htest ha => hnearest a ha htest⟩
  · rintro ⟨hm, hmem, hnearest⟩
    cases hfind : (d.ancestors n).find? test with
    | none => exact absurd hm (by simpa using List.find?_eq_none.mp hfind m hmem)
    | some a =>
      obtain ⟨ha, hmem', hnearest'⟩ := hfirst hfind
      rcases Document.ancestors_comparable hmem hmem' with rfl | h | h
      · rfl
      · exact absurd h (hnearest a ha hmem')
      · exact absurd h (hnearest' m hmem hm)

/-- The nearest element above a node that is one of those listed is the first such ancestor. -/
theorem nearestAbove?_eq (h : d.HasElementParents) (hroot : d.isElement 0 = false)
    (listed : List Nat) (n : Nat) :
    nearestAbove? d listed n =
      (d.ancestors n).find? fun m => d.isElement m && listed.contains m := by
  induction n using Nat.strongRecOn with
  | _ n ih =>
    rw [nearestAbove?]
    split
    · rename_i hnone
      refine (List.find?_eq_none.mpr fun m hm => ?_).symm
      rw [h.ancestors_of_parentElement?_eq_none hnone m hm, hroot, Bool.false_and]
      exact Bool.false_ne_true
    · rename_i m hm
      obtain ⟨hparent, helement⟩ := Option.filter_eq_some_iff.mp hm
      rw [Document.ancestors_eq_cons hparent, Document.selfAndAncestors, List.find?_cons, helement,
        Bool.true_and, ih m (Document.parent_lt hparent)]
      cases listed.contains m <;> rfl

/-- The nearest match at or above the parent is the first ancestor that matches. -/
theorem nearestMatching?_eq (h : p.document.HasElementParents)
    (hroot : p.document.isElement 0 = false) {t : Text} {s : Css.Selector}
    (ht : Css.Selector.ofText t = .ok s) (n : Nat) :
    nearestMatching? p t n = (p.document.ancestors n).find? (s.selects p.document none) := by
  have hclosest : ∀ m, p.closest? t m =
      .ok ((p.document.selfAndAncestors m).find? (s.selects p.document none)) := fun m => by
    unfold Page.closest? Page.readSelector
    rw [ht]
    rfl
  unfold nearestMatching?
  cases hm : p.document.parentElement? n with
  | none =>
    refine (List.find?_eq_none.mpr fun m hm' hselects => ?_).symm
    obtain ⟨x, -, hx⟩ := List.any_eq_true.mp hselects
    have helement := isElement_of_selects hx
    rw [h.ancestors_of_parentElement?_eq_none hm m hm', hroot] at helement
    exact Bool.false_ne_true helement
  | some m =>
    obtain ⟨hparent, -⟩ := Option.filter_eq_some_iff.mp hm
    rw [Document.ancestors_eq_cons hparent]
    simp only [hclosest]

/-- Without extensions, `:upward()` leads from each candidate to the first ancestor that the
argument stands for. -/
theorem applyNode_upward_of_native (h : p.document.HasElementParents)
    (hroot : p.document.isElement 0 = false) {branches : List (List Node)}
    (hnative : branches.all Extended.isNativeBranch = true) {s : Css.Selector}
    (hs : Css.Selector.ofText (Node.listText branches) = .ok s) (candidates : List Nat) :
    applyNode p candidates (.nested .upward branches) =
      .ok (candidates.filterMap fun n =>
        (p.document.ancestors n).find? (s.selects p.document none)) := by
  rw [applyNode]
  show (if branches.all Extended.isNativeBranch then _ else _) = _
  rw [if_pos hnative]
  exact congrArg Except.ok (List.filterMap_congr fun n _ => nearestMatching?_eq h hroot hs n)

/-! ### What an argument finds -/

theorem evalArgument_native {fs : List Text} {ss : List Css.Selector} (h : AreRead fs ss) :
    evalArgument p (nativeBranches fs) = ss.flatMap (p.select · 0) := by
  induction h with
  | nil => rfl
  | @cons f s fs ss hf _ ih =>
    show evalArgument p ([.fragment f] :: nativeBranches fs) = _
    rw [evalArgument, evalBranch_native hf, ih]
    rfl

/-- A branch that fails finds nothing, and takes nothing from the others. -/
theorem mem_evalArgument {branches : List (List Node)} {n : Nat} :
    n ∈ evalArgument p branches ↔
      ∃ b ∈ branches, ∃ found, evalBranch p .document b = .ok found ∧ n ∈ found := by
  induction branches with
  | nil => simp [evalArgument]
  | cons b r ih =>
    rw [evalArgument, List.mem_append, ih, List.exists_mem_cons_iff]
    refine or_congr_left ?_
    cases evalBranch p .document b with
    | error e => simp
    | ok found => simp

/-- The branches of an argument without backslashes and without extensions are read again from the
text that they are joined to. -/
theorem exists_ofText_listText {s : Scope} {L : Text} (hplain : Css.IsPlain L) {fs : List Text}
    (hread : readAll s L = .ok (nativeBranches fs)) :
    ∃ ss, AreRead fs ss ∧ Css.Selector.ofText (Node.listText (nativeBranches fs)) =
      .ok ⟨ss.flatMap Css.Selector.alternatives⟩ := by
  obtain ⟨hne, hcomplete⟩ := Extended.isComplete_of_readAll hread
  obtain ⟨ss, hss⟩ : ∃ ss, AreRead fs ss := Css.exists_forall₂ fun f hf =>
    ((hcomplete _ (List.mem_map_of_mem hf)).isAdmitted _ (List.mem_singleton_self _)).exists_ofText
  have hfs : ∀ f ∈ fs, Css.IsPlain f := fun f hf =>
    Extended.forall_mem_fragment_of_readAll hread (by decide) (by decide) hplain _
      (List.mem_map_of_mem hf) f (List.mem_singleton_self _)
  exact ⟨ss, hss, ofText_listText hss (fun hnil => hne (by rw [hnil]; rfl)) fun f hf =>
    Css.endsInEscape_of_plain (hfs f (List.dropLast_subset fs hf))⟩

/-! ### `:upward()` -/

/-- An argument that is read as branches is a text that is read as them. -/
theorem readAll_of_nodeOf {s : Scope} {name : Name} {L : Text} {branches : List (List Node)}
    (h : Draft.nodeOf readAll s name L = .ok (.nested name branches)) :
    readAll (s.inside name) L = .ok branches := by
  unfold Draft.nodeOf at h
  split at h
  · split at h <;> exact absurd h (by simp)
  · obtain ⟨bs, hbs, heq⟩ := Outcome.map_eq_ok.mp h
    rw [← (Node.nested.inj heq).2, hbs]

/-- **Where `:upward()` leads**: for each candidate, in order, to the first of its ancestors that is
an element and among those that the argument finds in the document, whether the argument has
extensions or not. What the argument finds is what its branches find; one that fails finds
nothing. -/
theorem applyNode_upward {f : Fixture} (hp : p.document = .ofFixture f) {L : Text}
    (hplain : Css.IsPlain L) {s : Scope} {branches : List (List Node)}
    (hread : Draft.nodeOf readAll s .upward L = .ok (.nested .upward branches))
    (candidates : List Nat) :
    applyNode p candidates (.nested .upward branches) =
      .ok (candidates.filterMap fun n => (p.document.ancestors n).find? fun m =>
        p.document.isElement m && (evalArgument p branches).contains m) ∧
    ∀ m, m ∈ evalArgument p branches ↔
      ∃ b ∈ branches, ∃ found, evalBranch p .document b = .ok found ∧ m ∈ found := by
  have hbuilt : p.document.Built := hp ▸ Document.built_ofFixture f
  have hparents : p.document.HasElementParents := hp ▸ Document.hasElementParents_ofFixture f
  refine ⟨?_, fun m => mem_evalArgument⟩
  cases hnative : branches.all Extended.isNativeBranch with
  | true =>
    obtain ⟨fs, rfl⟩ := exists_nativeBranches hnative
    obtain ⟨ss, hss, hjoined⟩ := exists_ofText_listText hplain (readAll_of_nodeOf hread)
    rw [evalArgument_native hss,
      applyNode_upward_of_native hparents hbuilt.not_isElement_zero hnative hjoined]
    refine congrArg Except.ok (List.filterMap_congr fun n _ => ?_)
    -- what one of the alternatives stands for is an element, and one that the branches find
    refine congrArg (fun test => List.find? test _) (funext fun m => Bool.eq_iff_iff.mpr ?_)
    rw [Bool.and_eq_true, List.contains_iff_mem, mem_flatMap_select hbuilt]
    refine ⟨fun h => ⟨?_, h⟩, And.right⟩
    obtain ⟨x, -, hx⟩ := List.any_eq_true.mp h
    exact isElement_of_selects hx
  | false =>
    rw [applyNode]
    show (if branches.all Extended.isNativeBranch then _ else _) = _
    rw [hnative, if_neg Bool.false_ne_true]
    refine congrArg Except.ok (List.filterMap_congr fun n _ => ?_)
    exact nearestAbove?_eq hparents hbuilt.not_isElement_zero _ n

/-- A section in an article: of a link in it, the article is the nearest ancestor with a section. -/
def sectionInArticle : Fixture :=
  .element ⟨"article".toList, [], []⟩
    [.element ⟨"section".toList, [], []⟩ [.element ⟨"a".toList, [], []⟩ []]]

theorem applyNode_upward_sectionInArticle :
    applyNode (.ofDocument (.ofFixture sectionInArticle)) [3, 1, 2] (.nested .upward
      [[.fragment "article".toList, .nested .has [[.fragment "section".toList]]],
        [.fragment "p".toList]]) = .ok [1, 1] := by
  have hread : Draft.nodeOf readAll .top .upward "article:has(section), p".toList =
      .ok (.nested .upward [[.fragment "article".toList,
        .nested .has [[.fragment "section".toList]]], [.fragment "p".toList]]) := by decide +kernel
  rw [(applyNode_upward (p := .ofDocument (.ofFixture sectionInArticle)) rfl (by decide) hread _).1]
  decide +kernel

end Query
end CosmeticFilter
