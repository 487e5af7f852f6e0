import CosmeticFilter.Proofs.Css.Relative
import CosmeticFilter.Proofs.Extended.NativeArgument
import CosmeticFilter.Proofs.Query.Filters
import CosmeticFilter.Proofs.Query.NearestAncestor
import CosmeticFilter.Proofs.Query.ScopedSearch

/-!
# What `:has()` means

`:has()` keeps a candidate from which its argument finds something. An argument without extensions
is searched for in the whole document, relative to `:scope`, which stands for the candidate. So the
candidate is kept if elements can be assigned to the compounds of the argument, the left-most one
standing to the candidate as the combinator in front says.

The argument is searched for as the builder has kept it. In a name, a blank outside ASCII is a
character for the reader of native selectors and a blank for the builder, which makes a space of it
and so two compounds of one; where the argument is still read natively as it was written,
`:has()` means what it says.

* `findsAny_fragment_iff`: what a native argument finds from a candidate;
* `exists_single_of_listText`: an argument that stands for one selector is one fragment;
* `all_has`: what `*:has()` finds;
* `not_all_has`: an argument whose name has a blank outside ASCII.
-/

namespace CosmeticFilter
namespace Query

open Css (IsMatch IsPlain relative startsWithCombinator)
open Extended (IsSeed Node Selector isNativeBranch readAll pseudosText)

variable {p : Page} {t g : Text} {x : Css.Complex}

/-! ### Native arguments -/

theorem alternatives_ne_nil {s : Css.Selector} (h : Css.Selector.ofText t = .ok s) :
    s.alternatives ≠ [] := by
  obtain ⟨-, hparts⟩ := Css.ofText_eq_ok.mp h
  intro hnil
  rw [hnil, List.forall₂_nil_right_iff] at hparts
  exact Nesting.split_ne_nil _ _ _ _ hparts

/-- An argument without extensions that stands for one selector is one fragment. -/
theorem exists_single_of_listText {s : Extended.Scope} (hplain : IsPlain t)
    {bs : List (List Node)} (hread : readAll s t = .ok bs)
    (hnative : bs.all isNativeBranch = true)
    (h : Css.Selector.ofText (Node.listText bs) = .ok ⟨[x]⟩) :
    ∃ g, bs = [[.fragment g]] ∧ Css.Selector.ofText g = .ok ⟨[x]⟩ := by
  obtain ⟨fs, rfl⟩ := exists_nativeBranches hnative
  obtain ⟨ss, hss, hjoined⟩ := exists_ofText_listText hplain hread
  have hone : ss.flatMap Css.Selector.alternatives = [x] :=
    congrArg Css.Selector.alternatives (Except.ok.inj (hjoined.symm.trans h))
  cases hss with
  | nil => exact absurd hone (by simp)
  | @cons g s gs ss hg hgs =>
    cases hgs with
    | nil =>
      rw [listText_single] at h
      exact ⟨g, rfl, h⟩
    | @cons g' s' gs ss hg' _ =>
      -- two fragments stand for two selectors at least
      have hlength := congrArg List.length hone
      have hfirst := List.length_pos_iff.mpr (alternatives_ne_nil hg)
      have hsecond := List.length_pos_iff.mpr (alternatives_ne_nil hg')
      rw [List.flatMap_cons, List.flatMap_cons, List.length_append, List.length_append,
        List.length_singleton] at hlength
      omega

/-- A fragment finds something from a candidate if its search does. -/
theorem findsAny_fragment {s : Css.Selector}
    (h : Css.Selector.ofText (Continuation.relativeSelector g) = .ok s) (e : Nat) :
    findsAny p (.element e) [[.fragment g]] = !(p.select s e).isEmpty := by
  have hbranch : evalBranch p (.element e) [.fragment g] = .ok (p.select s e) := by
    rw [evalBranch_fragment (by simp), search, Continuation.follow_eq h]
    rfl
  rw [findsAny, findsAny, hbranch, Bool.or_false]

/-- **What a native argument finds from an element**: something, if there is a match whose left-most
element stands to it as the combinator in front says. -/
theorem findsAny_fragment_iff (hp : p.document.Built) (hg : Css.Selector.ofText g = .ok ⟨[x]⟩)
    (hsubject : Css.IsUnscoped (relative g x).2.subject)
    (hchain : ∀ q ∈ (relative g x).2.chain, Css.IsUnscoped q.2 ∧ q.2 ≠ []) {e : Nat}
    (he : p.document.isElement e = true) :
    findsAny p (.element e) [[.fragment g]] = true ↔
      ∃ node : Nat → Nat, IsMatch p.document (relative g x).2 node ∧
        (relative g x).1.Relates p.document e (node (relative g x).2.chain.length) := by
  have hanchored : ((relative g x).2.behindScope (relative g x).1).isAnchored = true := by
    simp [Css.Complex.isAnchored, Css.Complex.compounds, Css.Complex.behindScope]
  rw [findsAny_fragment (Css.ofText_relativeSelector_eq hg), Bool.not_eq_true',
    List.isEmpty_eq_false_iff_exists_mem]
  simp only [mem_select_scope hp hanchored (ne_zero_of_isElement hp he),
    Css.selects_behindScope_iff hp.isTree hsubject hchain]
  constructor
  · rintro ⟨n, node, -, hnode⟩
    exact ⟨node, hnode⟩
  · rintro ⟨node, hnode⟩
    exact ⟨_, node, rfl, hnode⟩

/-! ### `:has()` -/

/-- The asterisk in front of a pseudo-class. -/
theorem isSeed_asterisk : IsSeed ['*'] ['*'] := by
  refine ⟨by decide +kernel, fun c hc => ?_, rfl⟩
  rw [← Option.some_inj.mp hc]
  decide

/-- **What `*:has()` finds.** The argument is read without extensions and, by itself, as one native
selector; the builder has kept it as a text that is read natively in the same way. Then the elements
are found, in document order and each once, to which the left-most element of a match stands as the
combinator in front says; and without a combinator in front all of the match is below them. -/
theorem all_has (hp : p.document.Built) (hplain : IsPlain t)
    (hscope : ¬ ":scope".toList <:+: Text.lower t) {bs : List (List Node)}
    (hread : Selector.ofText ("*:has(".toList ++ t ++ ")".toList) =
      .ok ⟨[[.fragment "*".toList, .nested .has bs]]⟩)
    (hnative : bs.all isNativeBranch = true) (hx : Css.Selector.ofText t = .ok ⟨[x]⟩)
    (hkept : Css.Selector.ofText (Node.listText bs) = Css.Selector.ofText t)
    {k : Css.Combinator} {y : Css.Complex} (hrelative : relative t x = (k, y)) :
    ∃ found, all p ⟨[[.fragment "*".toList, .nested .has bs]]⟩ = .ok found ∧
      found.Pairwise p.document.Precedes ∧ found.Nodup ∧
      (∀ e, e ∈ found ↔ p.document.isElement e = true ∧
        ∃ node : Nat → Nat, IsMatch p.document y node ∧
          k.Relates p.document e (node y.chain.length)) ∧
      (startsWithCombinator t = false → ∀ e node, IsMatch p.document y node →
        k.Relates p.document e (node y.chain.length) →
          ∀ i ≤ y.chain.length, p.document.isBelow (node i) e = true) := by
  have htext : "*:has(".toList ++ t ++ ")".toList = ['*'] ++ pseudosText [(.has, t)] :=
    Extended.append_pseudoText .has (S := ['*']) (t := ":has(".toList) (A := t) rfl
  rw [htext, Selector.ofText_eq_ok] at hread
  have hfills := isSeed_asterisk.fills hread
  obtain ⟨as, has, heq⟩ := isSeed_asterisk.readAll_pseudo rfl hfills hread
  obtain rfl : bs = as := by simpa using heq
  obtain ⟨g, rfl, hg⟩ := exists_single_of_listText hplain has hnative (hkept.trans hx)
  have hsame : relative g x = (k, y) :=
    (Css.relative_congr (Extended.head?_of_readAll has) x).trans hrelative
  obtain ⟨-, -, hcomplex⟩ := Css.ofText_eq_singleton_iff.mp hx
  obtain ⟨⟨hsubject, -⟩, hchain⟩ := Css.isUnscoped_relative hplain hscope hcomplex
  rw [hrelative] at hsubject hchain
  have hstar : Css.Selector.ofText "*".toList = .ok ⟨[⟨[.universal], []⟩]⟩ := by decide +kernel
  have hnodup : (p.select ⟨[⟨[.universal], []⟩]⟩ 0).Nodup :=
    (hp.isTree.nodup_descendants _).filter _
  refine ⟨_, all_filters hstar (.cons (filters_has [[.fragment g]]) .nil), ?_, ?_, fun e => ?_, ?_⟩
  · rw [eraseDups_of_nodup hnodup]
    exact ((hp.isTree.pairwise_descendants _).filter _).filter _
  · rw [eraseDups_of_nodup hnodup]
    exact hnodup.filter _
  · rw [List.mem_filter, List.mem_eraseDups, mem_select_document hp, selects_universal]
    refine and_congr_right fun he => ?_
    have hfinds := findsAny_fragment_iff hp hg (by rwa [hsame]) (by rwa [hsame]) he
    rw [hsame] at hfinds
    rw [List.all_cons, List.all_nil, Bool.and_true]
    exact hfinds
  · intro hbare e node hmatch hrelates
    have hk : k = .descendant := by
      have hfst := Css.relative_fst_of_not_isCombinator hbare x
      rwa [hrelative] at hfst
    subst hk
    exact hmatch.isBelow hp.isTree ((Css.mem_ancestors_iff hp.isTree).mpr hrelates)

/-- The box has a link for a child. -/
theorem all_has_linkInBox :
    ∃ found, all (.ofDocument linkInBox)
        ⟨[[.fragment "*".toList, .nested .has [[.fragment "> a".toList]]]]⟩ = .ok found ∧
      1 ∈ found := by
  have hread : Selector.ofText ("*:has(".toList ++ "> a".toList ++ ")".toList) =
      .ok ⟨[[.fragment "*".toList, .nested .has [[.fragment "> a".toList]]]]⟩ := by decide +kernel
  obtain ⟨found, hfound, -, -, hmem, -⟩ := all_has (p := .ofDocument linkInBox)
    (x := ⟨[.tag "a".toList], [(.child, [.pseudo .scope])]⟩)
    ((Document.Built.empty.append 0 _).append 1 _) (by decide)
    (by rw [← Text.occursIn_iff]; decide) hread (by decide)
    (by decide +kernel) (by decide +kernel) (k := .child) (y := ⟨[.tag "a".toList], []⟩) (by decide)
  refine ⟨found, hfound, (hmem 1).mpr ⟨by decide, fun _ => 2, ⟨?_, by decide, ?_⟩, ?_⟩⟩
  · exact fun _ _ => by decide
  · exact fun i hi => absurd hi (Nat.not_lt_zero i)
  · show 2 ∈ linkInBox.children 1
    decide

/-- An element in a box whose name has a blank that is no space. -/
def spacedName : Document :=
  (Document.empty.append 0 (.element ⟨"div".toList, [], []⟩)).append 1
    (.element ⟨"a\u00a0b".toList, [], []⟩)

/-- The builder takes the blank in the name for one between two compounds. -/
theorem not_all_has :
    ¬ ∀ (p : Page) (t : Text) (bs : List (List Node)) (x : Css.Complex), p.document.Built →
      IsPlain t → ¬ ":scope".toList <:+: Text.lower t →
      Selector.ofText ("*:has(".toList ++ t ++ ")".toList) =
        .ok ⟨[[.fragment "*".toList, .nested .has bs]]⟩ →
      bs.all isNativeBranch = true → Css.Selector.ofText t = .ok ⟨[x]⟩ →
      ∀ k y, relative t x = (k, y) →
        ∃ found, all p ⟨[[.fragment "*".toList, .nested .has bs]]⟩ = .ok found ∧
          ∀ e, e ∈ found ↔ p.document.isElement e = true ∧
            ∃ node : Nat → Nat, IsMatch p.document y node ∧
              k.Relates p.document e (node y.chain.length) := by
  intro h
  obtain ⟨found, hfound, hmem⟩ := h (.ofDocument spacedName) "a\u00a0b".toList
    [[.fragment "a b".toList]] ⟨[.tag "a\u00a0b".toList], []⟩
    ((Document.Built.empty.append 0 _).append 1 _) (by decide)
    (by rw [← Text.occursIn_iff]; decide) (by decide +kernel) (by decide)
    (by decide +kernel) .descendant ⟨[.tag "a\u00a0b".toList], []⟩ (by decide)
  have hnone : all (.ofDocument spacedName) ⟨[[.fragment "*".toList,
      .nested .has [[.fragment "a b".toList]]]]⟩ = .ok [] := by decide +kernel
  obtain rfl := Except.ok.inj (hnone.symm.trans hfound)
  refine List.not_mem_nil ((hmem 1).mpr ⟨by decide, fun _ => 2, ⟨?_, by decide, ?_⟩, ?_⟩)
  · exact fun _ _ => by decide
  · exact fun i hi => absurd hi (Nat.not_lt_zero i)
  · refine .single ?_
    show 2 ∈ spacedName.children 1
    decide

end Query
end CosmeticFilter
