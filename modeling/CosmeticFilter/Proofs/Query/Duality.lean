import CosmeticFilter.Proofs.Extended.Uninterrupted
import CosmeticFilter.Proofs.Query.RelativeMatch

/-!
# Looking up and looking down

`T:upward(S)` starts from what `T` stands for and goes up to the nearest element that `S` stands
for; `S:has(T)` starts from what `S` stands for and looks down for an element that `T` stands for.
Both need a pair of an element of `T` below an element of `S`, so all that the first finds is found
by the second. Going up stops at the first element of `S`, so the second finds more: those elements
of `S` that are cut off from all elements of `T` below them by other elements of `S`. Where elements
of `S` are not nested, both find the same.

This is said of texts that are still read natively as they are when the builder has shortened the
runs of blanks in them. A blank outside ASCII is a character of a name for the reader of native
selectors; the builder makes a space of it in front of a pseudo-class and in an argument, and so two
compounds of one. Then an element may be found by a selector that stands for none.

* `exists_all_upward`, `exists_all_has`: what is found going up, and looking down;
* `all_upward_iff_all_has`: how they are related;
* `not_all_upward_iff_all_has`: a name with a blank outside ASCII.
-/

namespace CosmeticFilter
namespace Query

open Css (IsPlain relative)
open Extended (IsUnextended Node Selector pseudosText squeeze)

variable {p : Page} {S T f g : Text} {c : Css.Compound} {x y : Css.Complex}

/-! ### Texts that are kept -/

/-- The text is one native selector without blanks around it, and it is still read as that selector
when its runs of blanks are shortened. -/
structure IsKept (t : Text) (x : Css.Complex) : Prop extends IsUnextended t x where
  /-- There are no blanks around it. -/
  trim_eq : Text.trim t = t
  /-- Its copy is the same selector. -/
  read_squeeze : Css.Selector.ofText (squeeze true t) = .ok ⟨[x]⟩

/-- **One in the brackets of a pseudo-class behind the other**, both ways: if both selectors are
accepted, each of them is read as a fragment with that pseudo-class behind it. -/
theorem IsKept.eq_of_ofText (hT : IsKept T y) (hS : IsKept S x) {up down : Selector}
    (hup : Selector.ofText (T ++ pseudosText [(.upward, S)]) = .ok up)
    (hdown : Selector.ofText (S ++ pseudosText [(.has, T)]) = .ok down) :
    up = ⟨[[.fragment (squeeze true T), .nested .upward [[.fragment (squeeze true S)]]]]⟩ ∧
      down = ⟨[[.fragment (squeeze true S), .nested .has [[.fragment (squeeze true T)]]]]⟩ := by
  rw [Selector.ofText_eq_ok] at hup hdown
  have hTread := hT.readAll_of_append hT.trim_eq hS.plain hup
  have hSread := hS.readAll_of_append hS.trim_eq hT.plain hdown
  have hkind := hS.argumentKind_upward hS.trim_eq hSread
  exact ⟨congrArg Selector.mk (hT.eq_of_readAll_append hT.trim_eq hS.toIsUnextended hS.trim_eq hkind
      hTread hSread hup),
    congrArg Selector.mk (hS.eq_of_readAll_append hS.trim_eq hT.toIsUnextended hT.trim_eq rfl
      hSread hTread hdown)⟩

/-! ### Up and down -/

/-- **What is found going up**: the elements of the argument that have an element of the fragment
below them with no other element of the argument in between. -/
theorem exists_all_upward {fx : Fixture} (hp : p.document = .ofFixture fx)
    (hf : Css.Selector.ofText f = .ok ⟨[y]⟩) (hg : Css.Selector.ofText g = .ok ⟨[x]⟩) :
    ∃ found, all p ⟨[[.fragment f, .nested .upward [[.fragment g]]]]⟩ = .ok found ∧
      ∀ e, e ∈ found ↔ x.selects p.document none e = true ∧
        ∃ n, y.selects p.document none n = true ∧ p.document.isBelow n e = true ∧
          ∀ m, x.selects p.document none m = true → p.document.isBelow n m = true →
            ¬ p.document.isBelow m e = true := by
  have hbuilt : p.document.Built := hp ▸ Document.built_ofFixture fx
  have hparents : p.document.HasElementParents := hp ▸ Document.hasElementParents_ofFixture fx
  have hargument : Css.Selector.ofText (Node.listText [[.fragment g]]) = .ok ⟨[x]⟩ :=
    (congrArg Css.Selector.ofText (listText_single g)).trans hg
  have hstep := applyNode_upward_of_native hparents hbuilt.not_isElement_zero rfl hargument
    (p.select ⟨[y]⟩ 0)
  have hbranch : evalBranch p .document [.fragment f, .nested .upward [[.fragment g]]] =
      .ok ((p.select ⟨[y]⟩ 0).filterMap fun n => (p.document.ancestors n).find?
        (Css.Selector.selects p.document none ⟨[x]⟩)).eraseDups := by
    rw [evalBranch_fragment (by simp), search_eq hf]
    refine (applyNodes_cons hstep (fun hnil => ?_) []).trans (by rw [applyNodes])
    rw [hnil, List.filterMap_nil]
  refine ⟨_, all_single hbranch, fun e => ?_⟩
  rw [List.mem_eraseDups, List.mem_eraseDups, List.mem_filterMap]
  simp only [mem_select_document hbuilt, selects_single, find?_ancestors_eq_some_iff]
  constructor
  · rintro ⟨n, hn, he, hbelow, hnearest⟩
    exact ⟨he, n, hn, hbelow, hnearest⟩
  · rintro ⟨he, n, hn, hbelow, hnearest⟩
    exact ⟨n, hn, he, hbelow, hnearest⟩

/-- **What is found looking down**: the elements of the fragment that have an element of the
argument below them. -/
theorem exists_all_has (hp : p.document.Built) (hg : Css.Selector.ofText g = .ok ⟨[x]⟩)
    (hf : Css.Selector.ofText f = .ok ⟨[⟨c, []⟩]⟩) (hunscoped : Css.IsUnscoped c)
    (hrelative : relative f ⟨c, []⟩ = (.descendant, ⟨c, []⟩)) :
    ∃ found, all p ⟨[[.fragment g, .nested .has [[.fragment f]]]]⟩ = .ok found ∧
      ∀ e, e ∈ found ↔ x.selects p.document none e = true ∧
        ∃ n, Css.Complex.selects p.document none ⟨c, []⟩ n = true ∧
          p.document.isBelow n e = true := by
  refine ⟨_, all_filters hg (.cons (filters_has [[.fragment f]]) .nil), fun e => ?_⟩
  rw [List.mem_filter, List.mem_eraseDups, mem_select_document hp, selects_single, List.all_cons,
    List.all_nil, Bool.and_true]
  refine and_congr_right fun he => ?_
  have hfinds := findsAny_fragment_iff hp hf (by rwa [hrelative]) (by simp [hrelative])
    (isElement_of_selects he)
  rw [hrelative] at hfinds
  refine hfinds.trans ?_
  simp only [Css.Complex.selects, Css.chainHolds, Bool.and_true, Bool.and_eq_true,
    Document.isBelow_iff, Css.mem_ancestors_iff hp.isTree]
  constructor
  · rintro ⟨node, hmatch, hrelates⟩
    exact ⟨node 0, ⟨hmatch.elements 0 (Nat.le_refl 0), hmatch.subject⟩, hrelates⟩
  · rintro ⟨n, ⟨helement, hholds⟩, hbelow⟩
    exact ⟨fun _ => n, ⟨fun _ _ => helement, hholds, fun i hi => absurd hi (Nat.not_lt_zero i)⟩,
      hbelow⟩

/-- **Going up and looking down.** The texts of a compound and of a selector have no backslashes, no
`-ext-` and no blanks around them, and they stand for the same when their runs of blanks are
shortened. If `T:upward(S)` and `S:has(T)` are accepted, then all that `T:upward(S)` finds is found
by `S:has(T)`; and it is found by both exactly if, from an element of `T` below it, there is no other
element of `S` on the way up. -/
theorem all_upward_iff_all_has {fx : Fixture} (hp : p.document = .ofFixture fx)
    (hT : IsPlain T) (hS : IsPlain S) (hTtrim : Text.trim T = T) (hStrim : Text.trim S = S)
    (hscope : ¬ ":scope".toList <:+: Text.lower T)
    (hext : ∀ t ∈ [T, S], ¬ "-ext-".toList <:+: Text.lower t)
    (hTread : Css.Selector.ofText T = .ok ⟨[⟨c, []⟩]⟩) (hSread : Css.Selector.ofText S = .ok ⟨[x]⟩)
    (hkept : ∀ t ∈ [T, S], Css.Selector.ofText (squeeze true t) = Css.Selector.ofText t)
    {up down : Selector}
    (hup : Selector.ofText (T ++ ":upward(".toList ++ S ++ ")".toList) = .ok up)
    (hdown : Selector.ofText (S ++ ":has(".toList ++ T ++ ")".toList) = .ok down) :
    ∃ us ds, all p up = .ok us ∧ all p down = .ok ds ∧ (∀ e ∈ us, e ∈ ds) ∧
      ∀ e ∈ ds, (e ∈ us ↔
        ∃ n, Css.Complex.selects p.document none ⟨c, []⟩ n = true ∧ p.document.isBelow n e = true ∧
          ∀ m, x.selects p.document none m = true → p.document.isBelow n m = true →
            ¬ p.document.isBelow m e = true) := by
  have hbuilt : p.document.Built := hp ▸ Document.built_ofFixture fx
  have hTkept : IsKept T ⟨c, []⟩ :=
    ⟨⟨hT, hext T (by simp), hTread⟩, hTtrim, (hkept T (by simp)).trans hTread⟩
  have hSkept : IsKept S x :=
    ⟨⟨hS, hext S (by simp), hSread⟩, hStrim, (hkept S (by simp)).trans hSread⟩
  rw [Extended.append_pseudoText .upward (t := ":upward(".toList) rfl] at hup
  rw [Extended.append_pseudoText .has (t := ":has(".toList) rfl] at hdown
  obtain ⟨rfl, rfl⟩ := hTkept.eq_of_ofText hSkept hup hdown
  obtain ⟨-, -, hcomplex⟩ := Css.ofText_eq_singleton_iff.mp hTread
  have hrelative := Css.relative_compound hcomplex
  have hunscoped := (Css.isUnscoped_relative hT hscope hcomplex).1.1
  rw [hrelative] at hunscoped
  rw [← Css.relative_congr (Extended.head?_trim_squeeze hTtrim true)] at hrelative
  obtain ⟨us, hus, hmemUp⟩ := exists_all_upward hp hTkept.read_squeeze hSkept.read_squeeze
  obtain ⟨ds, hds, hmemDown⟩ := exists_all_has hbuilt hSkept.read_squeeze hTkept.read_squeeze
    hunscoped hrelative
  refine ⟨us, ds, hus, hds, fun e he => ?_, fun e he => ?_⟩
  · obtain ⟨hselects, n, hn, hbelow, -⟩ := (hmemUp e).mp he
    exact (hmemDown e).mpr ⟨hselects, n, hn, hbelow⟩
  · obtain ⟨hselects, -⟩ := (hmemDown e).mp he
    rw [hmemUp e, and_iff_right hselects]

/-- Every element above a link is found looking down for it, but going up stops at the first one. -/
theorem all_upward_iff_all_has_sectionInArticle :
    ∃ us ds,
      all (.ofDocument (.ofFixture sectionInArticle))
        ⟨[[.fragment "a".toList, .nested .upward [[.fragment "*".toList]]]]⟩ = .ok us ∧
      all (.ofDocument (.ofFixture sectionInArticle))
        ⟨[[.fragment "*".toList, .nested .has [[.fragment "a".toList]]]]⟩ = .ok ds ∧
      (∀ e ∈ us, e ∈ ds) ∧ 2 ∈ us ∧ 1 ∈ ds := by
  have hup : Selector.ofText ("a".toList ++ ":upward(".toList ++ "*".toList ++ ")".toList) =
      .ok ⟨[[.fragment "a".toList, .nested .upward [[.fragment "*".toList]]]]⟩ := by decide +kernel
  have hdown : Selector.ofText ("*".toList ++ ":has(".toList ++ "a".toList ++ ")".toList) =
      .ok ⟨[[.fragment "*".toList, .nested .has [[.fragment "a".toList]]]]⟩ := by decide +kernel
  obtain ⟨us, ds, hus, hds, hsub, hiff⟩ := all_upward_iff_all_has
    (p := .ofDocument (.ofFixture sectionInArticle)) (T := "a".toList) (S := "*".toList)
    (c := [.tag "a".toList]) (x := ⟨[.universal], []⟩)
    rfl (by decide) (by decide) (by decide) (by decide) (by rw [← Text.occursIn_iff]; decide)
    (by simp only [← Text.occursIn_iff]; decide) (by decide +kernel) (by decide +kernel)
    (by decide +kernel) hup hdown
  have hfound : all (.ofDocument (.ofFixture sectionInArticle))
      ⟨[[.fragment "*".toList, .nested .has [[.fragment "a".toList]]]]⟩ = .ok [1, 2] := by
    decide +kernel
  obtain rfl := Except.ok.inj (hfound.symm.trans hds)
  refine ⟨us, _, hus, hds, hsub, (hiff 2 (by simp)).mpr ⟨3, by decide, by decide +kernel, ?_⟩,
    by simp⟩
  intro m _ hbelow hbetween
  have hlt := Document.lt_of_mem_ancestors (Document.isBelow_iff.mp hbelow)
  have hgt := Document.lt_of_mem_ancestors (Document.isBelow_iff.mp hbetween)
  omega

/-- Three elements, each the only child of the one before. -/
def nestedTags : Fixture :=
  .element ⟨"p".toList, [], []⟩
    [.element ⟨"div".toList, [], []⟩ [.element ⟨"q".toList, [], []⟩ []]]

/-- In front of `:upward()`, and in `:has()`, the blank in a name is taken for one between two
compounds: going up starts from the innermost element, which has no element in it to look down
for. -/
theorem not_all_upward_iff_all_has :
    ¬ ∀ (p : Page) (fx : Fixture) (T S : Text) (c : Css.Compound) (x : Css.Complex)
        (up down : Selector) (us ds : List Nat), p.document = .ofFixture fx →
      (∀ t ∈ [T, S], IsPlain t ∧ Text.trim t = t ∧ ¬ ":scope".toList <:+: Text.lower t ∧
        ¬ "-ext-".toList <:+: Text.lower t) →
      Css.Selector.ofText T = .ok ⟨[⟨c, []⟩]⟩ → Css.Selector.ofText S = .ok ⟨[x]⟩ →
      Selector.ofText (T ++ ":upward(".toList ++ S ++ ")".toList) = .ok up →
      Selector.ofText (S ++ ":has(".toList ++ T ++ ")".toList) = .ok down →
      all p up = .ok us → all p down = .ok ds → ∀ e ∈ us, e ∈ ds := by
  intro h
  have hmem := h (.ofDocument (.ofFixture nestedTags)) nestedTags "p\u00a0q".toList "div".toList
    [.tag "p\u00a0q".toList] ⟨[.tag "div".toList], []⟩
    ⟨[[.fragment "p q".toList, .nested .upward [[.fragment "div".toList]]]]⟩
    ⟨[[.fragment "div".toList, .nested .has [[.fragment "p q".toList]]]]⟩ [2] [] rfl
    (by simp only [← Text.occursIn_iff]; decide) (by decide +kernel) (by decide +kernel)
    (by decide +kernel) (by decide +kernel) (by decide +kernel) (by decide +kernel) 2
  exact absurd (hmem (List.mem_singleton_self 2)) List.not_mem_nil

end Query
end CosmeticFilter
