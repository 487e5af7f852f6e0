import CosmeticFilter.Document.Fixture
import CosmeticFilter.Page.Basic
import CosmeticFilter.Proofs.XPath.EndBlind

/-!
# Unions

A union is written by putting a bar between two expressions, and it selects what either of them
selects. That the two are read as they are alone needs an argument: the first one ends where a bar
stands and no longer where the text does, and it may end with anything, such as a lone slash, a full
stop, a name, or a predicate with a bar in a string. But no reader sees whether a text ends or a bar
follows.

* `IsBarred`: a text, and the text with a bar and another one behind it;
* `readPaths_of_isBarred`: two expressions with a bar between them are read one after the other;
* `ofText_union`: the text of a union and what it selects.
-/

namespace CosmeticFilter
namespace XPath

variable {s t u : Text}

/-- The second text is the first one with a bar and `u` behind it, and maybe with blanks in front of
the bar. -/
def IsBarred (u s t : Text) : Prop := ∃ b, Text.trimStart b = '|' :: u ∧ t = s ++ b

/-- A bar is told from nothing that goes on. -/
theorem differsAtEnd_isBarred (u : Text) : DiffersAtEnd (IsBarred u) where
  exists_append := by
    rintro s _ r c - ⟨b, hb, rfl⟩
    exact ⟨r ++ b, List.append_assoc s (c :: r) b, b, hb, rfl⟩
  exists_told := by
    rintro s t c ⟨hblank, hbar⟩ ⟨b, hb, heq⟩
    cases s with
    | nil =>
      rw [← List.nil_append b, ← heq, Text.trimStart_cons_of_not_blank hblank] at hb
      exact absurd (List.cons.inj hb).1 hbar
    | cons d r =>
      obtain ⟨rfl, rfl⟩ := List.cons.inj heq
      exact ⟨r, rfl, b, hb, rfl⟩
  trimStart := by
    rintro s _ ⟨b, hb, rfl⟩
    by_cases hnil : Text.trimStart s = []
    · refine ⟨'|' :: u, rfl, ?_⟩
      rw [hnil, Text.trimStart_append_of_blank hnil, hb, List.nil_append]
    · exact ⟨b, hb, Text.trimStart_append hnil b⟩

/-- **Two expressions with a bar between them** are read one after the other. -/
theorem readPaths_of_isBarred {ps qs : List LocationPath} (h : IsBarred u s t)
    (hs : readPaths s = .ok ps) (hu : readPaths u = .ok qs) : readPaths t = .ok (ps ++ qs) := by
  induction hlength : s.length using Nat.strongRecOn generalizing s t ps with
  | _ n ih =>
    subst hlength
    obtain ⟨path, rest, hpath, hcases⟩ := readPaths_eq_ok_iff.mp hs
    obtain ⟨rest', hpath', hrest⟩ := isEndBlind_readPath.same (differsAtEnd_isBarred u) h hpath
    refine readPaths_eq_ok_iff.mpr ⟨path, rest', hpath', .inr ?_⟩
    rcases hcases with ⟨hnil, rfl⟩ | ⟨r, more, hsign, hmore, rfl⟩
    · -- the last path of the first expression, with the bar behind it
      obtain ⟨b, hb, rfl⟩ := hrest
      exact ⟨u, qs, (Text.trimStart_append_of_blank hnil b).trans hb, hu, rfl⟩
    · obtain ⟨r', hsign', hr⟩ := (differsAtEnd_isBarred u).sign (by decide) hrest hsign
      exact ⟨r', more ++ qs, hsign', ih r.length (length_lt_of_readPath hpath hsign) hr hmore rfl,
        rfl⟩

/-- What two expressions with a bar between them are read as. -/
theorem ofText_append_bar {p q : Text} {x y : XPath} (hp : ofText p = .ok x)
    (hq : ofText q = .ok y) : ofText (p ++ " | ".toList ++ q) = .ok ⟨x.paths ++ y.paths⟩ := by
  rw [ofText_eq_ok_iff] at hp hq ⊢
  have hbarred : IsBarred (' ' :: q) p (p ++ " | ".toList ++ q) :=
    ⟨" | ".toList ++ q, rfl, List.append_assoc ..⟩
  have hstart : Text.trimStart (' ' :: q) = Text.trimStart q :=
    Text.trimStart_cons_of_blank (by decide) q
  refine readPaths_of_isBarred hbarred hp ?_
  rw [← readPaths_trimStart_eq_ok_iff, hstart, readPaths_trimStart_eq_ok_iff]
  exact hq

theorem mem_select_append {d : Document} {context n : Nat} {x y : XPath} :
    n ∈ XPath.select d context ⟨x.paths ++ y.paths⟩ ↔
      n ∈ x.select d context ∨ n ∈ y.select d context := by
  unfold select
  rw [NodeSet.mem_ofList, NodeSet.mem_ofList, NodeSet.mem_ofList, List.flatMap_append,
    List.mem_append]

theorem xpath_eq (page : Page) {x : XPath} (h : ofText t = .ok x) (context : Nat) :
    page.xpath t context =
      .ok ((x.select page.document context).filter page.document.isElement) := by
  rw [Page.xpath, h]

/-- **A union is a union.** Two texts that are expressions, with a bar between them, are an
expression, and from every node of every document it selects what either of them selects, in the
order of the numbers and each node once; so does a page, which lists elements only. -/
theorem ofText_union {p q : Text} {x y : XPath} (hp : ofText p = .ok x) (hq : ofText q = .ok y) :
    ∃ z, ofText (p ++ " | ".toList ++ q) = .ok z ∧
      (∀ d context, (z.select d context).Pairwise (· < ·) ∧
        ∀ n, n ∈ z.select d context ↔ n ∈ x.select d context ∨ n ∈ y.select d context) ∧
      ∀ (page : Page) (context : Nat), ∃ ns ms found, page.xpath p context = .ok ns ∧
        page.xpath q context = .ok ms ∧
        page.xpath (p ++ " | ".toList ++ q) context = .ok found ∧ found.Pairwise (· < ·) ∧
        ∀ n, n ∈ found ↔ n ∈ ns ∨ n ∈ ms := by
  have hz := ofText_append_bar hp hq
  have hsorted : ∀ d context, (XPath.select d context ⟨x.paths ++ y.paths⟩).Pairwise (· < ·) :=
    fun d context => NodeSet.pairwise_ofList _
  refine ⟨_, hz, fun d context => ⟨hsorted d context, fun n => mem_select_append⟩,
    fun page context => ⟨_, _, _, xpath_eq page hp context, xpath_eq page hq context,
      xpath_eq page hz context, (hsorted page.document context).filter _, fun n => ?_⟩⟩
  rw [List.mem_filter, List.mem_filter, List.mem_filter, mem_select_append, or_and_right]

/-- A link whose text is a bar. -/
def linkedBar : Fixture :=
  .element ⟨"p".toList, [], []⟩ [.element ⟨"a".toList, [], []⟩ [.text "|".toList]]

/-- The bar in the string is none, and the slash stands alone though a bar follows. -/
theorem ofText_union_linkedBar :
    ∃ z, ofText "//a[. = '|'] |  / | ..".toList = .ok z ∧
      ∀ n, n ∈ z.select (.ofFixture linkedBar) 2 ↔ n = 2 ∨ n = 0 ∨ n = 1 := by
  have hlink : ofText "//a[. = '|']".toList = .ok ⟨[⟨true,
      [.toAllBelow, ⟨.child, .name "a".toList, [.compare .context true (.literal "|".toList)]⟩]⟩]⟩ := by
    decide +kernel
  have htop : ofText " / | ..".toList = .ok ⟨[⟨true, []⟩, ⟨false, [.toParent]⟩]⟩ := by
    decide +kernel
  obtain ⟨z, hz, hselect, -⟩ := ofText_union hlink htop
  have hleft : XPath.select (.ofFixture linkedBar) 2 ⟨[⟨true,
      [.toAllBelow, ⟨.child, .name "a".toList, [.compare .context true (.literal "|".toList)]⟩]⟩]⟩ =
      [2] := by decide +kernel
  have hright : XPath.select (.ofFixture linkedBar) 2 ⟨[⟨true, []⟩, ⟨false, [.toParent]⟩]⟩ =
      [0, 1] := by decide +kernel
  refine ⟨z, hz, fun n => ?_⟩
  rw [(hselect (.ofFixture linkedBar) 2).2, hleft, hright]
  simp

end XPath
end CosmeticFilter
