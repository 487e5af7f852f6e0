import CosmeticFilter.Proofs.Document.TextContent
import CosmeticFilter.Proofs.Extended.TextArguments
import CosmeticFilter.Proofs.Query.RelativeMatch

/-!
# Searching the text content

`:contains()` with a text keeps the elements in whose text content the text occurs. In a loaded
document the text content of an element stands in one piece in that of every element above, so with
an element all elements above it are kept.

* `isTextual_contains`: any text that fills the brackets and is not blank is accepted, unless it is
  the literal of a regular expression that is none;
* `all_contains`: what `*:contains()` finds;
* `textContent_ofFixture`: text contents of a loaded document, and what follows for `*:contains()`.
-/

namespace CosmeticFilter
namespace Query

open Extended (Inside IsTextual Name Node Selector leadingFragment pseudosText)

variable {p : Page} {name : Name} {argument needle : Text}

/-! ### The pseudo-class -/

theorem compile_contains (hname : name.isContainsFamily = true)
    (h : ContentPattern.ofText argument = .ok (.literal needle)) :
    Condition.compile name argument = .ok (.content (.literal needle)) := by
  cases name
  case contains | abpContains | hasText =>
    rw [Condition.compile, Condition.read, h]
    rfl
  all_goals exact absurd hname (by decide)

theorem isFilter_of_isContainsFamily (h : name.isContainsFamily = true) : name.isFilter = true := by
  cases name <;> first | rfl | exact absurd h (by decide)

theorem isTextual_contains (hname : name.isContainsFamily = true)
    (hfills : Inside.start.Fills argument) (hblank : Text.isAllBlank argument = false)
    (h : ContentPattern.ofText argument = .ok (.literal needle)) : IsTextual (name, argument) where
  unscoped := by cases name <;> first | rfl | exact absurd hname (by decide)
  inner := by cases name <;> first | exact absurd hname (by decide) | simp
  kind := by cases name <;> first | rfl | exact absurd hname (by decide)
  given := hblank
  accepted := ⟨_, compile_contains hname h⟩
  fills := hfills

/-- An element passes if the text occurs in its text content. -/
theorem passes_contains (hname : name.isContainsFamily = true)
    (h : ContentPattern.ofText argument = .ok (.literal needle)) (n : Nat) :
    passes p (.textual name argument) n = true ↔ needle <:+: p.document.textContent n := by
  simp only [passes, compile_contains hname h]
  exact Text.occursIn_iff

/-! ### Behind an asterisk -/

/-- An asterisk takes a pseudo-class. -/
theorem ofText_asterisk_textual {x : Name × Text} (hx : IsTextual x) :
    Selector.ofText ('*' :: pseudosText [x]) =
      .ok ⟨[[.fragment ['*'], .textual x.1 x.2]]⟩ := by
  have hfragment : leadingFragment ['*'] = ['*'] := by decide +kernel
  have htakes : Extended.TakesPseudoClass ['*'] := by
    rw [Extended.TakesPseudoClass, hfragment]
    exact ⟨_, Css.ofText_asterisk⟩
  have hread := Extended.ofText_textual isSeed_asterisk.read isSeed_asterisk.escape htakes hx
    (l := []) fun y hy => absurd hy List.not_mem_nil
  rwa [hfragment] at hread

/-- Filters behind an asterisk find the elements that pass all of them. -/
theorem all_asterisk_filters (hp : p.document.Built) {fs : List Node}
    (hfs : ∀ a ∈ fs, a.isFilter = true) :
    ∃ found, all p ⟨[.fragment ['*'] :: fs]⟩ = .ok found ∧
      ∀ n, n ∈ found ↔ p.document.isElement n = true ∧ ∀ a ∈ fs, passes p a n = true := by
  have hbranch := evalBranch_filters hfs (search_eq (p := p) Css.ofText_asterisk)
    ((hp.isTree.nodup_descendants _).filter _)
  refine ⟨_, all_single hbranch, fun n => ?_⟩
  rw [List.mem_eraseDups, List.mem_filter, mem_select_document hp, selects_universal,
    List.all_eq_true]

/-- **What `*:contains()` finds**: the elements in whose text content the text occurs. -/
theorem all_contains (hp : p.document.Built) (hname : name.isContainsFamily = true)
    (hfills : Inside.start.Fills argument) (hblank : Text.isAllBlank argument = false)
    (h : ContentPattern.ofText argument = .ok (.literal needle)) :
    ∃ s found,
      Selector.ofText ("*:".toList ++ name.text ++ "(".toList ++ argument ++ ")".toList) = .ok s ∧
      all p s = .ok found ∧
      ∀ n, n ∈ found ↔
        p.document.isElement n = true ∧ needle <:+: p.document.textContent n := by
  have hwritten : "*:".toList ++ name.text ++ "(".toList ++ argument ++ ")".toList =
      '*' :: pseudosText [(name, argument)] := by
    simp [pseudosText, Extended.pseudoText]
  have hfilter : ∀ a ∈ [Node.textual name argument], a.isFilter = true := fun a ha =>
    List.mem_singleton.mp ha ▸ isFilter_of_isContainsFamily hname
  obtain ⟨found, hfound, hmem⟩ := all_asterisk_filters hp hfilter
  refine ⟨_, found, ?_, hfound, fun n => ?_⟩
  · rw [hwritten]
    exact ofText_asterisk_textual (isTextual_contains hname hfills hblank h)
  · rw [hmem, List.forall_mem_singleton, passes_contains hname h]

/-- **Text contents of a loaded document.** An element and the document have the text contents of
their children, one after the other; a text has its own, and a comment has none. So the text content
of a node stands in one piece in that of every node above; and with an element `*:contains()` finds
all elements above it. -/
theorem textContent_ofFixture {fx : Fixture} (hp : p.document = .ofFixture fx) :
    (∀ n, n = 0 ∨ p.document.isElement n = true →
      p.document.textContent n = (p.document.children n).flatMap p.document.textContent) ∧
    (∀ n t, p.document.content? n = some (.text t) → p.document.textContent n = t) ∧
    (∀ n t, p.document.content? n = some (.comment t) → p.document.textContent n = []) ∧
    (∀ n, ∀ a ∈ p.document.ancestors n,
      p.document.textContent n <:+: p.document.textContent a) ∧
    ∀ (name : Name) (argument needle : Text), name.isContainsFamily = true →
      Inside.start.Fills argument → Text.isAllBlank argument = false →
      ContentPattern.ofText argument = .ok (.literal needle) →
      ∃ s found,
        Selector.ofText ("*:".toList ++ name.text ++ "(".toList ++ argument ++ ")".toList) =
          .ok s ∧
        all p s = .ok found ∧
        (∀ n, n ∈ found ↔
          p.document.isElement n = true ∧ needle <:+: p.document.textContent n) ∧
        ∀ n ∈ found, ∀ a ∈ p.document.ancestors n, p.document.isElement a = true → a ∈ found := by
  have hbuilt : p.document.Built := hp ▸ Document.built_ofFixture fx
  have hparents : p.document.HasElementParents := hp ▸ Document.hasElementParents_ofFixture fx
  refine ⟨fun n hn => hparents.textContent_eq hbuilt ?_, fun n t hn => ?_, fun n t hn => ?_,
    fun n a ha => hparents.isInfix_textContent hbuilt ha, ?_⟩
  · rcases hn with rfl | hn
    · exact hbuilt.text?_zero
    · exact Document.text?_of_isElement hn
  · exact Document.textContent_of_text? (Document.text?_eq_some_iff.mpr hn)
  · exact hparents.textContent_of_comment hbuilt hn
  · intro name argument needle hname hfills hblank h
    obtain ⟨s, found, hread, hfound, hmem⟩ := all_contains hbuilt hname hfills hblank h
    refine ⟨s, found, hread, hfound, hmem, fun n hn a ha helement => (hmem a).mpr ⟨helement, ?_⟩⟩
    exact ((hmem n).mp hn).2.trans (hparents.isInfix_textContent hbuilt ha)

/-- A text that a comment divides, in an element in another one. -/
def dividedText : Fixture :=
  .element ⟨"div".toList, [], []⟩
    [.element ⟨"p".toList, [], []⟩ [.text "a".toList, .comment "c".toList, .text "b".toList],
      .text "d".toList]

/-- The comment does not keep the text from being found, in the element and in the one above. -/
theorem textContent_ofFixture_dividedText :
    (Document.ofFixture dividedText).textContent 2 = "ab".toList ∧
      "ab".toList <:+: (Document.ofFixture dividedText).textContent 1 ∧
      ∃ s found, Selector.ofText "*:contains(ab)".toList = .ok s ∧
        all (.ofDocument (.ofFixture dividedText)) s = .ok found ∧ 2 ∈ found ∧ 1 ∈ found := by
  have hloaded : (Page.ofDocument (.ofFixture dividedText)).document = .ofFixture dividedText := rfl
  obtain ⟨hchildren, -, -, hpiece, hcontains⟩ := textContent_ofFixture hloaded
  have htext : (Document.ofFixture dividedText).textContent 2 = "ab".toList :=
    (hchildren 2 (.inr (by decide))).trans (by decide +kernel)
  have habove : 1 ∈ (Document.ofFixture dividedText).ancestors 2 := by decide +kernel
  obtain ⟨s, found, hread, hfound, hmem, hclosed⟩ :=
    hcontains .contains "ab".toList "ab".toList rfl (by decide +kernel) rfl rfl
  have hinner : 2 ∈ found := (hmem 2).mpr ⟨by decide, htext ▸ List.infix_rfl⟩
  exact ⟨htext, htext ▸ hpiece 2 1 habove, s, found, hread, hfound, hinner,
    hclosed 2 hinner 1 habove (by decide)⟩

end Query
end CosmeticFilter
