import CosmeticFilter.Page.Basic
import CosmeticFilter.Proofs.XPath.Reading

/-!
# Which expressions are accepted

A text in which the grammar writes an expression is accepted and read as that expression. The
converse holds for all that is read but one thing: at the beginning of a predicate, the digits of a
number that is too great are passed over, and what stands behind them is read in their place. So
`//a[99999999999999999999@b]` is accepted and read as `//a[@b]`, though no expression is written
there. Exactly the texts are accepted without being written in which this happens; all other texts
in which nothing is written are refused, and the refusal names the text.

* `accepts_iff_isWritten`: what is accepted, and what is refused;
* `not_isWritten_of_accepted`: a text that is accepted though digits in it are passed over.
-/

namespace CosmeticFilter
namespace XPath

variable {t : Text}

/-- What is not accepted is refused as no expression, on any page. -/
theorem xpath_eq_error (page : Page) (h : ∀ x, ofText t ≠ .ok x) (context : Nat) :
    ∃ cause, page.xpath t context = .error (.invalidXPath t cause) := by
  rw [Page.xpath]
  cases hread : ofText t with
  | ok x => exact absurd hread (h x)
  | error cause => exact ⟨cause, rfl⟩

/-- **What is accepted.** What is written is read. What is read is written, as a whole, exactly if
no predicate starts with a number that is out of bounds; and if none does, all that is not written
is refused. -/
theorem accepts_iff_isWritten (t : Text) :
    (∀ q : Standard.Query, q.IsWritten t → ofText t = .ok q.toXPath) ∧
    (∀ x, ofText t = .ok x →
      ((∃ q : Standard.Query, q.IsWritten t ∧ q.toXPath = x) ↔ PredicatesFit t)) ∧
    (PredicatesFit t → (¬ ∃ q : Standard.Query, q.IsWritten t) →
      ∀ (page : Page) (context : Nat),
        ∃ cause, page.xpath t context = .error (.invalidXPath t cause)) := by
  refine ⟨fun q => ofText_of_isWritten, fun x hx => ⟨?_, fun hfit => ?_⟩, fun hfit hnone page => ?_⟩
  · rintro ⟨q, hq, -⟩
    exact hq.predicatesFit
  · exact exists_isWritten_of_predicatesFit hfit hx
  · refine xpath_eq_error page fun x hx => hnone ?_
    obtain ⟨q, hq, -⟩ := exists_isWritten_of_predicatesFit hfit hx
    exact ⟨q, hq⟩

/-- A bracket in a string opens no predicate, so the number behind it does not matter; and a number
that is out of bounds where none is passed over is refused. -/
theorem accepts_iff_isWritten_string :
    (∃ q : Standard.Query, q.IsWritten "//a[. = '[99999999999999999999']".toList) ∧
      ∃ cause, (Page.ofDocument .empty).xpath "//a[position() = 99999999999999999999]".toList 0 =
        .error (.invalidXPath "//a[position() = 99999999999999999999]".toList cause) := by
  have hnone : ∀ {c : Char} {r : Text}, Text.isBlank c = false → c.isDigit = false →
      NumberFits (c :: r) := by
    intro c r hblank hdigit n hn
    rw [Text.trimStart_cons_of_not_blank hblank, List.takeWhile_cons_of_neg (by simp [hdigit])] at hn
    cases hn
  constructor
  · obtain ⟨-, hwritten, -⟩ := accepts_iff_isWritten "//a[. = '[99999999999999999999']".toList
    have hread : ofText "//a[. = '[99999999999999999999']".toList = .ok ⟨[⟨true,
        [.toAllBelow, ⟨.child, .name "a".toList,
          [.compare .context true (.literal "[99999999999999999999".toList)]⟩]⟩]⟩ := by
      decide +kernel
    obtain ⟨q, hq, -⟩ := (hwritten _ hread).mpr fun r hr => by
      obtain rfl := List.mem_singleton.mp hr
      exact hnone (by decide) (by decide)
    exact ⟨q, hq⟩
  · obtain ⟨hread, -, hrefused⟩ :=
      accepts_iff_isWritten "//a[position() = 99999999999999999999]".toList
    refine hrefused (fun r hr => ?_) ?_ _ 0
    · obtain rfl := List.mem_singleton.mp hr
      exact hnone (by decide) (by decide)
    · rintro ⟨q, hq⟩
      have herror : ∀ x, ofText "//a[position() = 99999999999999999999]".toList ≠ .ok x := by
        intro x hx
        have hfail : (ofText "//a[position() = 99999999999999999999]".toList).toOption = none := by
          decide +kernel
        rw [hx] at hfail
        cases hfail
      exact herror _ (hread q hq)

/-- **Digits are passed over.** No expression is written in a text whose predicate starts with a
number that is out of bounds, but the text is read as if the number were not there. -/
theorem not_isWritten_of_accepted :
    ¬ ∀ (t : Text) (x : XPath), ofText t = .ok x → ∃ q : Standard.Query, q.IsWritten t := by
  intro h
  have hread : ofText "//a[99999999999999999999@b]".toList = ofText "//a[@b]".toList := by
    decide +kernel
  have hshort : ofText "//a[@b]".toList = .ok ⟨[⟨true,
      [.toAllBelow, ⟨.child, .name "a".toList, [.present (.attribute "b".toList)]⟩]⟩]⟩ := by
    decide +kernel
  obtain ⟨q, hq⟩ := h _ _ (hread.trans hshort)
  have hfit := hq.predicatesFit "99999999999999999999@b]".toList (List.mem_singleton_self _)
  exact absurd (hfit 99999999999999999999 (by decide +kernel)) (by decide)

end XPath
end CosmeticFilter
