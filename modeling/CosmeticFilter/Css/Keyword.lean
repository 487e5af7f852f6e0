import CosmeticFilter.Text.Basic

/-!
# Pseudo-classes and pseudo-elements that a browser knows

The names that a selector may use after `:` and `::` besides the extended pseudo-classes. All are
compared in small letters.

* `isPseudoClass`: after one colon, the four old pseudo-elements included;
* `isPseudoElement`: after two colons;
* `isLegacyPseudoElement`: the pseudo-elements that may also be written with one colon.
-/

namespace CosmeticFilter
namespace Css

/-- The pseudo-classes that are evaluated on a document. -/
def structuralNames : List Text :=
  ["root".toList, "scope".toList, "first-child".toList, "last-child".toList, "only-child".toList,
    "first-of-type".toList, "last-of-type".toList, "only-of-type".toList, "nth-child".toList,
    "nth-last-child".toList, "nth-of-type".toList, "nth-last-of-type".toList, "empty".toList,
    "link".toList, "any-link".toList, "enabled".toList, "disabled".toList, "checked".toList,
    "required".toList, "optional".toList, "lang".toList]

/-- The pseudo-classes of a state that a document at rest is never in. -/
def stateNames : List Text :=
  ["active".toList, "autofill".toList, "default".toList, "defined".toList, "dir".toList,
    "focus".toList, "focus-visible".toList, "focus-within".toList, "fullscreen".toList,
    "hover".toList, "in-range".toList, "indeterminate".toList, "invalid".toList,
    "out-of-range".toList, "paused".toList, "placeholder-shown".toList, "playing".toList,
    "read-only".toList, "read-write".toList, "target".toList, "valid".toList, "visited".toList]

/-- The pseudo-elements that may be written with one colon. -/
def legacyElementNames : List Text :=
  ["before".toList, "after".toList, "first-line".toList, "first-letter".toList]

/-- The pseudo-elements that are written with two colons. -/
def elementNames : List Text :=
  ["after".toList, "backdrop".toList, "before".toList, "cue".toList,
    "file-selector-button".toList, "first-letter".toList, "first-line".toList, "marker".toList,
    "part".toList, "placeholder".toList, "selection".toList, "slotted".toList]

/-- The name may follow one colon. -/
def isPseudoClass (name : Text) : Bool :=
  structuralNames.contains (Text.lower name) || stateNames.contains (Text.lower name) ||
    legacyElementNames.contains (Text.lower name)

/-- The name is that of a pseudo-element which may be written with one colon. -/
def isLegacyPseudoElement (name : Text) : Bool := legacyElementNames.contains (Text.lower name)

/-- The name may follow two colons. -/
def isPseudoElement (name : Text) : Bool := elementNames.contains (Text.lower name)

/-- A pseudo-element that may be written with one colon may be written with two. -/
theorem isPseudoElement_of_legacy {name : Text} (h : isLegacyPseudoElement name = true) :
    isPseudoElement name = true := by
  simp only [isLegacyPseudoElement, isPseudoElement, legacyElementNames, elementNames,
    List.contains_eq_mem, List.mem_cons, List.not_mem_nil, or_false, decide_eq_true_eq] at h ⊢
  rcases h with h | h | h | h <;> simp [h]

end Css
end CosmeticFilter
