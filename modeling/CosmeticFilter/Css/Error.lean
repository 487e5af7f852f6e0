import CosmeticFilter.Text.Basic

/-!
# What is wrong with a selector

The causes for which `Selector.ofText` refuses a text, and their wording.
-/

namespace CosmeticFilter
namespace Css

/-- The places of a selector where a name has to stand. -/
inductive NameKind where
  /-- After a full stop. -/
  | className
  /-- After `#`. -/
  | id
  /-- At the start of a compound. -/
  | typeName
  /-- After `[`. -/
  | attributeName
  /-- After the comparison of an attribute selector, without quotes. -/
  | attributeValue
  /-- After a colon. -/
  | pseudoClassName
  deriving DecidableEq, Repr

/-- The name's description in messages. -/
def NameKind.text : NameKind → Text
  | className => "a class name".toList
  | id => "an id".toList
  | typeName => "a type name".toList
  | attributeName => "an attribute name".toList
  | attributeValue => "an attribute value".toList
  | pseudoClassName => "a pseudo-class name".toList

/-- Why a text is no selector. -/
inductive Error where
  /-- The text, or a part between commas, is empty. -/
  | empty
  /-- A character that can neither start nor continue a compound. -/
  | unexpected (c : Char)
  /-- Nothing stands to the right of a combinator. -/
  | danglingCombinator (c : Char)
  /-- A name is missing. -/
  | missingName (kind : NameKind)
  /-- A pseudo-class that is not known. -/
  | unknownPseudoClass (name : Text)
  /-- A pseudo-element that is not known. -/
  | unknownPseudoElement (name : Text)
  /-- A pseudo-class with an argument that it does not take, or without one that it needs. -/
  | invalidArgument (pseudo argument : Text)
  /-- A bracket or quote that is never closed. -/
  | unterminated (c : Char)
  deriving DecidableEq, Repr

/-- The wording of an error. -/
def Error.message : Error → Text
  | empty => "empty selector".toList
  | unexpected c => "unexpected character ".toList ++ Text.ticked [c]
  | danglingCombinator c => "dangling combinator ".toList ++ Text.ticked [c]
  | missingName kind => "expected ".toList ++ kind.text
  | unknownPseudoClass name => "unknown pseudo-class ".toList ++ Text.ticked (':' :: name)
  | unknownPseudoElement name =>
    "unknown pseudo-element ".toList ++ Text.ticked (':' :: ':' :: name)
  | invalidArgument pseudo argument =>
    "invalid argument for ".toList ++ Text.ticked (':' :: pseudo) ++ ": ".toList ++
      Text.ticked argument
  | unterminated c => "unterminated ".toList ++ Text.ticked [c]

end Css
end CosmeticFilter
