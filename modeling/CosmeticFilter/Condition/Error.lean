import CosmeticFilter.Style.Box
import CosmeticFilter.Text.Number

/-!
# What is wrong with the argument of a pseudo-class

Each pseudo-class with a text argument reads it by a small grammar of its own. These are the causes
for which an argument is refused, and their wording.
-/

namespace CosmeticFilter

/-- Why an argument is refused. -/
inductive ArgumentError where
  /-- There is no text to look for. -/
  | emptyText
  /-- A letter after a regular expression that is no flag. -/
  | unsupportedFlag (c : Char)
  /-- The text between the slashes is no regular expression. -/
  | invalidRegex
  /-- There is no pattern. -/
  | emptyPattern
  /-- The box is named twice. -/
  | boxGivenTwice (box : Box)
  /-- A style argument without a colon. -/
  | noStyleValue
  /-- A style argument without a property. -/
  | emptyStyleProperty
  /-- A style argument without a value. -/
  | emptyStyleValue
  /-- An attribute argument without a name. -/
  | emptyAttributeName
  /-- Nothing follows the equals sign of an attribute argument. -/
  | emptyAttributeValue
  /-- A property argument without a name. -/
  | emptyPropertyName
  /-- An empty name in a chain of properties. -/
  | emptySegment (chain : Text)
  /-- Nothing follows the equals sign of a property argument. -/
  | emptyPropertyValue
  /-- A depth that is no number. -/
  | notAnInteger (t : Text)
  /-- A depth that is too small or too great. -/
  | depthOutOfRange (n : Int)
  /-- There is no expression. -/
  | emptyExpression
  /-- `:remove()` has an argument. -/
  | removalArgument
  /-- The argument has to be a selector. -/
  | selectorExpected
  deriving DecidableEq, Repr

namespace ArgumentError

/-- The wording of an error. -/
def message : ArgumentError → Text
  | emptyText => "empty text pattern".toList
  | unsupportedFlag c => "unsupported regular expression flag ".toList ++ Text.ticked [c]
  | invalidRegex => "invalid regular expression".toList
  | emptyPattern => "empty pattern".toList
  | boxGivenTwice box =>
    "pseudo-element ".toList ++ Text.ticked box.text ++ " given twice".toList
  | noStyleValue => "expected ".toList ++ Text.ticked "property: value".toList
  | emptyStyleProperty => "missing property name".toList
  | emptyStyleValue => "missing property value".toList
  | emptyAttributeName => "missing attribute name".toList
  | emptyAttributeValue => "missing attribute value after ".toList ++ Text.ticked ['=']
  | emptyPropertyName => "missing property name".toList
  | emptySegment chain => "empty segment in property chain ".toList ++ Text.ticked chain
  | emptyPropertyValue => "missing property value after ".toList ++ Text.ticked ['=']
  | notAnInteger t => Text.ticked t ++ " is not an integer".toList
  | depthOutOfRange n => "depth must be between 1 and 255, got ".toList ++ Text.ofInt n
  | emptyExpression => "empty xpath expression".toList
  | removalArgument => ":remove() takes no argument".toList
  | selectorExpected => "expected a selector argument".toList

end ArgumentError
end CosmeticFilter
