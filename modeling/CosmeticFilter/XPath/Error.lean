import CosmeticFilter.Text.Number

/-!
# What is wrong with an XPath expression

The causes for which an expression is refused, each with the place where the reader stopped, and
their wording.
-/

namespace CosmeticFilter
namespace XPath

/-- Why a reader stops. -/
inductive Cause where
  /-- The expression goes on after its end. -/
  | trailingInput
  /-- A sign is missing. -/
  | expected (sign : Text)
  /-- A step to an attribute. -/
  | attributeStep
  /-- An axis that is not known. -/
  | unsupportedAxis (name : Text)
  /-- A step without a node test. -/
  | noNodeTest
  /-- A node test that is not known. -/
  | unsupportedNodeTest (name : Text)
  /-- `position()` is not compared with anything. -/
  | noComparison
  /-- `position()` is compared with something that is no number. -/
  | noNumber
  /-- Strings are compared by order. -/
  | orderOfStrings
  /-- `@` without a name. -/
  | noAttributeName
  /-- A string without its second quote. -/
  | openLiteral
  /-- Anything else. -/
  | unsupported
  deriving DecidableEq, Repr

/-- The wording of a cause. -/
def Cause.message : Cause → Text
  | trailingInput => "unexpected trailing input".toList
  | expected sign => "expected ".toList ++ Text.ticked sign
  | attributeStep => "attribute steps are not supported".toList
  | unsupportedAxis name => "unsupported axis ".toList ++ Text.ticked name
  | noNodeTest => "expected a node test".toList
  | unsupportedNodeTest name =>
    "unsupported node test ".toList ++ Text.ticked (name ++ "()".toList)
  | noComparison => "expected a comparison after position()".toList
  | noNumber => "expected a number".toList
  | orderOfStrings => "only = and != compare strings".toList
  | noAttributeName => "expected an attribute name".toList
  | openLiteral => "unterminated string literal".toList
  | unsupported => "unsupported expression".toList

/-- Why and where an expression is refused. -/
structure Error where
  /-- The cause. -/
  cause : Cause
  /-- How many characters had been read. -/
  offset : Nat
  deriving DecidableEq, Repr

/-- The wording of an error. -/
def Error.message (e : Error) : Text :=
  e.cause.message ++ " at offset ".toList ++ Text.ofNat e.offset

end XPath
end CosmeticFilter
