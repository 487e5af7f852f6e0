import CosmeticFilter.Condition.Basic

/-!
# What is wrong with an extended selector

The causes for which a selector is refused, and their wording. The selector that is quoted is always
the whole one, also if the cause lies in an argument.
-/

namespace CosmeticFilter
namespace Extended

/-- The rules on where a pseudo-class may stand. -/
inductive Placement where
  /-- `:has()` or an alias inside the argument of another one. -/
  | hasInsideHas
  /-- `:is()` or `:where()` inside the argument of `:has()` or an alias. -/
  | isInsideHas
  /-- A scoped pseudo-class inside the argument of a pseudo-element. -/
  | insideElementArgument
  /-- A scoped pseudo-class after a pseudo-element. -/
  | afterElement
  /-- Anything but `:remove()` after `:xpath()`. -/
  | xpathNotLast
  /-- Anything after `:remove()`. -/
  | removeNotLast
  /-- `:remove()` inside an argument. -/
  | removeInsideArgument
  deriving DecidableEq, Repr

/-- The wording of a rule. -/
def Placement.message : Placement → Text
  | hasInsideHas => ":has() is not allowed inside :has()".toList
  | isInsideHas => ":is() and :where() are not allowed inside :has()".toList
  | insideElementArgument => "extended pseudo-class inside a pseudo-element argument".toList
  | afterElement => "extended pseudo-class after a pseudo-element".toList
  | xpathNotLast => ":xpath() must be the last pseudo-class".toList
  | removeNotLast => ":remove() must appear once, at the end of the selector".toList
  | removeInsideArgument => ":remove() is not allowed inside a pseudo-class argument".toList

/-- Why a selector is refused. -/
inductive Cause where
  /-- A quote that is never closed. -/
  | unclosedQuote (quote : Char)
  /-- The selector, or one of its branches, is empty. -/
  | empty
  /-- A pseudo-class that needs an argument has none. -/
  | missingArgument (name : Name)
  /-- A pseudo-class that is neither extended nor native. -/
  | unknownPseudoClass (name : Text)
  /-- A rule on where a pseudo-class may stand is broken. -/
  | misplaced (rule : Placement)
  /-- Brackets that do not match. -/
  | unbalanced
  /-- A branch starts with a combinator. -/
  | danglingCombinator
  /-- A fragment is no native selector. -/
  | invalidFragment (fragment : Text) (cause : Css.Error)
  /-- A text argument is refused. -/
  | invalidArgument (e : InvalidArgument)
  deriving DecidableEq, Repr

/-- Why a selector is refused, and the selector. -/
structure Error where
  /-- The whole selector. -/
  source : Text
  /-- The cause. -/
  cause : Cause
  deriving DecidableEq, Repr

/-- The wording of an error. -/
def Error.message (e : Error) : Text :=
  let inSource := " in ".toList ++ Text.ticked e.source
  match e.cause with
  | .unclosedQuote quote => "unterminated ".toList ++ quote :: " quote".toList ++ inSource
  | .empty => "empty selector".toList ++ inSource
  | .missingArgument name => "missing argument for :".toList ++ name.text ++ "()".toList ++ inSource
  | .unknownPseudoClass name => "unknown pseudo-class :".toList ++ name ++ inSource
  | .misplaced rule => rule.message ++ inSource
  | .unbalanced => "unbalanced brackets".toList ++ inSource
  | .danglingCombinator => Text.ticked e.source ++ " may not start with a combinator".toList
  | .invalidFragment fragment cause =>
    "invalid selector ".toList ++ Text.ticked fragment ++ ": ".toList ++ cause.message
  | .invalidArgument invalid => invalid.message

end Extended
end CosmeticFilter
