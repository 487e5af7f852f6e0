import CosmeticFilter.Extended.Error
import CosmeticFilter.Style.Declaration

/-!
# What is wrong with a rule

The causes for which a rule is skipped, or a text is refused as a rule, and their wording.
-/

namespace CosmeticFilter
namespace StyleSheet

/-- Why a rule is refused. -/
inductive Error where
  /-- There is no rule. -/
  | empty
  /-- A block stands where a selector should. -/
  | noSelector (rule : Text)
  /-- Neither a block nor `:remove()` follows the selector. -/
  | noStyle (selector : Text)
  /-- `:remove()` more than once. -/
  | removedTwice (selector : Text)
  /-- Something follows `:remove()`. -/
  | removeNotLast (selector : Text)
  /-- An at-rule. -/
  | atRule (rule : Text)
  /-- A comment. -/
  | comment (rule : Text)
  /-- A block that is never closed. -/
  | unclosedBlock (rule : Text)
  /-- More than one rule where one was asked for. -/
  | severalRules (text : Text)
  /-- The selector is refused. -/
  | selector (e : Extended.Error)
  /-- The block is refused. -/
  | style (e : StyleError)
  deriving DecidableEq, Repr

/-- The wording of an error. -/
def Error.message : Error → Text
  | empty => "empty stylesheet".toList
  | noSelector rule => "no selector before style block in ".toList ++ Text.ticked rule
  | noStyle t =>
    "selector ".toList ++ Text.ticked t ++ " needs a style block or :remove()".toList
  | removedTwice t => "multiple :remove() markers in ".toList ++ Text.ticked t
  | removeNotLast t => ":remove() must be the last pseudo-class in ".toList ++ Text.ticked t
  | atRule rule => "at-rules are not supported: ".toList ++ Text.ticked rule
  | comment rule => "comments are not supported: ".toList ++ Text.ticked rule
  | unclosedBlock rule => "unclosed style block in ".toList ++ Text.ticked rule
  | severalRules text => "expected exactly one rule, found more in ".toList ++ Text.ticked text
  | selector e => e.message
  | style e => e.message

end StyleSheet
end CosmeticFilter
