import CosmeticFilter.Text.Basic

/-!
# Boxes

Besides an element itself, the two boxes that a style sheet may put before and after its content
have computed styles of their own.
-/

namespace CosmeticFilter

/-- The two boxes of an element that have a style of their own. -/
inductive Box where
  /-- `::before`. -/
  | before
  /-- `::after`. -/
  | after
  deriving DecidableEq, Repr

/-- The box as a selector writes it. -/
def Box.text : Box → Text
  | before => "::before".toList
  | after => "::after".toList

end CosmeticFilter
