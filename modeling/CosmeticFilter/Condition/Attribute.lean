import CosmeticFilter.Condition.Assignment
import CosmeticFilter.Condition.Pattern

/-!
# Conditions on attributes

The argument of `:matches-attr()` is a pattern for names, and a pattern for values behind an equals
sign.
-/

namespace CosmeticFilter

/-- What the name and the value of an attribute have to be. -/
structure AttributePattern where
  /-- The pattern for the name. -/
  name : Pattern
  /-- The pattern for the value; any will do without one. -/
  value : Option Pattern
  deriving Repr

/-- Reads the pattern behind an equals sign, if there is one; `blank` is the error if nothing stands
there. -/
def readValuePattern (blank : ArgumentError) : Option Text → Except ArgumentError (Option Pattern)
  | none => .ok none
  | some t => if Text.isAllBlank t then .error blank else (Pattern.ofText t).map some

namespace AttributePattern

/-- Reads an argument. -/
def ofText (t : Text) : Except ArgumentError AttributePattern := do
  let parts := Assignment.split (Text.trim t)
  if Text.isAllBlank parts.1 then throw .emptyAttributeName
  let value ← readValuePattern .emptyAttributeValue parts.2
  let name ← Pattern.ofText parts.1
  return ⟨name, value⟩

/-- One of the attributes fits. -/
def isMatch (a : AttributePattern) (attributes : List (Text × Text)) : Bool :=
  attributes.any fun (name, value) => a.name.isMatch name && a.value.all (·.isMatch value)

end AttributePattern
end CosmeticFilter
