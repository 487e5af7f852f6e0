import CosmeticFilter.Condition.Attribute
import CosmeticFilter.Json.Printer

/-!
# Conditions on properties

The argument of `:matches-property()` is a chain of patterns for names, separated by full stops, and
a pattern for a value behind an equals sign. The chain leads from the properties of an element
through nested objects and arrays, whose items are named by their places.

* `PropertyPattern.ofText`: reads an argument;
* `PropertyPattern.follow`: the values at the end of a chain;
* `PropertyPattern.isMatch`: the chain leads to a value that fits. `null` is compared as the text
  `null`, and an object or an array fits no pattern for a value.
-/

namespace CosmeticFilter

/-- What the names on the way and the value at the end have to be. -/
structure PropertyPattern where
  /-- The patterns for the names; there is at least one. -/
  chain : List Pattern
  /-- The pattern for the value; any will do without one. -/
  value : Option Pattern
  deriving Repr

namespace PropertyPattern

/-- Reads the names of a chain. -/
def readChain (chain : Text) : Except ArgumentError (List Pattern) :=
  (Assignment.chain chain).mapM fun segment =>
    if Text.isAllBlank segment then .error (.emptySegment chain) else Pattern.ofText segment

/-- Reads an argument. -/
def ofText (t : Text) : Except ArgumentError PropertyPattern := do
  let parts := Assignment.split (Text.trim t)
  let trimmed := Text.trim parts.1
  let name := (Text.stripQuotes? trimmed).getD trimmed
  if name = [] then throw .emptyPropertyName
  let chain ← readChain name
  let value ← readValuePattern .emptyPropertyValue parts.2
  return ⟨chain, value⟩

/-- The named values that a value holds. -/
def entries : Json → List (Text × Json)
  | .object fields => fields
  | .array items => items.mapIdx fun i v => (Text.ofNat i, v)
  | _ => []

/-- The values whose names fit. -/
def fitting (p : Pattern) (named : List (Text × Json)) : List Json :=
  (named.filter fun e => p.isMatch e.1).map Prod.snd

/-- The values inside others that are reached by names that fit one pattern after the other; nothing
is looked up any more once a name leads nowhere. -/
def follow (values : List Json) : List Pattern → List Json
  | [] => values
  | p :: rest =>
    let found := fitting p (values.flatMap entries)
    if found.isEmpty then [] else follow found rest

/-- A value that is compared with a pattern, as text. -/
def scalar? : Json → Option Text
  | .string t => some t
  | v => v.scalarText?

/-- The chain leads from the properties to a value that fits. -/
def isMatch (p : PropertyPattern) (properties : List (Text × Json)) : Bool :=
  match p.chain with
  | [] => false
  | first :: rest =>
    let found := follow (fitting first properties) rest
    match p.value with
    | none => !found.isEmpty
    | some pattern => (found.filterMap scalar?).any pattern.isMatch

end PropertyPattern
end CosmeticFilter
