import CosmeticFilter.Condition.Pattern
import CosmeticFilter.Decimal.Reader
import CosmeticFilter.Decimal.Shortest

/-!
# Conditions on computed styles

The argument of `:matches-css()` is `property: value`, and `before,` or `after,` in front of it
chooses a box. The value is a regular expression between slashes or a glob; a glob `url(…)` also
stands for the value with quotes around the address.

* `StylePattern.ofText`: reads an argument;
* `StylePattern.isMatch`: tests a value. An opacity is rounded to two decimals first, as a computed
  opacity carries the error of single precision.
-/

namespace CosmeticFilter

/-- A property of an element or of one of its boxes, and what its value has to be. -/
structure StylePattern where
  /-- The box; the element itself without one. -/
  box : Option Box
  /-- The property, in small letters. -/
  property : Text
  /-- The expression that the value has to match. -/
  value : Regex
  deriving Repr

namespace StylePattern

/-- The address in a value `url(…)`, without blanks and quotes around it. -/
def address? (t : Text) : Option Text :=
  match (Text.dropLead? "url(".toList t).or (Text.dropLead? "URL(".toList t) with
  | none => none
  | some r =>
    if r.getLast? = some ')' then
      let inner := Text.trim r.dropLast
      some ((Text.stripQuotes? inner).getD inner)
    else none

/-- A quote or none. -/
def quoteOrNone : Regex := .repeated (.set (.ofList ['"', '\''])) 0 (some 1)

/-- Any number of blanks. -/
def blanks : Regex := .repeated (.set .blank) 0 none

/-- What a value `url(…)` with an address that fits the glob matches. -/
def addressRegex (glob : Text) : Regex :=
  .seqs [.assert .textStart, .literal "url(".toList, blanks, quoteOrNone, Glob.body glob,
    quoteOrNone, blanks, .char ')', .assert .textEnd]

/-- Reads what a value has to be. -/
def readValue (t : Text) : Except ArgumentError Regex :=
  match RegexLiteral.ofText? t with
  | some l => l.compile
  | none =>
    match address? t with
    | some glob => .ok (addressRegex glob)
    | none => .ok (Glob.toRegex t)

/-- The box that a word before a comma names. -/
def boxOfWord? (t : Text) : Option Box :=
  let word := Text.lower (Text.trim t)
  if word = "before".toList then some .before
  else if word = "after".toList then some .after
  else none

/-- The box named in front of a declaration, and the declaration. -/
def cutBox (t : Text) : Option Box × Text :=
  match Text.cutFirst (· == ',') t with
  | none => (none, t)
  | some (word, rest) =>
    match boxOfWord? word with
    | some box => (some box, Text.trim rest)
    | none => (none, t)

/-- Reads `property: value` for a box. -/
def ofDeclaration (box : Option Box) (t : Text) : Except ArgumentError StylePattern :=
  match Text.cutFirst (· == ':') t with
  | none => .error .noStyleValue
  | some (property, value) =>
    if Text.trim property = [] then .error .emptyStyleProperty
    else if Text.trim value = [] then .error .emptyStyleValue
    else (readValue (Text.trim value)).map fun r => ⟨box, Text.lower (Text.trim property), r⟩

/-- Reads an argument; `box` is the one that the name of the pseudo-class has already chosen. -/
def ofText (box : Option Box) (t : Text) : Except ArgumentError StylePattern :=
  match box, cutBox (Text.trim t) with
  | some _, (some twice, _) => .error (.boxGivenTwice twice)
  | some b, (none, declaration) => ofDeclaration (some b) declaration
  | none, (named, declaration) => ofDeclaration named declaration

/-- Opacities are written without exponent and without needless decimals. -/
def opacity : Layout := ⟨none, none, false, false⟩

/-- An opacity rounded to two decimals; what is no number stays as it is. -/
def roundOpacity (t : Text) : Text :=
  match Double.ofText? (Text.trim t) with
  | some x => Double.write opacity ((x * 100).round / 100)
  | none => t

/-- The computed value fits. -/
def isMatch (s : StylePattern) (value : Text) : Bool :=
  s.value.isMatch (if s.property = "opacity".toList then roundOpacity value else value)

end StylePattern
end CosmeticFilter
