import CosmeticFilter.Decimal.Shortest
import CosmeticFilter.Json.Basic

/-!
# Printing JSON

* `Json.compact`: a value without any space;
* `Json.pretty`: a value with one item or field a line, two blanks deeper than what holds it;
* `Json.number`: how doubles are written.
-/

namespace CosmeticFilter
namespace Json

/-- Doubles are written positionally from `0.00001` to below `10 ^ 16`. A whole number ends in `.0`,
and an exponent always has a sign. -/
def number : Layout := ⟨some (-4), some 16, true, true⟩

/-- A hexadecimal digit, in small letters. -/
def hexDigit (n : Nat) : Char :=
  if n < 10 then Char.ofNat ('0'.toNat + n) else Char.ofNat ('a'.toNat + (n - 10))

/-- A character as a string writes it. -/
def escape (c : Char) : Text :=
  if c = '"' then "\\\"".toList
  else if c = '\\' then "\\\\".toList
  else if c = '\x08' then "\\b".toList
  else if c = '\x0c' then "\\f".toList
  else if c = '\n' then "\\n".toList
  else if c = '\r' then "\\r".toList
  else if c = '\t' then "\\t".toList
  else if c.toNat < 0x20 then
    "\\u00".toList ++ [hexDigit (c.toNat / 16), hexDigit (c.toNat % 16)]
  else [c]

/-- A text in quotes. -/
def quoted (t : Text) : Text := '"' :: t.flatMap escape ++ ['"']

/-- A number, a boolean or `null`, as a text; nothing for a string, an array or an object. -/
def scalarText? : Json → Option Text
  | null => some "null".toList
  | bool b => some (if b then "true".toList else "false".toList)
  | int n => some (Text.ofInt n)
  | float x => some (Double.write number x)
  | string _ | array _ | object _ => none

/-- What separates the items of an array and the fields of an object: the text behind an opening
bracket, between neighbours, before a closing bracket, and behind a colon. -/
structure Spacing where
  /-- Behind an opening bracket, at a nesting depth. -/
  opening : Nat → Text
  /-- Before a closing bracket, at a nesting depth. -/
  closing : Nat → Text
  /-- Behind a colon. -/
  colon : Text

/-- No space at all. -/
def Spacing.none : Spacing := ⟨fun _ => [], fun _ => [], []⟩

/-- A new line, indented by two blanks for each level. -/
def newLine (depth : Nat) : Text := '\n' :: List.replicate (2 * depth) ' '

/-- One item or field a line. -/
def Spacing.lines : Spacing := ⟨fun depth => newLine (depth + 1), newLine, [' ']⟩

mutual

/-- The text of a value that stands inside `depth` arrays and objects. -/
def write (s : Spacing) (depth : Nat) : Json → Text
  | array [] => "[]".toList
  | array (v :: r) =>
    '[' :: s.opening depth ++ write s (depth + 1) v ++ writeItems s depth r ++ s.closing depth ++
      [']']
  | object [] => ['\x7b', '\x7d']
  | object ((n, v) :: r) =>
    '\x7b' :: s.opening depth ++ quoted n ++ ':' :: s.colon ++ write s (depth + 1) v ++
      writeFields s depth r ++ s.closing depth ++ ['\x7d']
  | string t => quoted t
  | null => (scalarText? null).getD []
  | bool b => (scalarText? (bool b)).getD []
  | int n => (scalarText? (int n)).getD []
  | float x => (scalarText? (float x)).getD []

/-- The items after the first, each behind a comma. -/
def writeItems (s : Spacing) (depth : Nat) : List Json → Text
  | [] => []
  | v :: r => ',' :: s.opening depth ++ write s (depth + 1) v ++ writeItems s depth r

/-- The fields after the first, each behind a comma. -/
def writeFields (s : Spacing) (depth : Nat) : List (Text × Json) → Text
  | [] => []
  | (n, v) :: r =>
    ',' :: s.opening depth ++ quoted n ++ ':' :: s.colon ++ write s (depth + 1) v ++
      writeFields s depth r

end

/-- The value without any space. -/
def compact (j : Json) : Text := write .none 0 j

/-- The value with one item or field a line. -/
def pretty (j : Json) : Text := write .lines 0 j

end Json
end CosmeticFilter
