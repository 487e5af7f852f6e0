import CosmeticFilter.Text.Basic

/-!
# JSON values

Documents are loaded from JSON and the script-visible properties of an element are JSON values. A
value keeps the fields of its objects as they were written, repetitions included, because some
readers refuse an object that repeats a field. A *canonical* value lists each field once, in the
order of the names, with the last value written.

* `Json`: the values;
* `Json.insertLast`, `Json.canonical`: the canonical form;
* `Json.field?`: the value of a field.
-/

namespace CosmeticFilter

/-- A JSON value. A number is an integer as long as it was written as one and fits 64 bits. -/
inductive Json where
  /-- `null`. -/
  | null
  /-- `true` or `false`. -/
  | bool (b : Bool)
  /-- A number written without fraction and exponent. -/
  | int (n : Int)
  /-- Any other number. -/
  | float (x : Float)
  /-- A string. -/
  | string (t : Text)
  /-- An array. -/
  | array (items : List Json)
  /-- An object; its fields in the order of the text. -/
  | object (fields : List (Text × Json))
  deriving Inhabited, Repr

namespace Json

/-- Puts a field in front of fields that come later in the text and are already in order: a later
field of the same name wins. -/
def insertLast (name : Text) (value : Json) : List (Text × Json) → List (Text × Json)
  | [] => [(name, value)]
  | (n, v) :: r =>
    if name = n then (n, v) :: r
    else if Text.le name n then (name, value) :: (n, v) :: r
    else (n, v) :: insertLast name value r

mutual

/-- The value with the fields of every object in order and without repetition. -/
def canonical : Json → Json
  | array items => array (canonicalItems items)
  | object fields => object (canonicalFields fields)
  | null => null
  | bool b => bool b
  | int n => int n
  | float x => float x
  | string t => string t

/-- The canonical forms of the items of an array. -/
def canonicalItems : List Json → List Json
  | [] => []
  | v :: r => canonical v :: canonicalItems r

/-- The fields of an object in order and without repetition, their values canonical. -/
def canonicalFields : List (Text × Json) → List (Text × Json)
  | [] => []
  | (n, v) :: r => insertLast n (canonical v) (canonicalFields r)

end

/-- The values of the fields with this name, in the order of the text. -/
def fieldValues (name : Text) (fields : List (Text × Json)) : List Json :=
  (fields.filter fun f => f.1 == name).map Prod.snd

end Json
end CosmeticFilter
