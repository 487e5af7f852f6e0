import CosmeticFilter.Document.Basic
import CosmeticFilter.Json.Reader

/-!
# Documents written in JSON

A document is written as its document element: an object with the fields `tag`, `attrs`,
`properties` and `children`, of which only the first is needed, or an array that lists the four in
this order. A child is a string, an object with the field `comment`, or an element.

* `Fixture`: an element with all that is below it, or a text or a comment;
* `Fixture.ofText?`: reads a document element;
* `Document.ofFixture`: the document of a document element, its nodes numbered in document order.

A field that is not known is passed over, and a known one may stand only once. In the document
element itself, but not further down, the value of an unknown field need not be good for anything,
as long as it keeps to the grammar of JSON.
-/

namespace CosmeticFilter

/-- A node with all that is below it. -/
inductive Fixture where
  /-- An element and its children. -/
  | element (e : Element) (children : List Fixture)
  /-- A run of text. -/
  | text (t : Text)
  /-- A comment. -/
  | comment (t : Text)
  deriving Repr

namespace Fixture

/-! ### From JSON -/

/-- The fields of an element. -/
def elementFields : List Text :=
  ["tag".toList, "attrs".toList, "properties".toList, "children".toList]

/-- The text of a string. -/
def textOf? : Json → Option Text
  | .string t => some t
  | _ => none

/-- Sets an attribute, in the place where it was first set. -/
def setAttribute (name value : Text) : List (Text × Text) → List (Text × Text)
  | [] => [(name, value)]
  | (n, v) :: r => if n = name then (n, value) :: r else (n, v) :: setAttribute name value r

/-- The attributes in an object; all values are strings and the last one of a name counts. -/
def attributesOf? : Json → Option (List (Text × Text))
  | .object fields =>
    fields.foldlM (fun attributes f => (textOf? f.2).map fun t => setAttribute f.1 t attributes) []
  | _ => none

/-- The properties in an object. -/
def propertiesOf? : Json → Option (List (Text × Json))
  | .object fields => some (Json.canonicalFields fields)
  | _ => none

/-- The element that is written by the values of `tag`, `attrs` and `properties`. -/
def elementOf? (tag attributes properties : Option Json) : Option Element := do
  let tag ← tag.bind textOf?
  let attributes ← (attributes.map attributesOf?).getD (some [])
  let properties ← (properties.map propertiesOf?).getD (some [])
  return ⟨tag, attributes, properties⟩

/-- The element that an object writes. -/
def elementOfFields? (fields : List (Text × Json)) : Option Element :=
  let value? (name : Text) : Option Json := (Json.fieldValues name fields).head?
  if elementFields.all fun name => (Json.fieldValues name fields).length ≤ 1 then
    elementOf? (value? "tag".toList) (value? "attrs".toList) (value? "properties".toList)
  else none

/-- The element that an array writes. -/
def elementOfItems? (items : List Json) : Option Element :=
  if items.length ≤ elementFields.length then elementOf? items[0]? items[1]? items[2]? else none

/-- The comment that an object writes. -/
def commentOfFields? (fields : List (Text × Json)) : Option Text :=
  match Json.fieldValues "comment".toList fields with
  | [value] => textOf? value
  | _ => none

mutual

/-- The node that a JSON value writes. -/
def ofJson? : Json → Option Fixture
  | .string t => some (text t)
  | .object fields =>
    match commentOfFields? fields with
    | some t => some (comment t)
    | none => do
      let e ← elementOfFields? fields
      let children ← childrenOfFields? fields
      return element e children
  | .array items => do
    let e ← elementOfItems? items
    let children ← childrenAfter? 3 items
    return element e children
  | _ => none

/-- The children in the array that is a field of an object. -/
def childrenOfFields? : List (Text × Json) → Option (List Fixture)
  | [] => some []
  | (n, v) :: r => if n = "children".toList then childrenOf? v else childrenOfFields? r

/-- The children in the array that is an item of another, behind `count` items. -/
def childrenAfter? (count : Nat) : List Json → Option (List Fixture)
  | [] => some []
  | v :: r =>
    match count with
    | 0 => childrenOf? v
    | count + 1 => childrenAfter? count r

/-- The children in an array. -/
def childrenOf? : Json → Option (List Fixture)
  | .array items => ofItems? items
  | _ => none

/-- The nodes that the items of an array write. -/
def ofItems? : List Json → Option (List Fixture)
  | [] => some []
  | v :: r => do
    let first ← ofJson? v
    let more ← ofItems? r
    return first :: more

end

/-! ### From text -/

/-- Reads the fields of the document element, passing over the unknown ones. -/
def takeRootField? (name t : Text) : Option (Json × Text) :=
  if elementFields.contains name then Json.takeValue? false (Json.maxDepth - 1) t
  else Json.takeValue? true t.length t

/-- Reads the document element at the start of a text, as an object or an array. -/
def takeRoot? (t : Text) : Option (Json × Text) :=
  match Json.trimSpace t with
  | '\x7b' :: r =>
    match Json.trimSpace r with
    | '\x7d' :: r' => some (.object [], r')
    | r' => (Json.takeFields? false takeRootField? r').map fun (fs, rest) => (.object fs, rest)
  | '[' :: r => Json.takeValue? false Json.maxDepth ('[' :: r)
  | _ => none

/-- The element with its children that a JSON value writes; no text and no comment. -/
def rootOf? : Json → Option Fixture
  | .object fields => do
    let e ← elementOfFields? fields
    let children ← childrenOfFields? fields
    return element e children
  | .array items => ofJson? (.array items)
  | _ => none

/-- Reads a document element. -/
def ofText? (t : Text) : Option Fixture :=
  match takeRoot? t with
  | some (value, rest) => if (Json.trimSpace rest).isEmpty then rootOf? value else none
  | none => none

end Fixture

namespace Document

mutual

/-- Adds a node and all that is below it as the last child of `parent`. -/
def appendFixture (d : Document) (parent : Nat) : Fixture → Document
  | .text t => d.append parent (.text t)
  | .comment t => d.append parent (.comment t)
  | .element e children => appendFixtures (d.append parent (.element e)) d.size children

/-- Adds nodes one after the other. -/
def appendFixtures (d : Document) (parent : Nat) : List Fixture → Document
  | [] => d
  | f :: r => appendFixtures (appendFixture d parent f) parent r

end

/-- The document with this document element. -/
def ofFixture (f : Fixture) : Document := empty.appendFixture 0 f

end Document
end CosmeticFilter
