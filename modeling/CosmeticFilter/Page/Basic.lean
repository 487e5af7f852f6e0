import CosmeticFilter.Css.Matching
import CosmeticFilter.Css.Reader
import CosmeticFilter.Style.Box
import CosmeticFilter.Style.Declaration
import CosmeticFilter.XPath.Evaluation
import CosmeticFilter.XPath.Reader

/-!
# Pages

A page is a document together with the computed styles that are known of its elements. It answers
what an extended selector asks: native selectors, XPath expressions, styles, text, attributes and
properties. There is no layout, so a style that has not been given is looked up in the attribute
`style`.

* `Page.query`: the elements that a native selector stands for, relative to a root;
* `Page.closest?`: the nearest element at or above a node that it stands for;
* `Page.xpath`: the elements that an expression selects;
* `Page.style?`: a computed style.
-/

namespace CosmeticFilter

/-- A style that is known: the value of a property of an element or of one of its boxes. -/
structure KnownStyle where
  /-- The element. -/
  element : Nat
  /-- The box; the element itself without one. -/
  box : Option Box
  /-- The property, in small letters. -/
  property : Text
  /-- Its value. -/
  value : Text
  deriving Repr

/-- A document and the styles that are known, the latest first. -/
structure Page where
  /-- The document. -/
  document : Document
  /-- The styles. -/
  styles : List KnownStyle

/-- Why a page cannot answer. -/
inductive PageError where
  /-- The selector is none. -/
  | invalidSelector (selector : Text) (cause : Css.Error)
  /-- The XPath expression is none. -/
  | invalidXPath (expression : Text) (cause : XPath.Error)
  deriving DecidableEq, Repr

/-- The wording of an error. -/
def PageError.message : PageError → Text
  | invalidSelector selector cause =>
    "host rejected selector ".toList ++ Text.ticked selector ++ ": ".toList ++ cause.message
  | invalidXPath expression cause =>
    "host rejected xpath ".toList ++ Text.ticked expression ++ ": ".toList ++ cause.message

namespace Page

/-- The page of a document about whose styles nothing is known. -/
def ofDocument (d : Document) : Page := ⟨d, []⟩

/-- Makes a style known. -/
def setStyle (p : Page) (element : Nat) (box : Option Box) (property value : Text) : Page :=
  { p with styles := ⟨element, box, Text.lower property, value⟩ :: p.styles }

/-- Reads a native selector. -/
def readSelector (t : Text) : Except PageError Css.Selector :=
  match Css.Selector.ofText t with
  | .ok s => .ok s
  | .error cause => .error (.invalidSelector t cause)

/-- What `:scope` stands for when a query starts at a root: the document has no scope of its own. -/
def scopeOf (root : Nat) : Option Nat := if root = 0 then none else some root

/-- The elements that a selector stands for relative to a root, in document order. They stand below
the root, unless the selector refers to `:scope`: then they may stand anywhere. -/
def select (p : Page) (s : Css.Selector) (root : Nat) : List Nat :=
  (p.document.descendants (if s.isAnchored then 0 else root)).filter
    (s.selects p.document (scopeOf root))

/-- The elements that a selector text stands for relative to a root. -/
def query (p : Page) (selector : Text) (root : Nat) : Except PageError (List Nat) :=
  (readSelector selector).map fun s => p.select s root

/-- The node itself or the nearest node above it that a selector text stands for. -/
def closest? (p : Page) (selector : Text) (n : Nat) : Except PageError (Option Nat) :=
  (readSelector selector).map fun s =>
    (p.document.selfAndAncestors n).find? (s.selects p.document none)

/-- The elements that an XPath expression selects from a context node, in the order of their
numbers. -/
def xpath (p : Page) (expression : Text) (context : Nat) : Except PageError (List Nat) :=
  match XPath.ofText expression with
  | .ok x => .ok ((x.select p.document context).filter p.document.isElement)
  | .error cause => .error (.invalidXPath expression cause)

/-- The value of a property in the attribute `style`; the last declaration counts. -/
def inlineStyle? (p : Page) (n : Nat) (property : Text) : Option Text :=
  match (p.document.element? n).bind fun e => e.attribute? "style".toList with
  | none => none
  | some block =>
    match Declaration.readBlock true block with
    | .error _ => none
    | .ok ds => (ds.reverse.find? fun d => d.property == property).map Declaration.value

/-- The computed value of a property of an element or of one of its boxes. -/
def style? (p : Page) (n : Nat) (box : Option Box) (property : Text) : Option Text :=
  let name := Text.lower property
  match p.styles.find? fun s => s.element == n && s.box == box && s.property == name with
  | some s => some s.value
  | none =>
    match box with
    | none => p.inlineStyle? n name
    | some _ => none

/-- The attributes of an element, in order of their names. -/
def attributes (p : Page) (n : Nat) : List (Text × Text) :=
  ((p.document.element? n).map Element.sortedAttributes).getD []

/-- The properties of an element. -/
def properties (p : Page) (n : Nat) : List (Text × Json) :=
  ((p.document.element? n).map Element.properties).getD []

end Page
end CosmeticFilter
