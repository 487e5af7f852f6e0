import CosmeticFilter.Proofs.Document.Preorder
import CosmeticFilter.Text.Number
import CosmeticFilter.XPath.Basic
import Mathlib.Data.Rat.Floor
import Mathlib.Data.Set.Card

/-!
# What expressions mean in XPath 1.0

The evaluator knows conditions and lists of nodes. XPath 1.0 says what an expression means in other
terms. What stands in a predicate has a value: a set of nodes, a string, a number or a truth value,
and the place where it stands decides which of the others the value is turned into. A step leads to
a set of nodes, and the proximity position of a node in a set is the number of its nodes that are
not behind it in the direction of the axis. This is that account, for the expressions that can be
written here, with their brackets and with strings and numbers kept apart.

Numbers are those of double precision. All that is needed of them is that rounding keeps the order
and leaves whole numbers of 53 bits as they are, so that is what a `Rounding` is.

* `Standard.Term`, `Standard.Expr`, `Standard.Step`, `Standard.Path`, `Standard.Query`: expressions;
* `Standard.Datum`, `Standard.Value`: values and what they are turned into;
* `Axis.Leads`, `Axis.IsNearer`: the nodes of an axis, and which of two comes first on it;
* `Standard.Step.found`, `Standard.Path.found`, `Standard.Query.found`: the nodes that are found.
-/

namespace CosmeticFilter

/-! ### Axes, node tests and comparisons -/

namespace Axis

/-- The axis leads from one node to another. -/
def Leads (d : Document) (n m : Nat) : Axis → Prop
  | child => d.parent? m = some n
  | descendant => d.isBelow m n = true
  | descendantOrSelf => m = n ∨ d.isBelow m n = true
  | parent => d.parent? n = some m
  | ancestor => d.isBelow n m = true
  | ancestorOrSelf => m = n ∨ d.isBelow n m = true
  | followingSibling => ∃ p, [n, m].Sublist (d.children p)
  | precedingSibling => ∃ p, [m, n].Sublist (d.children p)
  | self => m = n

/-- The axis leads to nodes that come before the context node in the document. -/
def isReverse : Axis → Bool
  | parent | ancestor | ancestorOrSelf | precedingSibling => true
  | _ => false

/-- One node comes before another in the direction of the axis. -/
def IsNearer (d : Document) (axis : Axis) (a b : Nat) : Prop :=
  if axis.isReverse then d.Precedes b a else d.Precedes a b

end Axis

/-- The node test is true of a node. -/
def NodeTest.IsTrueOf (d : Document) (n : Nat) : NodeTest → Prop
  | anyElement => ∃ e, d.content? n = some (.element e)
  | name tag => ∃ e, d.content? n = some (.element e) ∧ Text.lower e.tag = Text.lower tag
  | node => True
  | text => ∃ t, d.content? n = some (.text t)

/-- The comparison holds between two numbers. -/
def Relation.Compares (x y : ℚ) : Relation → Prop
  | eq => x = y
  | ne => x ≠ y
  | lt => x < y
  | le => x ≤ y
  | gt => x > y
  | ge => x ≥ y

namespace XPath
namespace Standard

/-! ### Numbers -/

/-- How numbers are rounded to those of double precision. What is above the greatest of them stands
for infinity. -/
structure Rounding where
  /-- The number that a number is rounded to. -/
  round : ℚ → ℚ
  /-- Rounding keeps the order. -/
  monotone : Monotone round
  /-- Whole numbers of 53 bits are left as they are. -/
  exact : ∀ n : ℕ, n ≤ 2 ^ 53 → round n = n

/-- Numbers as they are. -/
def Rounding.none : Rounding := ⟨id, monotone_id, fun _ _ => rfl⟩

/-- The blanks that may stand around a number. -/
def isNumberBlank (c : Char) : Bool := c == ' ' || c == '\t' || c == '\n' || c == '\r'

/-- The number that is written by digits, with a point among them or not. -/
def decimal? (t : Text) : Option ℚ :=
  match t.dropWhile Char.isDigit with
  | [] => (Text.readNat? t).map fun n => (n : ℚ)
  | c :: fraction =>
    if c = '.' then
      (Text.readNat? (t.takeWhile Char.isDigit ++ fraction)).map fun n =>
        (n : ℚ) / 10 ^ fraction.length
    else Option.none

/-- The number that a string is turned into; none if it is not written like one. -/
def Rounding.number? (R : Rounding) (t : Text) : Option ℚ :=
  match ((t.dropWhile isNumberBlank).reverse.dropWhile isNumberBlank).reverse with
  | '-' :: r => (decimal? r).map fun x => R.round (-x)
  | r => (decimal? r).map R.round

/-! ### Values -/

/-- What can be compared and turned into a string. -/
inductive Datum where
  /-- A set of nodes: their string-values, in document order. -/
  | nodes (strings : List Text)
  /-- A string. -/
  | string (t : Text)
  /-- A number; none is the one that is not a number. -/
  | number (x : Option ℚ)
  deriving DecidableEq

/-- What an expression in a predicate comes to. -/
inductive Value where
  /-- A set of nodes, a string or a number. -/
  | datum (x : Datum)
  /-- A truth value. -/
  | boolean (p : Prop)

namespace Datum

/-- The truth value that a datum is turned into. -/
def Holds : Datum → Prop
  | nodes strings => strings ≠ []
  | string t => t ≠ []
  | number x => x ≠ none ∧ x ≠ some 0

/-- The string that a datum is turned into. The numbers for which this is asked are whole. -/
def text : Datum → Text
  | nodes strings => strings.headD []
  | string t => t
  | number none => "NaN".toList
  | number (some x) => Text.ofInt ⌊x⌋

/-- The number that a datum is turned into. -/
def number? (R : Rounding) : Datum → Option ℚ
  | number x => x
  | x => R.number? x.text

/-- The strings of a set of nodes; anything else stands for itself. -/
def members : Datum → List Datum
  | nodes strings => strings.map string
  | x => [x]

/-- Two data are equal: as numbers if one of them is a number, and as strings otherwise. -/
def Equal (R : Rounding) : Datum → Datum → Prop
  | number x, y => ∃ q, x = some q ∧ y.number? R = some q
  | x, number y => ∃ q, x.number? R = some q ∧ y = some q
  | x, y => x.text = y.text

/-- Some member of the one and some member of the other are equal, or differ. -/
def Compares (R : Rounding) (x : Datum) (equal : Bool) (y : Datum) : Prop :=
  ∃ a ∈ x.members, ∃ b ∈ y.members, a.Equal R b ↔ equal = true

end Datum

namespace Value

/-- The truth value that a value is turned into. -/
def Holds : Value → Prop
  | datum x => x.Holds
  | boolean p => p

/-- A predicate with this value keeps the node at a position: a number is compared with the
position, and anything else is turned into a truth value. -/
def Keeps (R : Rounding) (position : Nat) : Value → Prop
  | datum (.number x) => x = some (R.round position)
  | v => v.Holds

end Value

/-! ### What stands in a predicate -/

/-- What is compared, or turned into a string. -/
inductive Term where
  /-- `@name`. -/
  | attribute (name : Text)
  /-- `text()`. -/
  | text
  /-- `.`. -/
  | self
  /-- `string()`. -/
  | string
  /-- A string in quotes. -/
  | literal (t : Text)
  /-- A number. -/
  | numeral (n : Nat)
  deriving DecidableEq, Repr

/-- An expression in a predicate. -/
inductive Expr where
  /-- `p or q`. -/
  | or (p q : Expr)
  /-- `p and q`. -/
  | and (p q : Expr)
  /-- `not(p)`. -/
  | not (p : Expr)
  /-- `(p)`. -/
  | group (p : Expr)
  /-- A term alone. -/
  | term (a : Term)
  /-- `a = b` or `a != b`. -/
  | compare (a : Term) (equal : Bool) (b : Term)
  /-- `contains(a, b)`. -/
  | contains (a b : Term)
  /-- `starts-with(a, b)`. -/
  | startsWith (a b : Term)
  /-- `position()`, compared with a number. -/
  | position (relation : Relation) (n : Nat)
  /-- `last()`. -/
  | last
  deriving DecidableEq, Repr

/-- The string-value of a node. -/
def stringValue (d : Document) (n : Nat) : Text :=
  match d.content? n with
  | some (.text t) => t
  | some (.comment t) => t
  | _ => ((d.below n).filterMap d.text?).flatten

/-- Where an expression is evaluated: at a node, with its position and the number of nodes. -/
structure Context where
  /-- The node. -/
  node : Nat
  /-- Its position. -/
  position : Nat
  /-- How many nodes there are. -/
  size : Nat

/-- What a term comes to at a node. -/
def Term.datum (R : Rounding) (d : Document) (n : Nat) : Term → Datum
  | .attribute name => .nodes ((d.element? n).bind fun e => e.attribute? name).toList
  | text => .nodes ((d.children n).filterMap d.text?)
  | self => .nodes [stringValue d n]
  | string => .string (stringValue d n)
  | literal t => .string t
  | numeral k => .number (some (R.round k))

/-- What an expression comes to. -/
def Expr.value (R : Rounding) (d : Document) (c : Context) : Expr → Value
  | or p q => .boolean ((p.value R d c).Holds ∨ (q.value R d c).Holds)
  | and p q => .boolean ((p.value R d c).Holds ∧ (q.value R d c).Holds)
  | not p => .boolean ¬ (p.value R d c).Holds
  | group p => p.value R d c
  | term a => .datum (a.datum R d c.node)
  | compare a equal b => .boolean ((a.datum R d c.node).Compares R equal (b.datum R d c.node))
  | contains a b => .boolean ((b.datum R d c.node).text <:+: (a.datum R d c.node).text)
  | startsWith a b => .boolean ((b.datum R d c.node).text <+: (a.datum R d c.node).text)
  | position relation k => .boolean (relation.Compares (R.round c.position) (R.round k))
  | last => .datum (.number (some (R.round c.size)))

/-! ### Steps, paths and unions -/

/-- One step of a path. -/
structure Step where
  /-- The direction. -/
  axis : Axis
  /-- Which nodes are taken. -/
  test : NodeTest
  /-- The predicates. -/
  predicates : List Expr
  deriving DecidableEq, Repr

/-- A location path. -/
structure Path where
  /-- The path starts at the document. -/
  isAbsolute : Bool
  /-- The steps. -/
  steps : List Step
  deriving DecidableEq, Repr

/-- An expression: a union of location paths. -/
structure Query where
  /-- The paths. -/
  paths : List Path
  deriving DecidableEq, Repr

/-- The proximity position of a node in a set. -/
noncomputable def proximity (d : Document) (axis : Axis) (s : Set Nat) (m : Nat) : Nat :=
  {k ∈ s | k = m ∨ axis.IsNearer d k m}.ncard

/-- The nodes of a set that a predicate keeps. -/
def keep (R : Rounding) (d : Document) (axis : Axis) (s : Set Nat) (e : Expr) : Set Nat :=
  {m ∈ s | (e.value R d ⟨m, proximity d axis s m, s.ncard⟩).Keeps R (proximity d axis s m)}

/-- The nodes that a step leads to from a node. -/
def Step.found (R : Rounding) (d : Document) (s : Step) (n : Nat) : Set Nat :=
  s.predicates.foldl (keep R d s.axis) {m | s.axis.Leads d n m ∧ s.test.IsTrueOf d m}

/-- The nodes that a path leads to. -/
def Path.found (R : Rounding) (d : Document) (context : Nat) (p : Path) : Set Nat :=
  p.steps.foldl (fun found s => {m | ∃ n ∈ found, m ∈ s.found R d n})
    {if p.isAbsolute then 0 else context}

/-- The nodes that an expression stands for. -/
def Query.found (R : Rounding) (d : Document) (context : Nat) (q : Query) : Set Nat :=
  {n | ∃ p ∈ q.paths, n ∈ p.found R d context}

end Standard
end XPath
end CosmeticFilter
