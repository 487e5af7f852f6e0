import CosmeticFilter.Text.Basic

/-!
# XPath expressions

The part of XPath that filter rules use: unions of location paths, whose steps have an axis, a node
test and predicates. A predicate is a condition on the place of a node among the nodes that the step
has found so far, on its attributes, or on its text.
-/

namespace CosmeticFilter

/-- The direction of a step. -/
inductive Axis where
  /-- The children. -/
  | child
  /-- The nodes below. -/
  | descendant
  /-- The node itself and the nodes below. -/
  | descendantOrSelf
  /-- The parent. -/
  | parent
  /-- The nodes above. -/
  | ancestor
  /-- The node itself and the nodes above. -/
  | ancestorOrSelf
  /-- The siblings on the right. -/
  | followingSibling
  /-- The siblings on the left. -/
  | precedingSibling
  /-- The node itself. -/
  | self
  deriving DecidableEq, Repr

namespace Axis

/-- All axes. -/
def all : List Axis :=
  [child, descendant, descendantOrSelf, parent, ancestor, ancestorOrSelf, followingSibling,
    precedingSibling, self]

/-- The name of an axis. -/
def text : Axis → Text
  | child => "child".toList
  | descendant => "descendant".toList
  | descendantOrSelf => "descendant-or-self".toList
  | parent => "parent".toList
  | ancestor => "ancestor".toList
  | ancestorOrSelf => "ancestor-or-self".toList
  | followingSibling => "following-sibling".toList
  | precedingSibling => "preceding-sibling".toList
  | self => "self".toList

/-- The axis with this name. -/
def ofText? (t : Text) : Option Axis := all.find? fun a => a.text == t

end Axis

/-- Which nodes of an axis a step takes. -/
inductive NodeTest where
  /-- `*`: the elements. -/
  | anyElement
  /-- A tag name, letter case aside. -/
  | name (tag : Text)
  /-- `node()`: all nodes. -/
  | node
  /-- `text()`: the text nodes. -/
  | text
  deriving DecidableEq, Repr

/-- What a comparison or a string function is applied to. -/
inductive Operand where
  /-- `@name`: an attribute of the node. -/
  | attribute (name : Text)
  /-- `text()`: the text nodes among the children. -/
  | text
  /-- `.` or `string()`: the text of the node. -/
  | context
  /-- A string or a number. -/
  | literal (t : Text)
  deriving DecidableEq, Repr

/-- The six comparisons. -/
inductive Relation where
  /-- `=`. -/
  | eq
  /-- `!=`. -/
  | ne
  /-- `<`. -/
  | lt
  /-- `<=`. -/
  | le
  /-- `>`. -/
  | gt
  /-- `>=`. -/
  | ge
  deriving DecidableEq, Repr

/-- The comparison holds between two numbers. -/
def Relation.holds : Relation → Nat → Nat → Bool
  | eq, a, b => a == b
  | ne, a, b => a != b
  | lt, a, b => a < b
  | le, a, b => a ≤ b
  | gt, a, b => b < a
  | ge, a, b => b ≤ a

/-- A condition in a predicate. -/
inductive Predicate where
  /-- One of the two. -/
  | or (p q : Predicate)
  /-- Both. -/
  | and (p q : Predicate)
  /-- Not this. -/
  | not (p : Predicate)
  /-- The operand stands for something. -/
  | present (operand : Operand)
  /-- Some string of the one operand is equal to some string of the other, or different from it. -/
  | compare (left : Operand) (equal : Bool) (right : Operand)
  /-- The first string has the second one in it. -/
  | contains (whole part : Operand)
  /-- The first string starts with the second one. -/
  | startsWith (whole start : Operand)
  /-- The position of the node compares like this with a number. -/
  | position (relation : Relation) (n : Nat)
  /-- The node is the last one. -/
  | last
  deriving DecidableEq, Repr

/-- One step of a path. -/
structure Step where
  /-- The direction. -/
  axis : Axis
  /-- Which nodes are taken. -/
  test : NodeTest
  /-- What they have to satisfy, one predicate after the other. -/
  predicates : List Predicate
  deriving DecidableEq, Repr

/-- A location path. -/
structure LocationPath where
  /-- The path starts at the document, not at the context node. -/
  isAbsolute : Bool
  /-- The steps. -/
  steps : List Step
  deriving DecidableEq, Repr

/-- A union of location paths. -/
structure XPath where
  /-- The paths; there is at least one. -/
  paths : List LocationPath
  deriving DecidableEq, Repr

namespace Step

/-- What `..` stands for. -/
def toParent : Step := ⟨.parent, .node, []⟩

/-- What `.` stands for. -/
def toSelf : Step := ⟨.self, .node, []⟩

/-- What stands between two slashes. -/
def toAllBelow : Step := ⟨.descendantOrSelf, .node, []⟩

end Step
end CosmeticFilter
