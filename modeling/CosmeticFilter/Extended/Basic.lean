import CosmeticFilter.Css.Basic
import CosmeticFilter.Extended.Name

/-!
# Extended selectors

An extended selector is a list of branches, and a branch is a list of nodes that are applied one
after the other: fragments that a browser could evaluate by itself, and extended pseudo-classes with
a text or with branches of their own as an argument.

* `Node`, `Selector`: the trees;
* `Selector.text`: the text of a selector;
* `Selector.isNative`, `Selector.hasRemoval`: no extended node, and the mark of a removal.
-/

namespace CosmeticFilter
namespace Extended

/-- A node of a branch. -/
inductive Node where
  /-- A part of a selector without extensions. The first one of a branch is searched for; a later
  one that starts with a blank or a combinator leads on from the elements found so far, and any
  other filters them first. -/
  | fragment (text : Text)
  /-- A pseudo-class with a text as its argument. -/
  | textual (name : Name) (argument : Text)
  /-- A pseudo-class with branches as its argument. -/
  | nested (name : Name) (argument : List (List Node))
  deriving Repr

namespace Node

mutual

/-- Whether two nodes are equal. -/
def decEq : (a b : Node) → Decidable (a = b)
  | fragment s, fragment t => decidable_of_iff (s = t) (by simp)
  | textual m s, textual n t => decidable_of_iff (m = n ∧ s = t) (by simp)
  | nested m as, nested n bs =>
    match decEqBranches as bs with
    | isTrue h => decidable_of_iff (m = n) (by simp [h])
    | isFalse h => isFalse (by simp [h])
  | fragment _, textual _ _ => isFalse (by simp)
  | fragment _, nested _ _ => isFalse (by simp)
  | textual _ _, fragment _ => isFalse (by simp)
  | textual _ _, nested _ _ => isFalse (by simp)
  | nested _ _, fragment _ => isFalse (by simp)
  | nested _ _, textual _ _ => isFalse (by simp)

/-- Whether two branches are equal. -/
def decEqBranch : (a b : List Node) → Decidable (a = b)
  | [], [] => isTrue rfl
  | [], _ :: _ => isFalse (by simp)
  | _ :: _, [] => isFalse (by simp)
  | a :: as, b :: bs =>
    match decEq a b with
    | isFalse h => isFalse (by simp [h])
    | isTrue h =>
      match decEqBranch as bs with
      | isFalse h' => isFalse (by simp [h'])
      | isTrue h' => isTrue (by rw [h, h'])

/-- Whether two lists of branches are equal. -/
def decEqBranches : (a b : List (List Node)) → Decidable (a = b)
  | [], [] => isTrue rfl
  | [], _ :: _ => isFalse (by simp)
  | _ :: _, [] => isFalse (by simp)
  | a :: as, b :: bs =>
    match decEqBranch a b with
    | isFalse h => isFalse (by simp [h])
    | isTrue h =>
      match decEqBranches as bs with
      | isFalse h' => isFalse (by simp [h'])
      | isTrue h' => isTrue (by rw [h, h'])

end

instance : DecidableEq Node := decEq

/-- The node is a fragment. -/
def isFragment : Node → Bool
  | fragment _ => true
  | textual _ _ => false
  | nested _ _ => false

/-- The name of a pseudo-class. -/
def name? : Node → Option Name
  | fragment _ => none
  | textual n _ => some n
  | nested n _ => some n

/-- The combinator that a fragment starts with, blanks aside. -/
def leadingCombinator? : Node → Option Char
  | fragment t => (Text.trimStart t).head?.filter Css.isCombinator
  | textual _ _ => none
  | nested _ _ => none

mutual

/-- The text of a node. -/
def text : Node → Text
  | fragment t => t
  | textual n argument => ':' :: n.text ++ '(' :: argument ++ [')']
  | nested n argument => ':' :: n.text ++ '(' :: listText argument ++ [')']

/-- The text of a branch. -/
def branchText : List Node → Text
  | [] => []
  | a :: r => text a ++ branchText r

/-- The text of branches, with commas between neighbours. -/
def listText : List (List Node) → Text
  | [] => []
  | b :: r => branchText b ++ moreText r

/-- The text of branches, each behind a comma. -/
def moreText : List (List Node) → Text
  | [] => []
  | b :: r => ", ".toList ++ branchText b ++ moreText r

end

end Node

/-- The branch is a fragment alone. -/
def isNativeBranch : List Node → Bool
  | [.fragment _] => true
  | _ => false

/-- A list of branches; what it stands for is what one of them stands for. -/
structure Selector where
  /-- The branches, as written. -/
  branches : List (List Node)
  deriving DecidableEq, Repr

namespace Selector

/-- The text of a selector. -/
def text (s : Selector) : Text := Node.listText s.branches

/-- There is no extended node, so a browser could evaluate the selector. -/
def isNative (s : Selector) : Bool := s.branches.all isNativeBranch

/-- One of the branches ends in `:remove()`. -/
def hasRemoval (s : Selector) : Bool :=
  s.branches.any fun b => (b.getLast?.bind Node.name?) == some .remove

end Selector
end Extended
end CosmeticFilter
