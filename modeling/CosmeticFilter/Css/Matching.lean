import CosmeticFilter.Css.Basic
import CosmeticFilter.Document.Traversal

/-!
# Matching selectors

A selector is matched from the right: its subject has to meet the rightmost compound, and then the
chain is walked to the left, where a combinator says which nodes are tried next. All of them are
tried, not only the nearest.

* `Simple.holdsFor`: a condition that needs no more than the element;
* `PseudoClass.holdsAt`: a condition that needs the document;
* `Combinator.candidates`: the nodes that a combinator leads to;
* `Complex.selects`, `Selector.selects`: matching.

`:scope` is a node of the caller's choice, or else the document element. It is the only condition
that a node can meet without being an element: the document may be a scope.
-/

namespace CosmeticFilter
namespace Css

/-! ### Conditions on an element alone -/

/-- The value of an attribute compares like this with the text of the selector. -/
def Comparison.holds : Comparison → Text → Text → Bool
  | equals, value, expected => value == expected
  | includes, value, expected => (Text.words value).contains expected
  | dashMatch, value, expected => value == expected || (expected ++ ['-']).isPrefixOf value
  | startsWith, value, expected => !expected.isEmpty && expected.isPrefixOf value
  | endsWith, value, expected => !expected.isEmpty && expected.isSuffixOf value
  | contains, value, expected => !expected.isEmpty && Text.occursIn expected value

/-- The element has the attribute, and its value compares as asked. -/
def AttributeTest.holdsFor (test : AttributeTest) (e : Element) : Bool :=
  let fold (t : Text) : Text := if test.ignoreCase then Text.lower t else t
  match e.attributes.find? fun a => Text.sameIgnoringCase a.1 test.name with
  | none => false
  | some (_, value) =>
    match test.comparison with
    | none => true
    | some (comparison, expected) => comparison.holds (fold value) (fold expected)

/-- The element meets a condition that does not depend on its place in the document. -/
def Simple.holdsFor : Simple → Element → Bool
  | tag name, e => e.isTag name
  | hasClass name, e => e.classes.contains name
  | hasId name, e => e.id? == some name
  | universal, _ => true
  | never, _ => false
  | pseudo _, _ => false
  | .attribute test, e => test.holdsFor e

/-! ### Conditions on a place in the document -/

/-- The greatest position that is told apart. -/
def maxPosition : Int := 2147483647

/-- One more than the number of siblings that count. -/
def position (siblings : List Nat) (counts : Nat → Bool) : Int :=
  min ((siblings.countP counts : Int) + 1) maxPosition

/-- The position among the children of the parent that count. -/
def positionFromStart (d : Document) (counts : Nat → Bool) (n : Nat) : Int :=
  position (d.preceding n) counts

/-- The same, counted from the end. -/
def positionFromEnd (d : Document) (counts : Nat → Bool) (n : Nat) : Int :=
  position (d.following n) counts

/-- The node is an element of the same type, letter case aside. -/
def isSameType (d : Document) (e : Element) (n : Nat) : Bool :=
  (d.element? n).any fun f => f.isTag e.tag

/-- The node leaves its parent empty: a comment, or a text without characters. -/
def isVoid (d : Document) (n : Nat) : Bool :=
  match d.content? n with
  | some (.text t) => t.isEmpty
  | some (.comment _) => true
  | _ => false

/-- A language range stands for the language itself and for its variants, letter case aside. -/
def coversLanguage (range value : Text) : Bool :=
  Text.sameIgnoringCase value range || (Text.lower range ++ ['-']).isPrefixOf (Text.lower value)

/-- The language of a node: the attribute `lang` of the nearest element that has it, the node itself
included. -/
def language? (d : Document) (n : Nat) : Option Text :=
  (d.selfAndAncestors n).findSome? fun m =>
    (d.element? m).bind fun e => e.attribute? "lang".toList

/-- The element at this place meets a structural condition; `:scope` is none. -/
def PseudoClass.holdsAt (d : Document) (n : Nat) (e : Element) : PseudoClass → Bool
  | root => d.documentElement? == some n
  | scope => false
  | firstChild => positionFromStart d d.isElement n == 1
  | lastChild => positionFromEnd d d.isElement n == 1
  | onlyChild => positionFromStart d d.isElement n == 1 && positionFromEnd d d.isElement n == 1
  | firstOfType => positionFromStart d (isSameType d e) n == 1
  | lastOfType => positionFromEnd d (isSameType d e) n == 1
  | onlyOfType =>
    positionFromStart d (isSameType d e) n == 1 && positionFromEnd d (isSameType d e) n == 1
  | nthChild nth => nth.matches (positionFromStart d d.isElement n)
  | nthLastChild nth => nth.matches (positionFromEnd d d.isElement n)
  | nthOfType nth => nth.matches (positionFromStart d (isSameType d e) n)
  | nthLastOfType nth => nth.matches (positionFromEnd d (isSameType d e) n)
  | empty => (d.children n).all (isVoid d)
  | link => (e.isTag "a".toList || e.isTag "area".toList) && e.hasAttribute "href".toList
  | disabled => e.hasAttribute "disabled".toList
  | enabled => !e.hasAttribute "disabled".toList
  | checked => e.hasAttribute "checked".toList
  | required => e.hasAttribute "required".toList
  | optional => !e.hasAttribute "required".toList
  | lang range => (language? d n).any (coversLanguage range)

/-- The node is what `:scope` stands for. -/
def isScope (d : Document) (scope : Option Nat) (n : Nat) : Bool :=
  match scope with
  | some s => n == s
  | none => d.documentElement? == some n

/-- The node meets a condition. -/
def Simple.holdsAt (d : Document) (scope : Option Nat) (n : Nat) (s : Simple) : Bool :=
  match s with
  | pseudo .scope => isScope d scope n
  | pseudo p => (d.element? n).any fun e => p.holdsAt d n e
  | s => (d.element? n).any s.holdsFor

/-- The node meets all conditions of a compound. -/
def Compound.holdsAt (d : Document) (scope : Option Nat) (c : Compound) (n : Nat) : Bool :=
  c.all (Simple.holdsAt d scope n)

/-! ### Chains -/

/-- The nodes to the left of a combinator that may go with a node to the right of it, nearest
first. -/
def Combinator.candidates (d : Document) (n : Nat) : Combinator → List Nat
  | descendant => d.ancestors n
  | child => (d.parent? n).toList
  | nextSibling => (d.previousElement? n).toList
  | subsequentSibling => (d.preceding n).filter d.isElement

/-- The compounds to the left of a node can be met one after the other. -/
def chainHolds (d : Document) (scope : Option Nat) : List (Combinator × Compound) → Nat → Bool
  | [], _ => true
  | (k, c) :: rest, n =>
    (k.candidates d n).any fun m => Compound.holdsAt d scope c m && chainHolds d scope rest m

/-- The node is an element that the selector stands for. -/
def Complex.selects (d : Document) (scope : Option Nat) (s : Complex) (n : Nat) : Bool :=
  d.isElement n && Compound.holdsAt d scope s.subject n && chainHolds d scope s.chain n

/-- The node is an element that one of the selectors stands for. -/
def Selector.selects (d : Document) (scope : Option Nat) (s : Selector) (n : Nat) : Bool :=
  s.alternatives.any fun c => c.selects d scope n

end Css
end CosmeticFilter
