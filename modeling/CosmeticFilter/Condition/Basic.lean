import CosmeticFilter.Condition.Content
import CosmeticFilter.Condition.Property
import CosmeticFilter.Condition.Style
import CosmeticFilter.Extended.Name
import CosmeticFilter.Page.Basic

/-!
# Conditions

A pseudo-class with a text argument is compiled to a condition once, when the selector is read, and
applied to candidates later. Most conditions keep some of the candidates; two lead from a candidate
to other elements.

* `Condition.compile`: the condition of a pseudo-class and its argument, or why there is none;
* `Condition.keeps`: an element satisfies a condition;
* `Condition.apply`: the elements that candidates lead to.
-/

namespace CosmeticFilter

open Extended (Name)

/-- A pseudo-class with its argument read. -/
inductive Condition where
  /-- On the text content. -/
  | content (p : ContentPattern)
  /-- On a computed style. -/
  | style (p : StylePattern)
  /-- On the attributes. -/
  | attributes (p : AttributePattern)
  /-- On the properties. -/
  | properties (p : PropertyPattern)
  /-- Leads to the ancestor that is so many elements above. -/
  | ancestor (depth : Nat)
  /-- Leads to the elements that an XPath expression selects. -/
  | xpath (expression : Text)
  /-- The mark of a rule that removes what it selects; every element satisfies it. -/
  | removal
  deriving Repr

/-- The argument of a pseudo-class is refused. -/
structure InvalidArgument where
  /-- The pseudo-class. -/
  name : Name
  /-- Its argument, as written. -/
  argument : Text
  /-- Why it is refused. -/
  cause : ArgumentError
  deriving DecidableEq, Repr

/-- The wording of an error. -/
def InvalidArgument.message (e : InvalidArgument) : Text :=
  "invalid argument ".toList ++ Text.ticked e.argument ++ " for :".toList ++ e.name.text ++
    "(): ".toList ++ e.cause.message

/-- Why a condition cannot be applied. -/
inductive MatchError where
  /-- There are not so many elements above a candidate. -/
  | outOfRange (name : Name) (depth : Nat)
  /-- The page cannot answer. -/
  | rejected (e : PageError)
  deriving DecidableEq, Repr

/-- The wording of an error. -/
def MatchError.message : MatchError → Text
  | outOfRange name depth =>
    ':' :: name.text ++ '(' :: Text.ofNat depth ++ ") walks past the document root".toList
  | rejected e => e.message

namespace Condition

/-- The greatest number of elements to go up. -/
def maxDepth : Int := 255

/-- Reads how many elements to go up. -/
def readDepth (t : Text) : Except ArgumentError Nat :=
  let s := Text.trim t
  match Text.readInt64? s with
  | none => .error (.notAnInteger s)
  | some n => if 1 ≤ n ∧ n ≤ maxDepth then .ok n.toNat else .error (.depthOutOfRange n)

/-- The box that the name of a pseudo-class chooses. -/
def boxOfName? : Name → Option Box
  | .matchesCssBefore => some .before
  | .matchesCssAfter => some .after
  | _ => none

/-- Reads the argument of a pseudo-class. -/
def read (name : Name) (argument : Text) : Except ArgumentError Condition :=
  match name with
  | .contains | .abpContains | .hasText => (ContentPattern.ofText argument).map content
  | .matchesCss | .matchesCssBefore | .matchesCssAfter =>
    (StylePattern.ofText (boxOfName? name) argument).map style
  | .matchesAttr => (AttributePattern.ofText argument).map attributes
  | .matchesProperty => (PropertyPattern.ofText argument).map properties
  | .nthAncestor | .upward => (readDepth argument).map ancestor
  | .xpath =>
    if Text.trim argument = [] then .error .emptyExpression
    else .ok (xpath (Text.trim argument))
  | .remove => if Text.isAllBlank argument then .ok removal else .error .removalArgument
  | .has | .abpHas | .if_ | .ifNot | .is | .where_ | .not => .error .selectorExpected

/-- The condition of a pseudo-class and its argument. -/
def compile (name : Name) (argument : Text) : Except InvalidArgument Condition :=
  match read name argument with
  | .ok c => .ok c
  | .error cause => .error ⟨name, argument, cause⟩

/-- The element satisfies the condition; one that leads elsewhere counts as satisfied. -/
def keeps (p : Page) (n : Nat) : Condition → Bool
  | content c => c.isMatch (p.document.textContent n)
  | style s => (p.style? n s.box s.property).any s.isMatch
  | attributes a => a.isMatch (p.attributes n)
  | properties q => q.isMatch (p.properties n)
  | ancestor _ => true
  | xpath _ => true
  | removal => true

/-- The element that is so many elements above a node. -/
def above? (d : Document) : Nat → Nat → Option Nat
  | 0, n => some n
  | depth + 1, n => (d.parentElement? n).bind (above? d depth)

/-- The ancestor that a pseudo-class leads to from a candidate. -/
def ascend (p : Page) (name : Name) (depth n : Nat) : Except MatchError Nat :=
  match above? p.document depth n with
  | some m => .ok m
  | none => .error (.outOfRange name depth)

/-- The elements that an expression selects from a candidate. -/
def followPath (p : Page) (expression : Text) (n : Nat) : Except MatchError (List Nat) :=
  match p.xpath expression n with
  | .ok found => .ok found
  | .error e => .error (.rejected e)

/-- The elements that the candidates lead to, in the order of the candidates. -/
def apply (p : Page) (name : Name) (candidates : List Nat) :
    Condition → Except MatchError (List Nat)
  | removal => .ok candidates
  | ancestor depth => candidates.mapM (ascend p name depth)
  | xpath expression => (candidates.mapM (followPath p expression)).map List.flatten
  | c => .ok (candidates.filter fun n => c.keeps p n)

end Condition
end CosmeticFilter
