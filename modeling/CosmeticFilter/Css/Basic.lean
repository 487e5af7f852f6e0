import CosmeticFilter.Css.Nth

/-!
# Selectors that a browser evaluates

The part of the selector grammar that needs no extension: type, class, id, universal and attribute
selectors, the structural pseudo-classes, and the four combinators.

A complex selector is kept as it is matched, from the right: its subject, and then the compounds to
the left of it, each with the combinator on its right. `div > ul li` has the subject `li` and the
chain `[(descendant, ul), (child, div)]`.
-/

namespace CosmeticFilter
namespace Css

/-- The structural pseudo-classes. -/
inductive PseudoClass where
  /-- The document element. -/
  | root
  /-- The element that the selector is relative to; also put in front of a leading combinator. -/
  | scope
  /-- First among the element children of its parent. -/
  | firstChild
  /-- Last among the element children of its parent. -/
  | lastChild
  /-- The only element child of its parent. -/
  | onlyChild
  /-- First among the siblings of its type. -/
  | firstOfType
  /-- Last among the siblings of its type. -/
  | lastOfType
  /-- The only sibling of its type. -/
  | onlyOfType
  /-- At one of these positions among the element children of its parent. -/
  | nthChild (nth : Nth)
  /-- The same, counted from the end. -/
  | nthLastChild (nth : Nth)
  /-- At one of these positions among the siblings of its type. -/
  | nthOfType (nth : Nth)
  /-- The same, counted from the end. -/
  | nthLastOfType (nth : Nth)
  /-- Without element children and without text. -/
  | empty
  /-- A hyperlink; no link counts as visited. -/
  | link
  /-- With the attribute `disabled`. -/
  | disabled
  /-- Without the attribute `disabled`. -/
  | enabled
  /-- With the attribute `checked`. -/
  | checked
  /-- With the attribute `required`. -/
  | required
  /-- Without the attribute `required`. -/
  | optional
  /-- In this language, by the nearest `lang` attribute. -/
  | lang (language : Text)
  deriving DecidableEq, Repr

/-- How an attribute selector compares the value of the attribute. -/
inductive Comparison where
  /-- `=`: the value is the text. -/
  | equals
  /-- `~=`: the text is one of the words of the value. -/
  | includes
  /-- `|=`: the value is the text, or starts with it and a minus sign. -/
  | dashMatch
  /-- `^=`: the value starts with the text. -/
  | startsWith
  /-- `$=`: the value ends with the text. -/
  | endsWith
  /-- `*=`: the value contains the text. -/
  | contains
  deriving DecidableEq, Repr

/-- An attribute selector. -/
structure AttributeTest where
  /-- The name of the attribute, in small letters. -/
  name : Text
  /-- What the value is compared with; without it the attribute only has to exist. -/
  comparison : Option (Comparison × Text)
  /-- The letter case of ASCII letters in the value does not count. -/
  ignoreCase : Bool
  deriving DecidableEq, Repr

/-- One condition on an element. -/
inductive Simple where
  /-- A tag name, in small letters. -/
  | tag (name : Text)
  /-- One of the element's classes. -/
  | hasClass (name : Text)
  /-- The element's id. -/
  | hasId (name : Text)
  /-- `*`. -/
  | universal
  /-- A pseudo-class of a state, or a pseudo-element: no element of a document at rest. -/
  | never
  /-- A structural pseudo-class. -/
  | pseudo (pseudoClass : PseudoClass)
  /-- An attribute selector. -/
  | attribute (test : AttributeTest)
  deriving DecidableEq, Repr

/-- Conditions that one element has to meet together. -/
abbrev Compound := List Simple

/-- How the elements of two neighbouring compounds are related. -/
inductive Combinator where
  /-- `A B`: `A` is an ancestor of `B`. -/
  | descendant
  /-- `A > B`: `A` is the parent of `B`. -/
  | child
  /-- `A + B`: `A` is the element right before `B`. -/
  | nextSibling
  /-- `A ~ B`: `A` is an element before `B` with the same parent. -/
  | subsequentSibling
  deriving DecidableEq, Repr

/-- The combinator that a character stands for. -/
def Combinator.ofChar? (c : Char) : Option Combinator :=
  if c = '>' then some child
  else if c = '+' then some nextSibling
  else if c = '~' then some subsequentSibling
  else none

/-- The character is a combinator. -/
def isCombinator (c : Char) : Bool := c == '>' || c == '+' || c == '~'

theorem Combinator.ofChar?_isSome (c : Char) : (ofChar? c).isSome = isCombinator c := by
  unfold ofChar? isCombinator
  split
  · simp_all
  · split
    · simp_all
    · split <;> simp_all

/-- Compounds joined by combinators. -/
structure Complex where
  /-- The rightmost compound; its element is the one that is selected. -/
  subject : Compound
  /-- The compounds to the left, nearest first, each with the combinator on its right. -/
  chain : List (Combinator × Compound)
  deriving DecidableEq, Repr

namespace Complex

/-- All compounds, from right to left. -/
def compounds (s : Complex) : List Compound := s.subject :: s.chain.map Prod.snd

/-- The selector refers to `:scope`, by name or through a leading combinator. -/
def isAnchored (s : Complex) : Bool := s.compounds.any fun c => c.contains (.pseudo .scope)

end Complex

/-- A list of complex selectors; an element matches it if it matches one of them. -/
structure Selector where
  /-- The complex selectors, as written. -/
  alternatives : List Complex
  deriving DecidableEq, Repr

/-- One of the alternatives refers to `:scope`; it may match elements outside the scope. -/
def Selector.isAnchored (s : Selector) : Bool := s.alternatives.any Complex.isAnchored

end Css
end CosmeticFilter
