import CosmeticFilter.Text.Number

/-!
# Names of the extended pseudo-classes

The extended pseudo-classes form a closed set. A name is written in any letter case and printed in
small letters; an alias such as `:-abp-has` keeps a name of its own, so that a selector is printed
as it was written.

* `Name.ofText?` and `Name.text`: reading and printing;
* the families of names that share a placement rule (`isHasFamily`, `isIsFamily`, `isScoped`);
* `Name.argumentKind` and `Name.operation`: how an argument is read and what a selector argument
  does.
-/

namespace CosmeticFilter
namespace Extended

/-- The names of the extended pseudo-classes. -/
inductive Name where
  /-- `:contains(text)`: the text content holds a text or matches a pattern. -/
  | contains
  /-- `:-abp-contains(text)`, an alias of `:contains`. -/
  | abpContains
  /-- `:has-text(text)`, an alias of `:contains`. -/
  | hasText
  /-- `:matches-css(property: value)`. -/
  | matchesCss
  /-- `:matches-css-before(property: value)`, on the `::before` box. -/
  | matchesCssBefore
  /-- `:matches-css-after(property: value)`, on the `::after` box. -/
  | matchesCssAfter
  /-- `:matches-attr(name[=value])`. -/
  | matchesAttr
  /-- `:matches-property(chain[=value])`. -/
  | matchesProperty
  /-- `:nth-ancestor(n)`. -/
  | nthAncestor
  /-- `:upward(n)` or `:upward(selector)`. -/
  | upward
  /-- `:xpath(expression)`. -/
  | xpath
  /-- `:remove()`, the mark of a rule that removes what it selects. -/
  | remove
  /-- `:has(selectors)`. -/
  | has
  /-- `:-abp-has(selectors)`, an alias of `:has`. -/
  | abpHas
  /-- `:if(selectors)`, an alias of `:has`. -/
  | if_
  /-- `:if-not(selectors)`: what `:has` would not keep. -/
  | ifNot
  /-- `:is(selectors)`. -/
  | is
  /-- `:where(selectors)`, an alias of `:is`. -/
  | where_
  /-- `:not(selectors)`. -/
  | not
  deriving DecidableEq, Repr

/-- How the argument of a pseudo-class is read. -/
inductive ArgumentKind where
  /-- As text with a grammar of its own. -/
  | absolute
  /-- As a list of selectors. -/
  | relative
  deriving DecidableEq, Repr

/-- What a pseudo-class does with the elements that its selector argument finds. -/
inductive Operation where
  /-- Keep the candidates that have a match relative to them. -/
  | has
  /-- Keep the candidates that have none. -/
  | hasNot
  /-- Keep the candidates that the argument matches. -/
  | is
  /-- Keep the candidates that it does not match. -/
  | not
  /-- Move each candidate to its nearest ancestor that the argument matches. -/
  | upward
  deriving DecidableEq, Repr

namespace Name

/-- All names. -/
def all : List Name :=
  [contains, abpContains, hasText, matchesCss, matchesCssBefore, matchesCssAfter, matchesAttr,
    matchesProperty, nthAncestor, upward, xpath, remove, has, abpHas, if_, ifNot, is, where_, not]

/-- The name as it is printed. -/
def text : Name → Text
  | contains => "contains".toList
  | abpContains => "-abp-contains".toList
  | hasText => "has-text".toList
  | matchesCss => "matches-css".toList
  | matchesCssBefore => "matches-css-before".toList
  | matchesCssAfter => "matches-css-after".toList
  | matchesAttr => "matches-attr".toList
  | matchesProperty => "matches-property".toList
  | nthAncestor => "nth-ancestor".toList
  | upward => "upward".toList
  | xpath => "xpath".toList
  | remove => "remove".toList
  | has => "has".toList
  | abpHas => "-abp-has".toList
  | if_ => "if".toList
  | ifNot => "if-not".toList
  | is => "is".toList
  | where_ => "where".toList
  | not => "not".toList

/-- The name that a text spells, in any letter case. -/
def ofText? (t : Text) : Option Name := all.find? fun n => n.text == Text.lower t

/-- Every name is in the list of names. -/
theorem mem_all (n : Name) : n ∈ all := by cases n <;> decide

/-- A name is read back from what it is printed as. -/
theorem ofText?_text (n : Name) : ofText? n.text = some n := by cases n <;> decide

/-- A text spells a name if it is the name's printed form, letter case aside. -/
theorem lower_of_ofText? {t : Text} {n : Name} (h : ofText? t = some n) :
    Text.lower t = n.text := by
  rw [ofText?] at h
  have spelled := List.find?_some h
  exact (beq_iff_eq.mp spelled).symm

/-- `:has()`, its aliases and `:if-not()`: their arguments are matched relative to the candidate
and may start with a combinator. -/
def isHasFamily : Name → Bool
  | has | abpHas | if_ | ifNot => true
  | _ => false

/-- `:is()` and `:where()`. -/
def isIsFamily : Name → Bool
  | is | where_ => true
  | _ => false

/-- The names that may neither follow a pseudo-element nor stand in its argument. -/
def isScoped (n : Name) : Bool := n.isHasFamily || n.isIsFamily

/-- `:contains()` and its aliases. -/
def isContainsFamily : Name → Bool
  | contains | abpContains | hasText => true
  | _ => false

/-- Whether an argument has to be given; `:remove()` alone takes none. -/
def requiresArgument : Name → Bool
  | remove => false
  | _ => true

/-- What the name does with a selector argument; `none` if it never takes one. -/
def operation : Name → Option Operation
  | has | abpHas | if_ => some .has
  | ifNot => some .hasNot
  | is | where_ => some .is
  | not => some .not
  | upward => some .upward
  | _ => none

/-- How an argument is read. That of `:upward()` is a depth if it is a number of 64 bits, and
selectors otherwise. -/
def argumentKind (n : Name) (argument : Text) : ArgumentKind :=
  match n with
  | has | abpHas | if_ | ifNot | is | where_ | not => .relative
  | upward =>
    match Text.readInt64? (Text.trim argument) with
    | some _ => .absolute
    | none => .relative
  | _ => .absolute

end Name
end Extended
end CosmeticFilter
