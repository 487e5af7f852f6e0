import CosmeticFilter.Extended.Reader
import CosmeticFilter.Query.Continuation

/-!
# Evaluating extended selectors

A branch is evaluated from left to right on a list of candidates. Its first fragment is searched
for, and each later node filters the candidates, moves them, or leads on from them. The elements of
all branches are listed in the order in which they are found, each once.

An error of a node ends the evaluation, except inside an argument, where a branch that fails only
finds nothing.

* `Query.evalBranches`: the elements that branches find;
* `Query.all`: the elements that a selector finds on a page;
* `Query.matches?`: an element is one of them.
-/

namespace CosmeticFilter
namespace Query

open Extended (Node Selector)

/-- Where the first fragment of a branch is searched for. -/
inductive Origin where
  /-- In the whole document. -/
  | document
  /-- Relative to a candidate of `:has()`. -/
  | element (n : Nat)
  deriving DecidableEq, Repr

/-- Searches for the first fragment of a branch. -/
def search (p : Page) (o : Origin) (fragment : Text) : Except MatchError (List Nat) :=
  match o with
  | .document =>
    match p.query fragment 0 with
    | .ok found => .ok found
    | .error e => .error (.rejected e)
  | .element n => Continuation.follow p fragment n

/-- The candidates that a pseudo-class with a text argument leads to. -/
def applyTextual (p : Page) (name : Extended.Name) (argument : Text) (candidates : List Nat) :
    Except MatchError (List Nat) :=
  match Condition.compile name argument with
  | .ok c => c.apply p name candidates
  | .error _ => .ok []

/-- The expression of a branch that starts with `*:xpath()`: such a branch is evaluated once from
the document, not once for each element. -/
def leadingXPath? (o : Origin) (fragment argument : Text) : Option Text :=
  if o = .document ∧ fragment = ['*'] then some (Text.trim argument) else none

/-- The nearest element above a node that is one of those listed. -/
def nearestAbove? (d : Document) (listed : List Nat) (n : Nat) : Option Nat :=
  match _parent : d.parentElement? n with
  | none => none
  | some m => if listed.contains m then some m else nearestAbove? d listed m
termination_by n
decreasing_by
  exact Document.parent_lt (Option.filter_eq_some_iff.1 _parent).1

/-- The nearest element above a node that matches a native selector; none if the selector cannot be
evaluated. -/
def nearestMatching? (p : Page) (selector : Text) (n : Nat) : Option Nat :=
  match p.document.parentElement? n with
  | none => none
  | some m =>
    match p.closest? selector m with
    | .ok found => found
    | .error _ => none

mutual

/-- The candidates that a node leads to. -/
def applyNode (p : Page) (candidates : List Nat) : Node → Except MatchError (List Nat)
  | .fragment t => Continuation.apply p t candidates
  | .textual name argument => applyTextual p name argument candidates
  | .nested name branches =>
    match name.operation with
    | none => .ok candidates
    | some .has => .ok (candidates.filter fun n => findsAny p (.element n) branches)
    | some .hasNot => .ok (candidates.filter fun n => !findsAny p (.element n) branches)
    | some .is =>
      let found := evalArgument p branches
      .ok (candidates.filter fun n => found.contains n)
    | some .not =>
      let found := evalArgument p branches
      .ok (candidates.filter fun n => !found.contains n)
    | some .upward =>
      if branches.all Extended.isNativeBranch then
        .ok (candidates.filterMap (nearestMatching? p (Node.listText branches)))
      else
        let found := evalArgument p branches
        .ok (candidates.filterMap fun n => nearestAbove? p.document found n)

/-- The candidates that nodes lead to, one after the other. -/
def applyNodes (p : Page) (candidates : List Nat) : List Node → Except MatchError (List Nat)
  | [] => .ok candidates
  | a :: r =>
    if candidates.isEmpty then .ok []
    else match applyNode p candidates a with
      | .error e => .error e
      | .ok found => applyNodes p found.eraseDups r

/-- The elements that a branch finds. -/
def evalBranch (p : Page) (o : Origin) : List Node → Except MatchError (List Nat)
  | .fragment t :: .textual .xpath argument :: r =>
    match leadingXPath? o t argument with
    | some expression =>
      match p.xpath expression 0 with
      | .error e => .error (.rejected e)
      | .ok found => applyNodes p found r
    | none =>
      match search p o t with
      | .error e => .error e
      | .ok found => applyNodes p found (.textual .xpath argument :: r)
  | .fragment t :: r =>
    match search p o t with
    | .error e => .error e
    | .ok found => applyNodes p found r
  | _ => .ok []

/-- One of the branches finds something. -/
def findsAny (p : Page) (o : Origin) : List (List Node) → Bool
  | [] => false
  | b :: r =>
    (match evalBranch p o b with
      | .ok found => !found.isEmpty
      | .error _ => false) || findsAny p o r

/-- The elements that the branches of an argument find in the document; a branch that fails finds
nothing. -/
def evalArgument (p : Page) : List (List Node) → List Nat
  | [] => []
  | b :: r =>
    (match evalBranch p .document b with
      | .ok found => found
      | .error _ => []) ++ evalArgument p r

end

/-- The elements that branches find in the document, with repetitions. -/
def evalBranches (p : Page) : List (List Node) → Except MatchError (List Nat)
  | [] => .ok []
  | b :: r =>
    match evalBranch p .document b with
    | .error e => .error e
    | .ok found => (evalBranches p r).map (found ++ ·)

/-- The elements that a selector finds on a page, each once. -/
def all (p : Page) (s : Selector) : Except MatchError (List Nat) :=
  (evalBranches p s.branches).map List.eraseDups

/-- The element is one of those that a selector finds. A selector without extensions is matched
against the element directly. -/
def matches? (p : Page) (s : Selector) (n : Nat) : Except MatchError Bool :=
  if s.isNative then
    match p.closest? s.text n with
    | .ok found => .ok (found == some n)
    | .error e => .error (.rejected e)
  else (all p s).map fun found => found.contains n

end Query
end CosmeticFilter
