import CosmeticFilter.Condition.Basic

/-!
# Fragments after pseudo-classes

A fragment that follows a pseudo-class leads on from the elements found so far. If it starts with a
blank or a combinator, it is searched for relative to each of them. Otherwise its first compound
filters them, as `.foo` does in `div:has(a).foo span`, and the rest leads on.

* `Continuation.splitCompound`: the first compound of a text, and the rest;
* `Continuation.follow`: a search relative to an element;
* `Continuation.apply`: the elements that a fragment leads to.
-/

namespace CosmeticFilter
namespace Continuation

/-- The first compound of a text, and the rest, which starts with a blank or a combinator. -/
def splitCompound (t : Text) : Text × Text :=
  match Nesting.cut .roundAndSquare (fun c => Text.isBlank c || Css.isCombinator c) .top t with
  | some (compound, c, rest) => (compound, c :: rest)
  | none => (t, [])

/-- The selector for a search relative to an element: a text that starts with a combinator as it is,
and any other below the element. -/
def relativeSelector (t : Text) : Text :=
  let trimmed := Text.trim t
  if trimmed.head?.any Css.isCombinator then trimmed else ":scope ".toList ++ trimmed

/-- Searches relative to an element. -/
def follow (p : Page) (t : Text) (n : Nat) : Except MatchError (List Nat) :=
  match p.query (relativeSelector t) n with
  | .ok found => .ok found
  | .error e => .error (.rejected e)

/-- Searches relative to each element. -/
def followAll (p : Page) (t : Text) (ns : List Nat) : Except MatchError (List Nat) :=
  (ns.mapM (follow p t)).map List.flatten

/-- The elements that match a compound. -/
def keepMatching (p : Page) (compound : Text) : List Nat → Except MatchError (List Nat)
  | [] => .ok []
  | n :: r =>
    match p.closest? compound n with
    | .error e => .error (.rejected e)
    | .ok found =>
      (keepMatching p compound r).map fun kept => if found = some n then n :: kept else kept

/-- The fragment starts with a blank or a combinator. -/
def isRelative (t : Text) : Bool :=
  t.head?.any fun c => Text.isBlank c || Css.isCombinator c

/-- The elements that a fragment leads to. -/
def apply (p : Page) (t : Text) (ns : List Nat) : Except MatchError (List Nat) :=
  if isRelative t then followAll p t ns
  else
    let parts := splitCompound t
    match keepMatching p parts.1 ns with
    | .error e => .error e
    | .ok kept => if Text.isAllBlank parts.2 then .ok kept else followAll p parts.2 kept

end Continuation
end CosmeticFilter
