import CosmeticFilter.Regex.Basic

/-!
# Matching regular expressions

Only whether a pattern occurs in a text is ever asked, so an expression is run on *all* places of
the text at once. A list of marks says which places have been reached: mark `i` belongs to the place
before the character number `i`, and the last mark to the end of the text. An expression turns the
places where it may start into the places where it may end.

* `Regex.run`: from the marks where an expression may start to those where it may end;
* `Regex.isMatch`: the expression occurs somewhere in the text.

A repetition adds places until no new one is found, which takes no more rounds than there are
places.
-/

namespace CosmeticFilter
namespace Regex

/-- Which places of a text are reached, the end included. -/
abbrev Marks := List Bool

/-- Moves each mark over the character after it, if that is in the set. -/
def advance (s : CharSet) (t : Text) (m : Marks) : Marks :=
  false :: List.zipWith (fun c b => b && s.mem c) t m

/-- Keeps the marks where the condition holds; `before` is the character before the first place. -/
def keep (a : Assertion) (before : Option Char) : Text → Marks → Marks
  | _, [] => []
  | [], b :: m => (b && a.holds before none) :: keep a none [] m
  | c :: t, b :: m => (b && a.holds before (some c)) :: keep a (some c) t m

/-- The places that either list marks. -/
def join (m n : Marks) : Marks := List.zipWith (· || ·) m n

/-- Adds the places reached by up to `rounds` steps, and stops when a step adds none. -/
def reach (step : Marks → Marks) : Nat → Marks → Marks
  | 0, m => m
  | rounds + 1, m =>
    let m' := join m (step m)
    if m' = m then m else reach step rounds m'

/-- The places reached by exactly `rounds` steps. -/
def walk (step : Marks → Marks) : Nat → Marks → Marks
  | 0, m => m
  | rounds + 1, m => if m.any id then walk step rounds (step m) else m

/-- The places where the expression may end if it starts at a marked place. -/
def run (t : Text) : Regex → Marks → Marks
  | empty, m => m
  | set s, m => advance s t m
  | assert a, m => keep a none t m
  | seq r s, m => run t s (run t r m)
  | alt r s, m => join (run t r m) (run t s m)
  | repeated r least most, m =>
    let started := walk (run t r) least m
    match most with
    | none => reach (run t r) (t.length + 1) started
    | some k => reach (run t r) (k - least) started

/-- The expression occurs somewhere in the text. -/
def isMatch (r : Regex) (t : Text) : Bool :=
  (run t r (List.replicate (t.length + 1) true)).any id

@[simp] theorem length_advance (s : CharSet) (t : Text) (m : Marks) :
    (advance s t m).length = min t.length m.length + 1 := by simp [advance]

@[simp] theorem length_keep (a : Assertion) (before : Option Char) (t : Text) (m : Marks) :
    (keep a before t m).length = m.length := by
  induction m generalizing before t with
  | nil => cases t <;> rfl
  | cons b m ih => cases t <;> simp [keep, ih]

@[simp] theorem length_join (m n : Marks) : (join m n).length = min m.length n.length := by
  simp [join]

end Regex
end CosmeticFilter
