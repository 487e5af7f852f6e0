import CosmeticFilter.StyleSheet.Error

/-!
# Removal marks

A rule whose selector ends in `:remove()` removes the elements that it finds. The mark does not
belong to the selector, so it is taken off first. Marks inside quotes and brackets do not count:
they belong to an argument.

* `removalMarks`: what stands before and after each mark;
* `stripRemoval`: the selector without its mark, and whether it had one.
-/

namespace CosmeticFilter
namespace StyleSheet

/-- The mark. -/
def removalMark : Text := ":remove()".toList

/-- Cuts a mark, in any letter case, from what follows it. -/
def cutMark? (t : Text) : Option (Text × Text) :=
  if Text.sameIgnoringCase (t.take removalMark.length) removalMark then
    some (t.take removalMark.length, t.drop removalMark.length)
  else none

/-- What stands before and after each mark, from left to right. -/
def marksFrom (s : Nesting) : Text → List (Text × Text)
  | [] => []
  | c :: r =>
    match if s.isTop then cutMark? (c :: r) else none with
    | some (mark, rest) =>
      if rest.length ≤ r.length then
        ([], rest) :: (marksFrom s rest).map fun (x, y) => (mark ++ x, y)
      else []
    | none => (marksFrom (s.step .roundAndSquare c) r).map (Text.onto c)
termination_by t => t.length

/-- What stands before and after each mark outside quotes and brackets. -/
def removalMarks (t : Text) : List (Text × Text) := marksFrom .top t

/-- The selector without blanks around it and without the mark at its end, and whether there was
one. -/
def stripRemoval (t : Text) : Except Error (Text × Bool) :=
  let selector := Text.trim t
  match removalMarks selector with
  | [] => .ok (selector, false)
  | [(before, after)] =>
    if after = [] then .ok (Text.trimEnd before, true) else .error (.removeNotLast selector)
  | _ => .error (.removedTwice selector)

end StyleSheet
end CosmeticFilter
