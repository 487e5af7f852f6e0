import CosmeticFilter.Text.Basic

/-!
# Names, chains and values

The argument of an attribute or property pseudo-class is `name` or `name=value`, and the name of a
property may be a chain `first.second.third`. Neither `=` nor `.` counts inside a regular
expression, which starts at the beginning or right after a full stop, and `=` does not count inside
quotes either.

* `Assignment.Scan`: what a reader remembers;
* `Assignment.split`: the name, and the value if there is one;
* `Assignment.chain`: the names of a chain.
-/

namespace CosmeticFilter
namespace Assignment

/-- What a reader of a name remembers. -/
structure Scan where
  /-- The quote that is open. -/
  quote : Option Char
  /-- The reader is between the slashes of a regular expression. -/
  inRegex : Bool
  /-- The previous character was a backslash that escapes the next one. -/
  escaped : Bool
  /-- The previous character. -/
  previous : Option Char
  deriving DecidableEq, Repr

namespace Scan

/-- Before the first character. -/
def start : Scan := ⟨none, false, false, none⟩

/-- A slash begins a regular expression here. -/
def beginsRegex (s : Scan) : Bool := s.previous == none || s.previous == some '.'

/-- Reads one character; `quotes` says whether quotes count. -/
def step (quotes : Bool) (s : Scan) (c : Char) : Scan :=
  if s.escaped then ⟨s.quote, s.inRegex, false, some c⟩
  else if c = '\\' then ⟨s.quote, s.inRegex, true, some c⟩
  else match s.quote with
    | some q => ⟨if c = q then none else some q, s.inRegex, false, some c⟩
    | none =>
      if c = '/' ∧ (s.inRegex ∨ s.beginsRegex) then ⟨none, !s.inRegex, false, some c⟩
      else if quotes ∧ !s.inRegex ∧ (c = '"' ∨ c = '\'') then ⟨some c, false, false, some c⟩
      else ⟨none, s.inRegex, false, some c⟩

/-- The next character stands outside regular expressions and quotes and is not escaped. -/
def isOutside (s : Scan) : Bool := !s.escaped && s.quote.isNone && !s.inRegex

end Scan

/-- The text before the first equals sign outside, and the text after it. -/
def splitFrom (s : Scan) : Text → Text × Option Text
  | [] => ([], none)
  | c :: r =>
    if s.isOutside && c == '=' then ([], some r)
    else
      let (name, value) := splitFrom (s.step true c) r
      (c :: name, value)

/-- The name in an argument, and the value if there is one. -/
def split (t : Text) : Text × Option Text := splitFrom .start t

/-- The names between the full stops outside. -/
def chainFrom (s : Scan) : Text → List Text
  | [] => [[]]
  | c :: r =>
    if s.isOutside && c == '.' then [] :: chainFrom (s.step false c) r
    else match chainFrom (s.step false c) r with
      | [] => [[c]]
      | w :: ws => (c :: w) :: ws

/-- The names of a chain. -/
def chain (t : Text) : List Text := chainFrom .start t

end Assignment
end CosmeticFilter
