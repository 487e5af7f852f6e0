import CosmeticFilter.Condition.Pattern

/-!
# Conditions on the text content

The argument of `:contains()` is a text to look for, or a regular expression between slashes. In the
text, a backslash lets brackets, quotes and itself be written.

* `ContentPattern.unescape`: the text that is meant;
* `ContentPattern.ofText`, `ContentPattern.isMatch`: reading and testing.
-/

namespace CosmeticFilter

/-- What a text content is searched for. -/
inductive ContentPattern where
  /-- A text that has to occur. -/
  | literal (needle : Text)
  /-- An expression that has to match somewhere. -/
  | regex (r : Regex)
  deriving Repr

namespace ContentPattern

/-- The characters that a backslash may stand before. -/
def isEscapable (c : Char) : Bool := ['(', ')', '[', ']', '\\', '"', '\''].contains c

/-- The text without the backslashes that stand before such a character. -/
def unescape : Text → Text
  | [] => []
  | '\\' :: c :: r => if isEscapable c then c :: unescape r else '\\' :: unescape (c :: r)
  | c :: r => c :: unescape r

/-- Reads the argument of `:contains()`. -/
def ofText (t : Text) : Except ArgumentError ContentPattern :=
  if t = [] then .error .emptyText
  else match RegexLiteral.ofText? t with
    | some l => l.compile.map regex
    | none => .ok (literal (unescape t))

/-- The text content fits. -/
def isMatch : ContentPattern → Text → Bool
  | literal needle, t => Text.occursIn needle t
  | regex r, t => r.isMatch t

end ContentPattern
end CosmeticFilter
