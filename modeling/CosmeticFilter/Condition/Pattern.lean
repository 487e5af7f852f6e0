import CosmeticFilter.Condition.Error
import CosmeticFilter.Regex.Matching
import CosmeticFilter.Regex.Reader

/-!
# Patterns

The arguments of pseudo-classes name attributes, properties and values by patterns. A pattern is a
regular expression between slashes, which may match anywhere, or a *glob*, which has to match the
whole text and in which `*` stands for any run of characters within a line.

* `RegexLiteral`: `/pattern/flags` and its parts;
* `Glob.toRegex`, `Glob.source`: a glob as a regular expression, and how that is written;
* `Pattern.ofText`: reads a pattern;
* `Pattern.isMatch`: a text fits the pattern.
-/

namespace CosmeticFilter

/-- A regular expression between slashes, with the letters after them. -/
structure RegexLiteral where
  /-- The text between the slashes. -/
  body : Text
  /-- The letters after the second slash. -/
  flags : Text
  deriving DecidableEq, Repr

namespace RegexLiteral

/-- The letters that may follow; `g`, `u` and `y` change nothing. -/
def knownFlags : List Char := ['g', 'i', 'm', 's', 'u', 'y']

/-- Recognises a literal: a slash, a text that is not empty, a last slash, and letters alone. -/
def ofText? : Text → Option RegexLiteral
  | [] => none
  | c :: r =>
    if c ≠ '/' then none
    else match Text.cutLast (· == '/') r with
      | none => none
      | some (body, flags) =>
        if body.isEmpty || !flags.all Char.isAlpha then none else some ⟨body, flags⟩

/-- The regular expression of a literal. A slash inside it is written behind a backslash. -/
def compile (l : RegexLiteral) : Except ArgumentError Regex :=
  match l.flags.find? fun c => !knownFlags.contains c with
  | some c => .error (.unsupportedFlag c)
  | none =>
    match Regex.ofText? (l.flags.contains 'i') (l.flags.contains 'm') (l.flags.contains 's')
        (Text.dropEscapes '/' l.body) with
    | some r => .ok r
    | none => .error .invalidRegex

end RegexLiteral

namespace Glob

/-- Any run of characters within a line. -/
def anything : Regex := .repeated (.set (.compl (.single '\n'))) 0 none

/-- What stands between the ends of a glob: a star is any run, all else is literal. -/
def body (t : Text) : Regex :=
  Regex.seqs (t.map fun c => if c = '*' then anything else .char c)

/-- The regular expression that matches exactly the texts a glob stands for. -/
def toRegex (t : Text) : Regex :=
  .seq (.assert .textStart) (.seq (body t) (.assert .textEnd))

/-- A character as a regular expression writes it. -/
def escape (c : Char) : Text := if Regex.isSign c then ['\\', c] else [c]

/-- The regular expression of a glob, written out. -/
def source (t : Text) : Text :=
  '^' :: (t.flatMap fun c => if c = '*' then ".*".toList else escape c) ++ ['$']

end Glob

/-- A pattern for names and values. -/
inductive Pattern where
  /-- The whole text has to be one that the glob stands for. -/
  | glob (t : Text)
  /-- The expression has to match somewhere. -/
  | regex (r : Regex)
  deriving Repr

namespace Pattern

/-- Reads a pattern: a literal between slashes, a quoted glob, or a bare glob. -/
def ofText (t : Text) : Except ArgumentError Pattern :=
  let t := Text.trim t
  if t = [] then .error .emptyPattern
  else match RegexLiteral.ofText? t with
    | some l => l.compile.map regex
    | none => .ok (glob ((Text.stripQuotes? t).getD t))

/-- The regular expression of a pattern. -/
def toRegex : Pattern → Regex
  | glob t => Glob.toRegex t
  | regex r => r

/-- The text fits the pattern. -/
def isMatch (p : Pattern) (t : Text) : Bool := p.toRegex.isMatch t

end Pattern
end CosmeticFilter
