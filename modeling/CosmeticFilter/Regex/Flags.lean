import CosmeticFilter.Regex.Basic

/-!
# Flags and single characters

The letters that change how a regular expression is read, and what they do to the sets and
assertions in it.

* `Flags.read?`: the letters after `(?`;
* `Flags.close`, `Flags.setOf`, `Flags.dot`, …: what the flags make of a set, a character or a sign.

Without the flag `u` only ASCII counts. A set that would then hold characters beyond ASCII is
refused, because it could match half a character.
-/

namespace CosmeticFilter
namespace Regex

/-- The state of the flags at a place of an expression. -/
structure Flags where
  /-- `i`: letter case does not count. -/
  ignoreCase : Bool
  /-- `m`: `^` and `$` match at lines. -/
  multiLine : Bool
  /-- `s`: `.` matches a line feed too. -/
  dotAll : Bool
  /-- `R`: a carriage return ends a line too. -/
  crlf : Bool
  /-- `u`: all of Unicode counts. -/
  unicode : Bool
  /-- `x`: blanks and comments are passed over. -/
  verbose : Bool
  deriving DecidableEq, Repr

namespace Flags

/-- The flags at the start of an expression. -/
def initial (ignoreCase multiLine dotAll : Bool) : Flags :=
  ⟨ignoreCase, multiLine, dotAll, false, true, false⟩

/-- Sets the flag with this letter; `U`, which reverses greed, never changes an answer. -/
def set? (f : Flags) (letter : Char) (on : Bool) : Option Flags :=
  if letter = 'i' then some { f with ignoreCase := on }
  else if letter = 'm' then some { f with multiLine := on }
  else if letter = 's' then some { f with dotAll := on }
  else if letter = 'R' then some { f with crlf := on }
  else if letter = 'u' then some { f with unicode := on }
  else if letter = 'x' then some { f with verbose := on }
  else if letter = 'U' then some f
  else none

/-- Reads flag letters up to `:` or `)`, and returns the flags, whether there was a letter, the sign
and the rest. Letters after a minus sign are switched off; no letter is written twice, and one
follows the minus sign. -/
def read? (f : Flags) (seen : List Char) (negated : Bool) (afterMinus : Bool) :
    Text → Option (Flags × Bool × Char × Text)
  | [] => none
  | c :: r =>
    if c = ':' ∨ c = ')' then if afterMinus then none else some (f, !seen.isEmpty, c, r)
    else if c = '-' then if negated then none else read? f seen true true r
    else if seen.contains c then none
    else match set? f c (!negated) with
      | none => none
      | some f' => read? f' (c :: seen) negated false r

/-- A set that is closed under letter case if case does not count. -/
def close (f : Flags) (s : CharSet) : CharSet :=
  if f.ignoreCase then
    if f.unicode then .anyCase s else .inter (.anyCase s) (.range '\x00' '\x7f')
  else s

/-- The complement of a set, where it may be formed. -/
def compl? (f : Flags) (s : CharSet) : Option CharSet :=
  if f.unicode then some (.compl s) else none

/-- A set or its complement. -/
def signed? (f : Flags) (negated : Bool) (s : CharSet) : Option CharSet :=
  if negated then f.compl? s else some s

/-- The set of one character. -/
def single? (f : Flags) (c : Char) : Option CharSet :=
  if f.unicode ∨ c.toNat < 128 then some (.single c) else none

/-- The digits. -/
def digit (f : Flags) : CharSet := if f.unicode then .digit else .range '0' '9'

/-- The white space of ASCII. -/
def asciiBlank : CharSet := .union (.range '\t' '\r') (.single ' ')

/-- The word characters of ASCII. -/
def asciiWord : CharSet :=
  .unions [.range '0' '9', .range 'A' 'Z', .single '_', .range 'a' 'z']

/-- The white space. -/
def blank (f : Flags) : CharSet := if f.unicode then .blank else asciiBlank

/-- The characters that words are made of. -/
def wordChar (f : Flags) : CharSet := if f.unicode then .wordChar else asciiWord

/-- What `.` matches. -/
def dot? (f : Flags) : Option CharSet :=
  if f.dotAll then f.compl? .none
  else if f.crlf then f.compl? (.ofList ['\r', '\n'])
  else f.compl? (.single '\n')

/-- What `^` asserts. -/
def caret (f : Flags) : Assertion := if f.multiLine then .lineStart f.crlf else .textStart

/-- What `$` asserts. -/
def dollar (f : Flags) : Assertion := if f.multiLine then .lineEnd f.crlf else .textEnd

end Flags

/-! ### Blanks between the parts of an expression -/

/-- Drops a comment up to the end of its line, that included. -/
def dropComment : Text → Text
  | [] => []
  | c :: r => if c = '\n' then r else dropComment r

theorem length_dropComment_le (t : Text) : (dropComment t).length ≤ t.length := by
  induction t with
  | nil => simp [dropComment]
  | cons c r ih =>
    rw [dropComment]
    split
    · simp
    · simp only [List.length_cons]; omega

/-- Drops blanks and comments. -/
def dropSpace : Text → Text
  | [] => []
  | c :: r =>
    if Text.isBlank c then dropSpace r
    else if c = '#' then dropSpace (dropComment r)
    else c :: r
termination_by t => t.length
decreasing_by
  · simp
  · have := length_dropComment_le r
    simp only [List.length_cons]
    omega

/-- Drops blanks and comments where the flags ask for it. -/
def Flags.skip (f : Flags) (t : Text) : Text := if f.verbose then dropSpace t else t

end Regex
end CosmeticFilter
