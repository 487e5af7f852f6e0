import CosmeticFilter.Css.Ident
import CosmeticFilter.Regex.Flags
import CosmeticFilter.Text.Number

/-!
# Escapes

What a backslash introduces in a regular expression: a character that would otherwise be a sign, a
character by its number, a set, or an assertion.

* `Escape`: the three kinds of meaning;
* `readEscape?`: reads an escape after its backslash;
* `propertySet?`: the set with a name, as in `\p` and braces.

Back references do not exist and are refused, and so is every letter that has no meaning.
-/

namespace CosmeticFilter
namespace Regex

/-- What an escape stands for. -/
inductive Escape where
  /-- A character. -/
  | char (c : Char)
  /-- A set of characters. -/
  | set (s : CharSet)
  /-- A condition. -/
  | assert (a : Assertion)

/-- The characters that are signs somewhere in an expression. -/
def isSign (c : Char) : Bool :=
  ['\\', '.', '+', '*', '?', '(', ')', '|', '[', ']', '\x7b', '\x7d', '^', '$', '#', '&', '-',
    '~'].contains c

/-- An ASCII character that stands for itself after a backslash. -/
def isPlainEscape (c : Char) : Bool :=
  isSign c || (c.toNat < 128 && !c.isAlphanum && c != '<' && c != '>')

/-- The character with this number, if there is one. -/
def charOfNumber? (n : Nat) : Option Char := if n.isValidChar then some (Char.ofNat n) else none

/-- Reads exactly `count` hexadecimal digits. -/
def readHexDigits? (f : Flags) : Nat → Nat → Text → Option (Nat × Text)
  | 0, value, t => some (value, t)
  | count + 1, value, t =>
    match f.skip t with
    | [] => none
    | c :: r =>
      if Css.isHexDigit c then readHexDigits? f count (16 * value + Css.hexDigitValue c) r else none

/-- The characters up to a closing brace, and the rest. -/
def readBraced? (t : Text) : Option (Text × Text) := Text.cutFirst (· == '\x7d') t

/-- The text without the blanks that the flags pass over. -/
def Flags.squeeze (f : Flags) (t : Text) : Text :=
  if f.verbose then t.filter (! Text.isBlank ·) else t

/-- Reads a character number after its letter: braces around any number of hexadecimal digits, or
`count` of them. -/
def readNumber? (f : Flags) (count : Nat) (t : Text) : Option (Char × Text) :=
  match f.skip t with
  | [] => none
  | c :: r =>
    if c = '\x7b' then
      match readBraced? r with
      | none => none
      | some (inside, rest) =>
        let digits := f.squeeze inside
        if digits.isEmpty || !digits.all Css.isHexDigit then none
        else (charOfNumber? (Css.hexValue digits)).map fun d => (d, rest)
    else
      match readHexDigits? f count 0 (c :: r) with
      | none => none
      | some (n, rest) => (charOfNumber? n).map fun d => (d, rest)

/-! ### Named sets -/

/-- The name of a set, as it is compared: small letters, without blanks, `_` and `-`. -/
def looseName (t : Text) : Text :=
  (Text.lower t).filter fun c => !(Text.isBlank c || c == '_' || c == '-')

/-- The categories that a name stands for. -/
def categoriesNamed : List (List Text × List Category) :=
  [(["l".toList, "letter".toList], [.Lu, .Ll, .Lt, .Lm, .Lo]),
    (["lc".toList, "casedletter".toList], [.Lu, .Ll, .Lt]),
    (["lu".toList, "uppercaseletter".toList], [.Lu]),
    (["ll".toList, "lowercaseletter".toList], [.Ll]),
    (["lt".toList, "titlecaseletter".toList], [.Lt]),
    (["lm".toList, "modifierletter".toList], [.Lm]),
    (["lo".toList, "otherletter".toList], [.Lo]),
    (["m".toList, "mark".toList, "combiningmark".toList], [.Mn, .Mc, .Me]),
    (["mn".toList, "nonspacingmark".toList], [.Mn]),
    (["mc".toList, "spacingmark".toList], [.Mc]),
    (["me".toList, "enclosingmark".toList], [.Me]),
    (["n".toList, "number".toList], [.Nd, .Nl, .No]),
    (["nd".toList, "decimalnumber".toList, "digit".toList], [.Nd]),
    (["nl".toList, "letternumber".toList], [.Nl]),
    (["no".toList, "othernumber".toList], [.No]),
    (["p".toList, "punctuation".toList, "punct".toList], [.Pc, .Pd, .Ps, .Pe, .Pi, .Pf, .Po]),
    (["pc".toList, "connectorpunctuation".toList], [.Pc]),
    (["pd".toList, "dashpunctuation".toList], [.Pd]),
    (["ps".toList, "openpunctuation".toList], [.Ps]),
    (["pe".toList, "closepunctuation".toList], [.Pe]),
    (["pi".toList, "initialpunctuation".toList], [.Pi]),
    (["pf".toList, "finalpunctuation".toList], [.Pf]),
    (["po".toList, "otherpunctuation".toList], [.Po]),
    (["s".toList, "symbol".toList], [.Sm, .Sc, .Sk, .So]),
    (["sm".toList, "mathsymbol".toList], [.Sm]),
    (["sc".toList, "currencysymbol".toList], [.Sc]),
    (["sk".toList, "modifiersymbol".toList], [.Sk]),
    (["so".toList, "othersymbol".toList], [.So]),
    (["z".toList, "separator".toList], [.Zs, .Zl, .Zp]),
    (["zs".toList, "spaceseparator".toList], [.Zs]),
    (["zl".toList, "lineseparator".toList], [.Zl]),
    (["zp".toList, "paragraphseparator".toList], [.Zp]),
    (["c".toList, "other".toList], [.Cc, .Cf, .Co, .Cn]),
    (["cc".toList, "control".toList, "cntrl".toList], [.Cc]),
    (["cf".toList, "format".toList], [.Cf]),
    (["cs".toList, "surrogate".toList], []),
    (["co".toList, "privateuse".toList], [.Co]),
    (["cn".toList, "unassigned".toList], [.Cn])]

/-- The set that a name after `\p` stands for: a general category, or one of a few properties. -/
def propertySet? (name : Text) : Option CharSet :=
  let loose := looseName name
  match categoriesNamed.find? fun e => e.1.contains loose with
  | some e => some (.categories e.2)
  | none =>
    if loose = "any".toList then some .all
    else if loose = "assigned".toList then some (.compl (.categories [.Cn]))
    else if loose = "ascii".toList then some (.range '\x00' '\x7f')
    else if loose = "alphabetic".toList ∨ loose = "alpha".toList then some .alphabetic
    else if loose = "whitespace".toList ∨ loose = "wspace".toList ∨ loose = "space".toList then
      some .blank
    else none

/-- The property and the value of a name such as `gc=L`, and whether it is negated. -/
def categoryQuery? (name : Text) : Option (Text × Bool) :=
  let isKey (k : Text) : Bool :=
    looseName k == "gc".toList || looseName k == "generalcategory".toList
  match Text.cutFirst (fun c => c == '=' || c == ':') name with
  | none => some (name, false)
  | some (key, value) =>
    match key.getLast? with
    | some '!' => if isKey key.dropLast then some (value, true) else none
    | _ => if isKey key then some (value, false) else none

/-- Reads a property after its letter, which says whether it is negated. -/
def readProperty? (f : Flags) (negated : Bool) (t : Text) : Option (CharSet × Text) :=
  if !f.unicode then none
  else match f.skip t with
    | [] => none
    | c :: r =>
      let found :=
        if c = '\x7b' then (readBraced? r).map fun (name, rest) => (f.squeeze name, rest)
        else if c = '\\' then none
        else some ([c], r)
      match found with
      | none => none
      | some (name, rest) =>
        match categoryQuery? name with
        | none => none
        | some (value, unequal) =>
          (propertySet? value).map fun s =>
            let closed := f.close s
            (if negated != unequal then .compl closed else closed, rest)

/-! ### Boundaries -/

/-- The character may stand in the name of a boundary. -/
def isBoundaryNameChar (c : Char) : Bool := c.isAlpha || c == '-'

/-- Reads what follows `\b`: a name in braces, or nothing. A brace that no letter follows belongs to
a counted repetition. -/
def readBoundary? (f : Flags) (t : Text) : Option (Assertion × Text) :=
  let plain : Option (Assertion × Text) := some (.boundary f.wordChar, t)
  match t with
  | [] => plain
  | b :: r =>
    if b ≠ '\x7b' then plain
    else match f.skip r with
      | [] => none
      | c :: r' =>
        if !isBoundaryNameChar c then plain
        else match readBraced? (c :: r') with
          | none => none
          | some (inside, rest) =>
            let name := f.squeeze inside
            if name = "start".toList then some (.wordStart f.wordChar, rest)
            else if name = "end".toList then some (.wordEnd f.wordChar, rest)
            else if name = "start-half".toList then some (.wordStartHalf f.wordChar, rest)
            else if name = "end-half".toList then some (.wordEndHalf f.wordChar, rest)
            else none

/-- The character that a letter after a backslash stands for. -/
def controlOf? (c : Char) : Option Char :=
  if c = 'a' then some '\x07'
  else if c = 'f' then some '\x0c'
  else if c = 't' then some '\t'
  else if c = 'n' then some '\n'
  else if c = 'r' then some '\r'
  else if c = 'v' then some '\x0b'
  else none

/-- Reads an escape after its backslash. -/
def readEscape? (f : Flags) : Text → Option (Escape × Text)
  | [] => none
  | c :: r =>
    let setOf (negated : Bool) (s : CharSet) : Option (Escape × Text) :=
      (f.signed? negated s).map fun s => (.set s, r)
    if c = 'x' then (readNumber? f 2 r).map fun (d, rest) => (.char d, rest)
    else if c = 'u' then (readNumber? f 4 r).map fun (d, rest) => (.char d, rest)
    else if c = 'U' then (readNumber? f 8 r).map fun (d, rest) => (.char d, rest)
    else if c = 'p' ∨ c = 'P' then
      (readProperty? f (c == 'P') r).map fun (s, rest) => (.set s, rest)
    else if c = 'd' ∨ c = 'D' then setOf (c == 'D') f.digit
    else if c = 's' ∨ c = 'S' then setOf (c == 'S') f.blank
    else if c = 'w' ∨ c = 'W' then setOf (c == 'W') f.wordChar
    else if isPlainEscape c then some (.char c, r)
    else match controlOf? c with
      | some d => some (.char d, r)
      | none =>
        if c = 'A' then some (.assert .textStart, r)
        else if c = 'z' then some (.assert .textEnd, r)
        else if c = 'b' then (readBoundary? f r).map fun (a, rest) => (.assert a, rest)
        else if c = 'B' then some (.assert (.noBoundary f.wordChar), r)
        else if c = '<' then some (.assert (.wordStart f.wordChar), r)
        else if c = '>' then some (.assert (.wordEnd f.wordChar), r)
        else none

end Regex
end CosmeticFilter
