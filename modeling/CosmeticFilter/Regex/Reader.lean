import CosmeticFilter.Regex.Bracket

/-!
# Reading regular expressions

`Regex.ofText?` reads an expression with the three flags that stand outside it. It answers `none`
for a text that is no expression: a bracket or set that is not closed, a repetition of nothing, an
escape without meaning, look-around, a group name that is used twice, an expression nested too
deeply, or one that would take too much room.
-/

namespace CosmeticFilter
namespace Regex

/-- A part of an expression that has been read. -/
structure Part where
  /-- The expression. -/
  regex : Regex
  /-- How deeply its description is nested. -/
  height : Nat
  /-- A repetition may follow; not after flags. -/
  repeatable : Bool

/-- How deeply an expression may be nested. -/
def maxHeight : Nat := 250

/-- What holds at a place of an expression. -/
structure Place where
  /-- The flags. -/
  flags : Flags
  /-- The names of the groups so far. -/
  names : List Text

/-- Parts side by side, latest first, as one part. -/
def sequence : List Part → Part
  | [] => ⟨.empty, 0, true⟩
  | [p] => p
  | ps => ⟨.seqs (ps.reverse.map Part.regex), 1 + (ps.map Part.height).foldl max 0, true⟩

/-- Alternatives, latest first, as one part. -/
def alternatives : List Part → Part
  | [] => ⟨.empty, 0, true⟩
  | [p] => p
  | p :: ps =>
    ⟨ps.foldl (fun r q => .alt q.regex r) p.regex,
      1 + ((p :: ps).map Part.height).foldl max 0, true⟩

/-- A group around a part. -/
def Part.grouped (p : Part) : Part := ⟨p.regex, p.height + 1, true⟩

/-- A repetition of a part. -/
def Part.times (p : Part) (least : Nat) (most : Option Nat) : Part :=
  ⟨.repeated p.regex least most, p.height + 1, true⟩

/-- Drops a question mark, which only says which match is preferred. -/
def dropLazy : Text → Text
  | [] => []
  | c :: r => if c = '?' then r else c :: r

/-- Reads a number of at most 32 bits between blanks. -/
def readBound? (t : Text) : Option (Nat × Text) :=
  let t := Text.trimStart t
  let digits := t.takeWhile Char.isDigit
  let n := Text.digitsValue digits
  if digits.isEmpty || UInt32.size ≤ n then none
  else some (n, Text.trimStart (t.drop digits.length))

/-- Reads the bounds of a counted repetition after its opening brace, up to the closing one. -/
def readBounds? (f : Flags) (t : Text) : Option (Nat × Option Nat × Text) :=
  match readBound? (f.skip t) with
  | none => none
  | some (_, []) => none
  | some (least, c :: r) =>
    if c = '\x7d' then some (least, some least, r)
    else if c = ',' then
      match f.skip r with
      | [] => none
      | d :: r' =>
        if d = '\x7d' then some (least, none, r')
        else match readBound? (d :: r') with
          | none => none
          | some (_, []) => none
          | some (most, e :: rest) =>
            if e = '\x7d' ∧ least ≤ most then some (least, some most, rest) else none
    else none

/-- The character may begin the name of a group. -/
def isNameStart (c : Char) : Bool := c == '_' || Text.isAlphabetic c

/-- The character may stand in the name of a group. -/
def isNameChar (c : Char) : Bool :=
  c == '_' || c == '.' || c == '[' || c == ']' || Text.isAlphanumeric c

/-- Reads the name of a group up to its `>`. -/
def readGroupName? (names : List Text) (t : Text) : Option (Text × Text) :=
  match Text.cutFirst (· == '>') t with
  | none => none
  | some (name, rest) =>
    match name with
    | [] => none
    | c :: cs =>
      if isNameStart c && cs.all isNameChar && !names.contains name then some (name, rest)
      else none

/-- What an opening bracket begins. -/
inductive Opening where
  /-- A group, read at this place. -/
  | group (place : Place)
  /-- Nothing but a change of flags. -/
  | flags (f : Flags)

/-- Reads what follows an opening bracket: nothing, the name of a group, or flags. -/
def readOpening? (p : Place) (t : Text) : Option (Opening × Text) :=
  let t := p.flags.skip t
  match Text.dropLead? "?P<".toList t with
  | some r => named r
  | none =>
    match Text.dropLead? "?<".toList t with
    | some r => named r
    | none =>
      match t with
      | '?' :: r =>
        match p.flags.read? [] false false r with
        | none => none
        | some (f, some_, c, rest) =>
          if c = ':' then some (.group { p with flags := f }, rest)
          else if some_ then some (.flags f, rest)
          else none
      | _ => some (.group p, t)
where
  /-- Reads a named group. -/
  named (r : Text) : Option (Opening × Text) :=
    (readGroupName? p.names r).map fun (name, rest) =>
      (.group { p with names := name :: p.names }, rest)

/-- Reads one character, set or assertion. -/
def readAtom? (f : Flags) : Text → Option (Part × Text)
  | [] => none
  | c :: r =>
    let ofSet (s : CharSet) : Part := ⟨.set s, 0, true⟩
    let ofChar (d : Char) : Option Part := (f.single? d).map fun s => ofSet (f.close s)
    if c = '\\' then
      match readEscape? f r with
      | none => none
      | some (.char d, rest) => (ofChar d).map (·, rest)
      | some (.set s, rest) => some (ofSet s, rest)
      | some (.assert a, rest) => some (⟨.assert a, 0, true⟩, rest)
    else if c = '[' then (readSet? f r).map fun (s, rest) => (⟨.set s.set, s.height, true⟩, rest)
    else if c = '.' then f.dot?.map fun s => (ofSet s, r)
    else if c = '^' then some (⟨.assert f.caret, 0, true⟩, r)
    else if c = '$' then some (⟨.assert f.dollar, 0, true⟩, r)
    else (ofChar c).map (·, r)

/-- Reads the repetition sign `c` before `r`: its bounds and the rest. -/
def readRepetition? (f : Flags) (c : Char) (r : Text) : Option (Nat × Option Nat × Text) :=
  if c = '*' then some (0, none, dropLazy r)
  else if c = '+' then some (1, none, dropLazy r)
  else if c = '?' then some (0, some 1, dropLazy r)
  else (readBounds? f r).map fun (least, most, rest) => (least, most, dropLazy (f.skip rest))

/-- The character repeats what stands before it. -/
def isRepetition (c : Char) : Bool := c == '*' || c == '+' || c == '?' || c == '\x7b'

/-- Reads alternatives up to a closing bracket or the end. `done` holds the alternatives read and
`parts` the parts of the present one, both latest first. `bound` limits the number of steps; the
length of the text is enough. -/
def readAlternatives? (bound : Nat) (p : Place) (done parts : List Part) (t : Text) :
    Option (Part × Place × Text) :=
  match bound with
  | 0 => none
  | bound + 1 =>
    match p.flags.skip t with
    | [] => some (alternatives (sequence parts :: done), p, [])
    | c :: r =>
      if c = ')' then some (alternatives (sequence parts :: done), p, c :: r)
      else if c = '|' then readAlternatives? bound p (sequence parts :: done) [] r
      else if c = '(' then
        match readOpening? p r with
        | none => none
        | some (.flags f, rest) =>
          readAlternatives? bound { p with flags := f } done (⟨.empty, 0, false⟩ :: parts) rest
        | some (.group p', rest) =>
          match readAlternatives? bound p' [] [] rest with
          | some (inner, p'', ')' :: rest') =>
            readAlternatives? bound ⟨p.flags, p''.names⟩ done (inner.grouped :: parts) rest'
          | _ => none
      else if isRepetition c then
        match parts, readRepetition? p.flags c r with
        | last :: before, some (least, most, rest) =>
          if last.repeatable then
            readAlternatives? bound p done (last.times least most :: before) rest
          else none
        | _, _ => none
      else
        match readAtom? p.flags (c :: r) with
        | none => none
        | some (part, rest) => readAlternatives? bound p done (part :: parts) rest

/-- Reads a regular expression, with the flags that stand outside it. -/
def ofText? (ignoreCase multiLine dotAll : Bool) (t : Text) : Option Regex :=
  match readAlternatives? (t.length + 1) ⟨.initial ignoreCase multiLine dotAll, []⟩ [] [] t with
  | some (part, _, []) =>
    if part.height ≤ maxHeight ∧ part.regex.room ≤ maxRoom then some part.regex else none
  | _ => none

end Regex
end CosmeticFilter
