import CosmeticFilter.Regex.Escape

/-!
# Sets in square brackets

`readSet?` reads a set after its opening bracket: characters, ranges, escapes, the ASCII classes
such as `[:alpha:]`, sets inside the set, and the operators `&&`, `--` and `~~`, which bind weaker
than standing side by side and are read from left to right.

A minus sign at either end and a closing bracket at the very beginning stand for themselves.
-/

namespace CosmeticFilter
namespace Regex

/-- A set and how deeply its description is nested. -/
structure SetPart where
  /-- The set. -/
  set : CharSet
  /-- The height of its description. -/
  height : Nat

/-- The ASCII class with this name. -/
def asciiClass? (name : Text) : Option CharSet :=
  let letters : CharSet := .union (.range 'A' 'Z') (.range 'a' 'z')
  if name = "alnum".toList then some (.union (.range '0' '9') letters)
  else if name = "alpha".toList then some letters
  else if name = "ascii".toList then some (.range '\x00' '\x7f')
  else if name = "blank".toList then some (.ofList ['\t', ' '])
  else if name = "cntrl".toList then some (.union (.range '\x00' '\x1f') (.single '\x7f'))
  else if name = "digit".toList then some (.range '0' '9')
  else if name = "graph".toList then some (.range '!' '~')
  else if name = "lower".toList then some (.range 'a' 'z')
  else if name = "print".toList then some (.range ' ' '~')
  else if name = "punct".toList then
    some (.unions [.range '!' '/', .range ':' '@', .range '[' (Char.ofNat 0x60),
      .range '\x7b' '~'])
  else if name = "space".toList then some Flags.asciiBlank
  else if name = "upper".toList then some (.range 'A' 'Z')
  else if name = "word".toList then some Flags.asciiWord
  else if name = "xdigit".toList then
    some (.unions [.range '0' '9', .range 'A' 'F', .range 'a' 'f'])
  else none

/-- Reads an ASCII class after its `[`: a colon, a name that `^` may precede, and `:]`. -/
def readAsciiClass? (f : Flags) (t : Text) : Option (Option CharSet × Text) :=
  match t with
  | ':' :: r =>
    let negated := r.head? == some '^'
    match Text.cutFirst (· == ':') (if negated then r.tail else r) with
    | some (name, ']' :: rest) =>
      (asciiClass? name).map fun s => (f.signed? negated s, rest)
    | _ => none
  | _ => none

/-- A member of a set: a character, which may begin or end a range, or a set. -/
inductive Member where
  /-- A character. -/
  | char (c : Char)
  /-- A set. -/
  | set (s : CharSet)

/-- Reads a member: an escape, or any character. An assertion is no member. -/
def readMember? (f : Flags) : Text → Option (Member × Text)
  | [] => none
  | c :: r =>
    if c = '\\' then
      match readEscape? f r with
      | some (.char d, rest) => some (.char d, rest)
      | some (.set s, rest) => some (.set s, rest)
      | _ => none
    else some (.char c, r)

/-- The set of a member. -/
def Member.toSet? (f : Flags) : Member → Option CharSet
  | .char c => f.single? c
  | .set s => some s

/-- Reads a member or a range between two characters. -/
def readRange? (f : Flags) (t : Text) : Option (CharSet × Text) :=
  match readMember? f t with
  | none => none
  | some (m, rest) =>
    match f.skip rest with
    | [] => none
    | c :: r =>
      let next := (f.skip r).head?
      if c ≠ '-' ∨ next = some ']' ∨ next = some '-' then
        (m.toSet? f).map fun s => (s, c :: r)
      else
        match m, readMember? f (f.skip r) with
        | .char a, some (.char b, rest') =>
          if a.toNat ≤ b.toNat ∧ (f.unicode ∨ b.toNat < 128) then some (.range a b, rest')
          else none
        | _, _ => none

/-- An operator between sets. -/
inductive SetOperator where
  /-- `&&`: what is in both. -/
  | inter
  /-- `--`: what is in the first and not in the second. -/
  | diff
  /-- `~~`: what is in one of them but not in both. -/
  | symm

/-- The operator that two equal characters spell. -/
def SetOperator.ofChar? (c : Char) : Option SetOperator :=
  if c = '&' then some .inter
  else if c = '-' then some .diff
  else if c = '~' then some .symm
  else none

/-- The set that an operator makes of two sets. -/
def SetOperator.apply : SetOperator → CharSet → CharSet → CharSet
  | inter, a, b => .inter a b
  | diff, a, b => .inter a (.compl b)
  | symm, a, b => .union (.inter a (.compl b)) (.inter b (.compl a))

/-- The members read so far, latest first, as one part. -/
def unite (parts : List SetPart) : SetPart :=
  match parts with
  | [] => ⟨.none, 0⟩
  | [p] => p
  | ps => ⟨.unions (ps.map SetPart.set), 1 + (ps.map SetPart.height).foldl max 0⟩

/-- What stands to the left of the members being read: a part and the operator after it. -/
abbrev Left := Option (SetPart × SetOperator)

/-- The left part combined with the members after its operator. -/
def combine (f : Flags) (left : Left) (parts : List SetPart) : SetPart :=
  let right := unite parts
  match left with
  | none => right
  | some (l, operator) =>
    ⟨operator.apply (f.close l.set) (f.close right.set), 1 + max l.height right.height⟩

/-- Reads the beginning of a set after its bracket: whether it is negated, and the minus signs and
the closing bracket that stand for themselves. -/
def openSet? (f : Flags) (t : Text) : Option (Bool × List SetPart × Text) :=
  match f.skip t with
  | [] => none
  | c :: r =>
    let negated := c == '^'
    let t' := if negated then f.skip r else c :: r
    let signs := t'.takeWhile (· == '-')
    let parts : List SetPart := signs.map fun _ => ⟨.single '-', 0⟩
    match f.skip (t'.drop signs.length) with
    | [] => none
    | d :: r' =>
      if d = ']' ∧ parts.isEmpty then some (negated, [⟨.single ']', 0⟩], r')
      else some (negated, parts, d :: r')

/-- Reads the members of a set up to its closing bracket. `bound` limits the number of steps; the
length of the text is enough. -/
def readMembers? (f : Flags) (bound : Nat) (negated : Bool) (left : Left) (parts : List SetPart)
    (t : Text) : Option (SetPart × Text) :=
  match bound with
  | 0 => none
  | bound + 1 =>
    match f.skip t with
    | [] => none
    | c :: r =>
      let operator := if r.head? = some c then SetOperator.ofChar? c else none
      if c = ']' then
        let whole := combine f left parts
        (f.signed? negated (f.close whole.set)).map fun s => (⟨s, 1 + whole.height⟩, r)
      else if c = '[' then
        match readAsciiClass? f r with
        | some (some s, rest) => readMembers? f bound negated left (⟨s, 0⟩ :: parts) rest
        | some (none, _) => none
        | none =>
          match openSet? f r with
          | none => none
          | some (negated', parts', rest) =>
            match readMembers? f bound negated' none parts' rest with
            | none => none
            | some (inner, rest') => readMembers? f bound negated left (inner :: parts) rest'
      else
        match operator with
        | some operator =>
          readMembers? f bound negated (some (combine f left parts, operator)) [] r.tail
        | none =>
          match readRange? f (c :: r) with
          | none => none
          | some (s, rest) => readMembers? f bound negated left (⟨s, 0⟩ :: parts) rest

/-- Reads a set after its opening bracket. -/
def readSet? (f : Flags) (t : Text) : Option (SetPart × Text) :=
  match openSet? f t with
  | none => none
  | some (negated, parts, rest) => readMembers? f (t.length + 1) negated none parts rest

end Regex
end CosmeticFilter
