import CosmeticFilter.Json.Number

/-!
# Reading JSON

The grammar is that of strict JSON: no comments, no trailing commas, no control characters in
strings. Arrays and objects nest up to a bound, and a string may not hold half of a surrogate pair.

A *lax* reader keeps to the grammar but not to the rest: half a surrogate pair stands for the
replacement character, and a number out of range for `null`. It serves to pass over values that
nobody looks at.

* `Json.takeValue?`: reads a value at the start of a text;
* `Json.ofText?`: the canonical value that a whole text writes.
-/

namespace CosmeticFilter
namespace Json

/-- The characters that may stand between the parts of a value. -/
def isSpace (c : Char) : Bool := c == ' ' || c == '\n' || c == '\t' || c == '\r'

/-- The text without the space it starts with. -/
def trimSpace (t : Text) : Text := t.dropWhile isSpace

theorem length_trimSpace_le (t : Text) : (trimSpace t).length ≤ t.length :=
  (List.dropWhile_sublist _).length_le

/-! ### Strings -/

/-- The value of a hexadecimal digit. -/
def hexDigit? (c : Char) : Option Nat :=
  if c.isDigit then some (c.toNat - '0'.toNat)
  else if 'a' ≤ c ∧ c ≤ 'f' then some (c.toNat - 'a'.toNat + 10)
  else if 'A' ≤ c ∧ c ≤ 'F' then some (c.toNat - 'A'.toNat + 10)
  else none

/-- The code unit that four hexadecimal digits write, at the start of a text. -/
def takeUnit? : Text → Option (Nat × Text)
  | a :: b :: c :: d :: r => do
    let h ← hexDigit? a
    let i ← hexDigit? b
    let j ← hexDigit? c
    let k ← hexDigit? d
    return (((h * 16 + i) * 16 + j) * 16 + k, r)
  | _ => none

/-- Reads `\uXXXX` at the start of a text. -/
def takeEscapedUnit? : Text → Option (Nat × Text)
  | '\\' :: 'u' :: r => takeUnit? r
  | _ => none

/-- What half a surrogate pair stands for, in front of the rest of the text. -/
def halfPair? (lax : Bool) (r : Text) : Option (Char × Text) :=
  if lax then some ('\uFFFD', r) else none

/-- The character of a code unit or of a surrogate pair, whose second half stands at the start of
the text. -/
def pairUp? (lax : Bool) (unit : Nat) (r : Text) : Option (Char × Text) :=
  if unit < 0xD800 ∨ 0xDFFF < unit then some (Char.ofNat unit, r)
  else if 0xDBFF < unit then halfPair? lax r
  else match takeEscapedUnit? r with
    | some (low, r') =>
      if 0xDC00 ≤ low ∧ low ≤ 0xDFFF then
        some (Char.ofNat (0x10000 + (unit - 0xD800) * 0x400 + (low - 0xDC00)), r')
      else halfPair? lax r
    | none => halfPair? lax r

/-- Reads what stands after a backslash. -/
def takeEscape? (lax : Bool) : Text → Option (Char × Text)
  | [] => none
  | c :: r =>
    if c = '"' ∨ c = '\\' ∨ c = '/' then some (c, r)
    else if c = 'b' then some ('\x08', r)
    else if c = 'f' then some ('\x0c', r)
    else if c = 'n' then some ('\n', r)
    else if c = 'r' then some ('\r', r)
    else if c = 't' then some ('\t', r)
    else if c = 'u' then
      match takeUnit? r with
      | some (unit, r') => pairUp? lax unit r'
      | none => none
    else none

theorem length_le_of_takeUnit? {t rest : Text} {n : Nat} (h : takeUnit? t = some (n, rest)) :
    rest.length ≤ t.length := by
  unfold takeUnit? at h
  split at h
  · simp only [Option.bind_eq_bind, Option.bind_eq_some_iff] at h
    obtain ⟨_, -, _, -, _, -, _, -, h⟩ := h
    simp only [pure, Option.some.injEq, Prod.mk.injEq] at h
    obtain ⟨-, rfl⟩ := h
    simp only [List.length_cons]
    omega
  · simp at h

theorem length_le_of_takeEscapedUnit? {t rest : Text} {n : Nat}
    (h : takeEscapedUnit? t = some (n, rest)) : rest.length ≤ t.length := by
  unfold takeEscapedUnit? at h
  split at h
  · have := length_le_of_takeUnit? h
    simp only [List.length_cons]
    omega
  · simp at h

theorem eq_of_halfPair? {lax : Bool} {r rest : Text} {c : Char}
    (h : halfPair? lax r = some (c, rest)) : r = rest := by
  unfold halfPair? at h
  split at h <;> simp_all

theorem length_le_of_pairUp? {lax : Bool} {unit : Nat} {r rest : Text} {c : Char}
    (h : pairUp? lax unit r = some (c, rest)) : rest.length ≤ r.length := by
  have half (h : halfPair? lax r = some (c, rest)) : rest.length ≤ r.length :=
    Nat.le_of_eq (congrArg List.length (eq_of_halfPair? h).symm)
  unfold pairUp? at h
  split at h
  · simp_all
  split at h
  · exact half h
  split at h
  · rename_i low r' found
    have shorter := length_le_of_takeEscapedUnit? found
    split at h
    · simp only [Option.some.injEq, Prod.mk.injEq] at h
      rw [← h.2]
      exact shorter
    · exact half h
  · exact half h

theorem length_lt_of_takeEscape? {lax : Bool} {t rest : Text} {c : Char}
    (h : takeEscape? lax t = some (c, rest)) : rest.length < t.length := by
  cases t with
  | nil => simp [takeEscape?] at h
  | cons d r =>
    have tail (heq : r = rest) : rest.length < (d :: r).length := by simp [heq]
    rw [takeEscape?] at h
    iterate 6
      split at h
      · simp only [Option.some.injEq, Prod.mk.injEq] at h
        exact tail h.2
    split at h
    · split at h
      · rename_i unit r' found
        have := length_le_of_takeUnit? found
        have := length_le_of_pairUp? h
        simp only [List.length_cons]
        omega
      · simp at h
    · simp at h

/-- Reads a string after its opening quote. -/
def takeString? (lax : Bool) (t : Text) : Option (Text × Text) :=
  match t with
  | [] => none
  | c :: r =>
    if c = '"' then some ([], r)
    else if c = '\\' then
      match _escape : takeEscape? lax r with
      | some (e, r') => (takeString? lax r').map (Text.onto e)
      | none => none
    else if c.toNat < 0x20 then none
    else (takeString? lax r).map (Text.onto c)
termination_by t.length
decreasing_by
  · have := length_lt_of_takeEscape? _escape
    simp only [List.length_cons]
    omega
  · simp

/-! ### Values -/

/-- Reads a value that is neither an array nor an object. -/
def takeScalar? (lax : Bool) : Text → Option (Json × Text)
  | [] => none
  | c :: r =>
    if c = '"' then (takeString? lax r).map fun (s, rest) => (string s, rest)
    else if c = 'n' then (Text.dropLead? "ull".toList r).map fun rest => (null, rest)
    else if c = 't' then (Text.dropLead? "rue".toList r).map fun rest => (bool true, rest)
    else if c = 'f' then (Text.dropLead? "alse".toList r).map fun rest => (bool false, rest)
    else takeNumber? lax (c :: r)

/-- Reads the items of an array, at least one, and its closing bracket. -/
def takeItems? (one : Text → Option (Json × Text)) (t : Text) : Option (List Json × Text) :=
  match one t with
  | none => none
  | some (value, rest) =>
    match trimSpace rest with
    | ']' :: r => some ([value], r)
    | ',' :: r =>
      if r.length < t.length then (takeItems? one r).map fun (vs, r') => (value :: vs, r')
      else none
    | _ => none
termination_by t.length

/-- Reads the name of a field and the colon after it. -/
def takeName? (lax : Bool) (t : Text) : Option (Text × Text) :=
  match trimSpace t with
  | '"' :: r =>
    match takeString? lax r with
    | some (name, rest) => (Text.dropLead? [':'] (trimSpace rest)).map fun r' => (name, r')
    | none => none
  | _ => none

/-- Reads the fields of an object, at least one, and its closing bracket. How a value is read may
depend on the name of its field. -/
def takeFields? (lax : Bool) (one : Text → Text → Option (Json × Text)) (t : Text) :
    Option (List (Text × Json) × Text) :=
  match takeName? lax t with
  | none => none
  | some (name, afterName) =>
    match one name afterName with
    | none => none
    | some (value, rest) =>
      match trimSpace rest with
      | '\x7d' :: r => some ([(name, value)], r)
      | ',' :: r =>
        if r.length < t.length then
          (takeFields? lax one r).map fun (fs, r') => ((name, value) :: fs, r')
        else none
      | _ => none
termination_by t.length

/-- Reads a value at the start of a text, in which arrays and objects nest up to `depth` times. -/
def takeValue? (lax : Bool) : Nat → Text → Option (Json × Text)
  | 0, t => takeScalar? lax (trimSpace t)
  | depth + 1, t =>
    match trimSpace t with
    | '[' :: r =>
      match trimSpace r with
      | ']' :: r' => some (array [], r')
      | r' => (takeItems? (takeValue? lax depth) r').map fun (vs, rest) => (array vs, rest)
    | '\x7b' :: r =>
      match trimSpace r with
      | '\x7d' :: r' => some (object [], r')
      | r' =>
        (takeFields? lax (fun _ => takeValue? lax depth) r').map fun (fs, rest) => (object fs, rest)
    | r => takeScalar? lax r

/-- How deep arrays and objects may nest in a text. -/
def maxDepth : Nat := 127

/-- The value that a whole text writes, with its fields as they are written. -/
def ofTextAsWritten? (t : Text) : Option Json :=
  match takeValue? false maxDepth t with
  | some (value, rest) => if (trimSpace rest).isEmpty then some value else none
  | none => none

/-- The canonical value that a whole text writes. -/
def ofText? (t : Text) : Option Json := (ofTextAsWritten? t).map canonical

end Json
end CosmeticFilter
