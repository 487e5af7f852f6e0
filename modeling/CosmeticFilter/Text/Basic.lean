/-!
# Text

Selectors, declaration blocks and documents are read one character at a time, so a text is the
list of its characters and every scanner of the library returns what it left unread.

* `Text.isBlank`, `Text.trim`: white space in the sense of Unicode, and a text without it at the
  ends;
* `Text.lower`, `Text.sameIgnoringCase`: letter case of the ASCII letters alone;
* `Text.cutFirst`, `Text.splitWhere`, `Text.words`: cutting a text at some of its characters;
* `Text.occursIn`, `Text.dropEscapes`: searching and unescaping.
-/

namespace CosmeticFilter

/-- A text is the list of its characters. -/
abbrev Text := List Char

namespace Text

/-! ### White space -/

/-- The characters with Unicode's `White_Space` property. -/
def isBlank (c : Char) : Bool :=
  let n := c.toNat
  (9 ≤ n && n ≤ 13) || n == 0x20 || n == 0x85 || n == 0xA0 || n == 0x1680 ||
    (0x2000 ≤ n && n ≤ 0x200A) || n == 0x2028 || n == 0x2029 || n == 0x202F || n == 0x205F ||
    n == 0x3000

/-- The blanks that separate the words of an attribute value: space, tab, line feed, form feed and
carriage return. -/
def isAsciiBlank (c : Char) : Bool :=
  c == ' ' || c == '\t' || c == '\n' || c == '\x0c' || c == '\r'

/-- The text without the blanks it starts with. -/
def trimStart (t : Text) : Text := t.dropWhile isBlank

/-- The text without the blanks it ends with. -/
def trimEnd (t : Text) : Text := (t.reverse.dropWhile isBlank).reverse

/-- The text without the blanks at either end. -/
def trim (t : Text) : Text := trimEnd (trimStart t)

/-- There is nothing but blanks. -/
def isAllBlank (t : Text) : Bool := t.all isBlank

theorem length_trimStart_le (t : Text) : (trimStart t).length ≤ t.length :=
  (List.dropWhile_sublist _).length_le

theorem length_trimEnd_le (t : Text) : (trimEnd t).length ≤ t.length := by
  simpa [trimEnd] using (List.dropWhile_sublist (l := t.reverse) isBlank).length_le

theorem length_trim_le (t : Text) : (trim t).length ≤ t.length :=
  Nat.le_trans (length_trimEnd_le _) (length_trimStart_le _)

/-! ### Letter case -/

/-- The text with its ASCII capitals replaced by small letters. -/
def lower (t : Text) : Text := t.map Char.toLower

/-- The two texts differ at most in the case of ASCII letters. -/
def sameIgnoringCase (a b : Text) : Bool := lower a == lower b

theorem length_lower (t : Text) : (lower t).length = t.length := by simp [lower]

/-! ### Cutting -/

/-- What stands before and after the first character that satisfies `p`. -/
def cutFirst (p : Char → Bool) : Text → Option (Text × Text)
  | [] => none
  | c :: r => if p c then some ([], r) else (cutFirst p r).map fun (a, b) => (c :: a, b)

/-- Cutting loses nothing but the character at which it cuts. -/
theorem cutFirst_eq_some {p : Char → Bool} {t x y : Text} (h : cutFirst p t = some (x, y)) :
    ∃ c, p c = true ∧ t = x ++ c :: y := by
  induction t generalizing x with
  | nil => simp [cutFirst] at h
  | cons c r ih =>
    rw [cutFirst] at h
    split at h
    · rename_i hc
      simp only [Option.some.injEq, Prod.mk.injEq] at h
      obtain ⟨rfl, rfl⟩ := h
      exact ⟨c, hc, rfl⟩
    · obtain ⟨⟨x', y'⟩, h', heq⟩ := Option.map_eq_some_iff.1 h
      simp only [Prod.mk.injEq] at heq
      obtain ⟨rfl, rfl⟩ := heq
      obtain ⟨d, hd, rfl⟩ := ih h'
      exact ⟨d, hd, rfl⟩

/-- What stands before and after the last character that satisfies `p`. -/
def cutLast (p : Char → Bool) : Text → Option (Text × Text)
  | [] => none
  | c :: r =>
    match cutLast p r with
    | some (a, b) => some (c :: a, b)
    | none => if p c then some ([], r) else none

/-- The pieces between the characters that satisfy `p`; one more than there are such
characters. -/
def splitWhere (p : Char → Bool) : Text → List Text
  | [] => [[]]
  | c :: r =>
    if p c then [] :: splitWhere p r
    else match splitWhere p r with
      | [] => [[c]]
      | w :: ws => (c :: w) :: ws

/-- The words of an attribute value such as `class`. -/
def words (t : Text) : List Text := (splitWhere isAsciiBlank t).filter (! ·.isEmpty)

/-- The texts joined with `separator` between neighbours. -/
def join (separator : Text) (ts : List Text) : Text := (ts.intersperse separator).flatten

/-- Puts a character in front of the part of a text that was taken. -/
def onto (c : Char) (taken : Text × Text) : Text × Text := (c :: taken.1, taken.2)

@[simp] theorem onto_fst (c : Char) (taken : Text × Text) : (onto c taken).1 = c :: taken.1 := rfl

@[simp] theorem onto_snd (c : Char) (taken : Text × Text) : (onto c taken).2 = taken.2 := rfl

/-! ### Searching and unescaping -/

/-- `needle` occurs in the text as consecutive characters. -/
def occursIn (needle : Text) : Text → Bool
  | [] => needle.isEmpty
  | c :: r => needle.isPrefixOf (c :: r) || occursIn needle r

/-- The rest of the text after `lead`, if it starts with it. -/
def dropLead? : Text → Text → Option Text
  | [], t => some t
  | _ :: _, [] => none
  | a :: lead, c :: t => if a = c then dropLead? lead t else none

/-- The text with each backslash removed that stands right before `c`. -/
def dropEscapes (c : Char) : Text → Text
  | [] => []
  | [x] => [x]
  | x :: y :: r =>
    if x = '\\' ∧ y = c then c :: dropEscapes c r else x :: dropEscapes c (y :: r)

/-- The text without one pair of equal quotes around it, if there is one. -/
def stripQuotes? : Text → Option Text
  | [] => none
  | q :: r =>
    if (q = '"' ∨ q = '\'') ∧ r.getLast? = some q then some r.dropLast else none

/-- The text between two backticks, as error messages quote it. -/
def ticked (t : Text) : Text := "`".toList ++ t ++ "`".toList

/-- Order of texts by code points, as property maps and attribute lists are listed. -/
def le : Text → Text → Bool
  | [], _ => true
  | _ :: _, [] => false
  | a :: s, b :: t => a.toNat < b.toNat || (a.toNat == b.toNat && le s t)

end Text
end CosmeticFilter
