import CosmeticFilter.Text.Basic

/-!
# Identifiers and strings

How names and quoted values are spelled in a selector. A backslash and up to six hexadecimal digits
spell the character with that number, one blank after them belonging to the escape; a backslash and
any other character spell that character.

* `takeEscape`: reads an escape after its backslash;
* `takeIdent`: the longest identifier, decoded, and what follows it;
* `startsIdent`: whether an identifier can start here;
* `takeString?`: a quoted string after its opening quote;

-/

namespace CosmeticFilter
namespace Css

/-- The character that stands for one that cannot be. -/
def replacement : Char := '\uFFFD'

/-- A hexadecimal digit. -/
def isHexDigit (c : Char) : Bool :=
  c.isDigit || ('a' ≤ c && c ≤ 'f') || ('A' ≤ c && c ≤ 'F')

/-- The value of a hexadecimal digit. -/
def hexDigitValue (c : Char) : Nat :=
  if c.isDigit then c.toNat - '0'.toNat else c.toLower.toNat - 'a'.toNat + 10

/-- The number that hexadecimal digits spell. -/
def hexValue (digits : Text) : Nat := digits.foldl (fun n c => 16 * n + hexDigitValue c) 0

/-- The character with this number; zero, surrogates and what lies beyond Unicode have none. -/
def charOfCode (n : Nat) : Char := if n = 0 ∨ ¬ n.isValidChar then replacement else Char.ofNat n

/-- A blank at the start belongs to the escape before it. -/
def dropOneBlank : Text → Text
  | [] => []
  | c :: r => if Text.isBlank c then r else c :: r

/-- Reads an escape after its backslash: the character it spells, and the rest. -/
def takeEscape (t : Text) : Char × Text :=
  match (t.take 6).takeWhile isHexDigit with
  | [] => (t.headD replacement, t.tail)
  | digits => (charOfCode (hexValue digits), dropOneBlank (t.drop digits.length))

theorem length_dropOneBlank_le (t : Text) : (dropOneBlank t).length ≤ t.length := by
  cases t with
  | nil => simp [dropOneBlank]
  | cons c r => rw [dropOneBlank]; split <;> simp

theorem length_takeEscape_snd_le (t : Text) : (takeEscape t).2.length ≤ t.length := by
  unfold takeEscape
  split
  · simp
  · exact Nat.le_trans (length_dropOneBlank_le _) (by simp)

/-! ### Identifiers -/

/-- An identifier may start with this character. -/
def isIdentStart (c : Char) : Bool := c.isAlpha || c == '_' || 128 ≤ c.toNat

/-- An identifier may go on with this character. -/
def isIdentChar (c : Char) : Bool := isIdentStart c || c.isDigit || c == '-'

/-- The longest run of identifier characters and escapes, decoded, and the rest. -/
def takeIdent : Text → Text × Text
  | [] => ([], [])
  | c :: r =>
    if c = '\\' then Text.onto (takeEscape r).1 (takeIdent (takeEscape r).2)
    else if isIdentChar c then Text.onto c (takeIdent r)
    else ([], c :: r)
termination_by t => t.length
decreasing_by
  · have := length_takeEscape_snd_le r
    simp only [List.length_cons]
    omega
  · simp

/-- An identifier can start here. -/
def startsIdent : Text → Bool
  | [] => false
  | [c] => isIdentStart c
  | c :: d :: _ =>
    if c = '-' then isIdentStart d || d == '-' || d == '\\'
    else c == '\\' || isIdentStart c

theorem length_takeIdent_snd_le (t : Text) : (takeIdent t).2.length ≤ t.length := by
  fun_induction takeIdent t with
  | case1 => simp
  | case2 r ih =>
    have := length_takeEscape_snd_le r
    simp only [Text.onto_snd, List.length_cons]
    omega
  | case3 c r _ _ ih =>
    simp only [Text.onto_snd, List.length_cons]
    omega
  | case4 => simp

/-- An identifier that is not empty takes at least one character. -/
theorem length_takeIdent_snd_lt {t : Text} (h : (takeIdent t).1 ≠ []) :
    (takeIdent t).2.length < t.length := by
  cases t with
  | nil => simp [takeIdent] at h
  | cons c r =>
    rw [takeIdent] at h ⊢
    split
    · have := length_takeEscape_snd_le r
      have := length_takeIdent_snd_le (takeEscape r).2
      simp only [Text.onto_snd, List.length_cons]
      omega
    · split
      · have := length_takeIdent_snd_le r
        simp only [Text.onto_snd, List.length_cons]
        omega
      · simp_all

/-! ### Strings and arguments -/

/-- Reads a string up to its closing quote; `none` if there is none. -/
def takeString? (quote : Char) : Text → Option (Text × Text)
  | [] => none
  | c :: r =>
    if c = quote then some ([], r)
    else if c = '\\' then
      (takeString? quote (takeEscape r).2).map (Text.onto (takeEscape r).1)
    else (takeString? quote r).map (Text.onto c)
termination_by t => t.length
decreasing_by
  · have := length_takeEscape_snd_le r
    simp only [List.length_cons]
    omega
  · simp

theorem length_takeString?_snd_lt {quote : Char} {t s rest : Text}
    (h : takeString? quote t = some (s, rest)) : rest.length < t.length := by
  fun_induction takeString? quote t generalizing s with
  | case1 => simp at h
  | case2 => simp_all
  | case3 r _ ih =>
    have := length_takeEscape_snd_le r
    obtain ⟨⟨s', rest'⟩, h', heq⟩ := Option.map_eq_some_iff.1 h
    simp only [Text.onto, Prod.mk.injEq] at heq
    obtain ⟨-, rfl⟩ := heq
    have := ih h'
    simp only [List.length_cons]
    omega
  | case4 c r _ _ ih =>
    obtain ⟨⟨s', rest'⟩, h', heq⟩ := Option.map_eq_some_iff.1 h
    simp only [Text.onto, Prod.mk.injEq] at heq
    obtain ⟨-, rfl⟩ := heq
    have := ih h'
    simp only [List.length_cons]
    omega

end Css
end CosmeticFilter
