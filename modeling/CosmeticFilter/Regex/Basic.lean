import CosmeticFilter.Text.Category
import CosmeticFilter.Text.LetterCase

/-!
# Regular expressions

What a regular expression is once it has been read: every flag has been put into the sets of
characters and the assertions that it changes, and groups have dissolved.

* `CharSet` and `CharSet.mem`: sets of characters;
* `Assertion` and `Assertion.holds`: conditions on the two characters around a place;
* `Regex`: the expressions.
-/

namespace CosmeticFilter

/-- A set of characters. -/
inductive CharSet where
  /-- The characters between two bounds. -/
  | range (low high : Char)
  /-- White space. -/
  | blank
  /-- Decimal digits. -/
  | digit
  /-- The characters that words are made of. -/
  | wordChar
  /-- Alphabetic characters. -/
  | alphabetic
  /-- The characters of one of these categories. -/
  | categories (cs : List Category)
  /-- No character. -/
  | none
  /-- The characters of either set. -/
  | union (a b : CharSet)
  /-- The characters of both sets. -/
  | inter (a b : CharSet)
  /-- The characters outside the set. -/
  | compl (a : CharSet)
  /-- The characters of the set and all that differ from them in letter case alone. -/
  | anyCase (a : CharSet)
  deriving Repr

namespace CharSet

/-- The character is in the set. -/
def mem : CharSet → Char → Bool
  | range low high, c => low.toNat ≤ c.toNat && c.toNat ≤ high.toNat
  | blank, c => Text.isBlank c
  | digit, c => Text.isDigit c
  | wordChar, c => Text.isWordChar c
  | alphabetic, c => Text.isAlphabetic c
  | categories cs, c => cs.contains (Category.of c)
  | none, _ => false
  | union a b, c => a.mem c || b.mem c
  | inter a b, c => a.mem c && b.mem c
  | compl a, c => !a.mem c
  | anyCase a, c => (Text.caseVariants c).any a.mem

/-- The set of one character. -/
def single (c : Char) : CharSet := range c c

/-- The set of all characters. -/
def all : CharSet := compl none

/-- The union of sets. -/
def unions (sets : List CharSet) : CharSet := sets.foldr union none

/-- The set of the characters listed. -/
def ofList (cs : List Char) : CharSet := unions (cs.map single)

theorem mem_single (a c : Char) : (single a).mem c = (a == c) := by
  rw [Bool.eq_iff_iff]
  simp only [single, mem, Bool.and_eq_true, decide_eq_true_eq, beq_iff_eq]
  constructor
  · intro h
    exact Char.ext (UInt32.toNat_inj.mp (Nat.le_antisymm h.1 h.2))
  · rintro rfl
    exact ⟨Nat.le_refl _, Nat.le_refl _⟩

theorem mem_all (c : Char) : all.mem c = true := rfl

end CharSet

/-- A condition on a place between two characters. -/
inductive Assertion where
  /-- The text starts here. -/
  | textStart
  /-- The text ends here. -/
  | textEnd
  /-- A line starts here; a carriage return ends a line only if `crlf` is set. -/
  | lineStart (crlf : Bool)
  /-- A line ends here. -/
  | lineEnd (crlf : Bool)
  /-- A word starts or ends here. Words are made of the characters in `word`. -/
  | boundary (word : CharSet)
  /-- No word starts or ends here. -/
  | noBoundary (word : CharSet)
  /-- A word starts here. -/
  | wordStart (word : CharSet)
  /-- A word ends here. -/
  | wordEnd (word : CharSet)
  /-- No word character stands before this place. -/
  | wordStartHalf (word : CharSet)
  /-- No word character stands after this place. -/
  | wordEndHalf (word : CharSet)
  deriving Repr

/-- The condition holds between the two characters; at an end of the text one of them is
missing. -/
def Assertion.holds : Assertion → Option Char → Option Char → Bool
  | textStart, before, _ => before.isNone
  | textEnd, _, after => after.isNone
  | lineStart crlf, before, after =>
    before.isNone || before == some '\n' ||
      (crlf && before == some '\r' && after != some '\n')
  | lineEnd crlf, before, after =>
    after.isNone || (after == some '\n' && !(crlf && before == some '\r')) ||
      (crlf && after == some '\r')
  | boundary word, before, after => before.any word.mem != after.any word.mem
  | noBoundary word, before, after => before.any word.mem == after.any word.mem
  | wordStart word, before, after => !before.any word.mem && after.any word.mem
  | wordEnd word, before, after => before.any word.mem && !after.any word.mem
  | wordStartHalf word, before, _ => !before.any word.mem
  | wordEndHalf word, _, after => !after.any word.mem

/-- A regular expression. -/
inductive Regex where
  /-- The empty text. -/
  | empty
  /-- One character of the set. -/
  | set (s : CharSet)
  /-- The empty text where the condition holds. -/
  | assert (a : Assertion)
  /-- The first and then the second. -/
  | seq (r s : Regex)
  /-- The first or the second. -/
  | alt (r s : Regex)
  /-- At least `least` times in a row, and at most `most` times if there is a bound. -/
  | repeated (r : Regex) (least : Nat) (most : Option Nat)
  deriving Repr

namespace Regex

/-- One character. -/
def char (c : Char) : Regex := set (.single c)

/-- One after the other. -/
def seqs (rs : List Regex) : Regex := rs.foldr seq empty

/-- The characters of a text, one after the other. -/
def literal (t : Text) : Regex := seqs (t.map char)

/-- The room that an expression takes once it is laid out for matching, in bytes: a rough account,
good enough to refuse counted repetitions that explode. -/
def room : Regex → Nat
  | empty => 0
  | set s => setRoom s
  | assert _ => 32
  | seq r s => room r + room s
  | alt r s => room r + room s + 40
  | repeated r least most =>
    match most with
    | none => room r * (if least = 0 then 1 else least) + 40
    | some k => (room r + 40) * (if k < least then least else k)
where
  /-- The room of one set. -/
  setRoom : CharSet → Nat
    | .range low high =>
      if low = high then 32 * (if low.toNat < 0x80 then 1 else 3) else 200
    | .blank => 500
    | .digit => 6000
    | .wordChar => 62000
    | .alphabetic => 60000
    | .categories cs => 12000 * cs.length
    | .none => 32
    | .union a b => setRoom a + setRoom b
    | .inter a b => setRoom a + setRoom b
    | .compl a => setRoom a + 300
    | .anyCase a => 2 * setRoom a

/-- The room that an expression may take. -/
def maxRoom : Nat := 10 * 1024 * 1024

end Regex
end CosmeticFilter
