import CosmeticFilter.Text.Basic
import CosmeticFilter.Text.CategoryTable

/-!
# General categories

Every character has one of Unicode's general categories; which, is looked up in a table of runs.
The classes of characters that patterns and expressions speak of are unions of categories: digits,
letters, word characters.

* `Category.of`: the category of a character;
* `Text.isAlphabetic`, `Text.isAlphanumeric`: what may stand in a name;
* `Text.isDigit`, `Text.isWordChar`: decimal digits, and the characters that words are made of.

ASCII characters are classified without the table.
-/

namespace CosmeticFilter

/-- Unicode's general categories. -/
inductive Category where
  | Lu | Ll | Lt | Lm | Lo | Mn | Mc | Me | Nd | Nl | No | Pc | Pd | Ps | Pe | Pi | Pf | Po
  | Sm | Sc | Sk | So | Zs | Zl | Zp | Cc | Cf | Co | Cn
  deriving DecidableEq, Repr, Inhabited

namespace Category

/-- All categories with their two letters. -/
def named : List (Text × Category) :=
  [("Lu".toList, Lu), ("Ll".toList, Ll), ("Lt".toList, Lt), ("Lm".toList, Lm), ("Lo".toList, Lo),
    ("Mn".toList, Mn), ("Mc".toList, Mc), ("Me".toList, Me), ("Nd".toList, Nd), ("Nl".toList, Nl),
    ("No".toList, No), ("Pc".toList, Pc), ("Pd".toList, Pd), ("Ps".toList, Ps), ("Pe".toList, Pe),
    ("Pi".toList, Pi), ("Pf".toList, Pf), ("Po".toList, Po), ("Sm".toList, Sm), ("Sc".toList, Sc),
    ("Sk".toList, Sk), ("So".toList, So), ("Zs".toList, Zs), ("Zl".toList, Zl), ("Zp".toList, Zp),
    ("Cc".toList, Cc), ("Cf".toList, Cf), ("Co".toList, Co), ("Cn".toList, Cn)]

/-- The value of a hexadecimal digit in small letters. -/
def tableDigit (c : Char) : Nat :=
  if c.isDigit then c.toNat - '0'.toNat else c.toNat - 'a'.toNat + 10

/-- The value of hexadecimal digits in small letters. -/
def tableNumber (t : Text) : Nat := t.foldl (fun n c => 16 * n + tableDigit c) 0

/-- Reads an entry of the table: a number and two letters. -/
def readRun (t : Text) : Nat × Category :=
  let digits := t.takeWhile fun c => !c.isUpper
  (tableNumber digits, ((named.find? fun e => e.1 == t.drop digits.length).map Prod.snd).getD Cn)

/-- The runs of the table. -/
def runs : Array (Nat × Category) :=
  ((Text.categoryTable.flatMap fun row => Text.splitWhere (· == ' ') row.toList).map
    readRun).toArray

/-- The category of the last run, between the places `low` and `high`, that does not begin after
the number `n`. -/
def lookUp (table : Array (Nat × Category)) (n low high : Nat) : Category :=
  if low + 1 < high then
    let middle := (low + high) / 2
    if (table[middle]?.map Prod.fst).getD 0 ≤ n then lookUp table n middle high
    else lookUp table n low middle
  else (table[low]?.map Prod.snd).getD Cn
termination_by high - low
decreasing_by all_goals omega

/-- The general category of a character. -/
def of (c : Char) : Category := lookUp runs c.toNat 0 runs.size

/-- The categories of letters. -/
def isLetter : Category → Bool
  | Lu | Ll | Lt | Lm | Lo => true
  | _ => false

/-- The categories of numbers. -/
def isNumber : Category → Bool
  | Nd | Nl | No => true
  | _ => false

/-- The categories of marks. -/
def isMark : Category → Bool
  | Mn | Mc | Me => true
  | _ => false

end Category

namespace Text

/-- Reads a range of the table: two numbers, or one that stands for itself. -/
def readRange (t : Text) : Nat × Nat :=
  match cutFirst (· == '-') t with
  | some (a, b) => (Category.tableNumber a, Category.tableNumber b)
  | none => (Category.tableNumber t, Category.tableNumber t)

/-- The ranges of alphabetic characters that are neither letters nor letter numbers. -/
def otherAlphabetic : List (Nat × Nat) :=
  (otherAlphabeticTable.flatMap fun row => splitWhere (· == ' ') row.toList).map readRange

/-- The number lies in one of the ranges, which ascend. -/
def inRanges (n : Nat) : List (Nat × Nat) → Bool
  | [] => false
  | (low, high) :: r => low ≤ n && (n ≤ high || inRanges n r)

/-- Letters, letter numbers, and the marks and symbols that count as alphabetic. -/
def isAlphabetic (c : Char) : Bool :=
  if c.toNat < 128 then c.isAlpha
  else
    let category := Category.of c
    category.isLetter || category == .Nl || inRanges c.toNat otherAlphabetic

/-- Alphabetic characters and numbers. -/
def isAlphanumeric (c : Char) : Bool :=
  if c.toNat < 128 then c.isAlphanum else isAlphabetic c || (Category.of c).isNumber

/-- Decimal digits of any script. -/
def isDigit (c : Char) : Bool :=
  if c.toNat < 128 then c.isDigit else Category.of c == .Nd

/-- The characters that words are made of: alphabetic characters, marks, decimal digits, joining
punctuation such as `_`, and the two joiners. -/
def isWordChar (c : Char) : Bool :=
  if c.toNat < 128 then c.isAlphanum || c == '_'
  else
    let category := Category.of c
    isAlphabetic c || category.isMark || category == .Nd || category == .Pc ||
      c == '\u200c' || c == '\u200d'

end Text
end CosmeticFilter
