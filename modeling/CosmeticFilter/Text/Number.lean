import CosmeticFilter.Text.Basic

/-!
# Whole numbers in text

Depths, positions and `An+B` coefficients are written in decimal ASCII digits. A reader accepts
digits only, one sign at most, and nothing on either side; a bound on the value is the caller's.

* `Text.readNat?`, `Text.readInt?`: the number a whole text denotes;
* `Text.readIntWithin?`, `Text.readInt32?`, `Text.readInt64?`: the same within bounds;
* `Text.ofNat`, `Text.ofInt`: the digits of a number.
-/

namespace CosmeticFilter
namespace Text

/-- The value of a run of digits. -/
def digitsValue (t : Text) : Nat := t.foldl (fun n c => 10 * n + (c.toNat - '0'.toNat)) 0

/-- The number written by the digits of the text; `none` if it is empty or holds anything else. -/
def readNat? (t : Text) : Option Nat :=
  if !t.isEmpty && t.all Char.isDigit then some (digitsValue t) else none

/-- The number written by the text: digits with at most one sign in front. -/
def readInt? : Text → Option Int
  | [] => none
  | c :: r =>
    if c = '-' then (readNat? r).map fun n => -(n : Int)
    else if c = '+' then (readNat? r).map Int.ofNat
    else (readNat? (c :: r)).map Int.ofNat

/-- The number written by the text, if it lies between `low` and `high`. -/
def readIntWithin? (low high : Int) (t : Text) : Option Int :=
  (readInt? t).filter fun n => low ≤ n && n ≤ high

/-- The number written by the text, if it fits 32 bits with its sign. -/
def readInt32? (t : Text) : Option Int := readIntWithin? (-2147483648) 2147483647 t

/-- The number written by the text, if it fits 64 bits with its sign. -/
def readInt64? (t : Text) : Option Int :=
  readIntWithin? (-9223372036854775808) 9223372036854775807 t

/-- The decimal digits of a number. -/
def ofNat (n : Nat) : Text := Nat.toDigits 10 n

/-- The decimal digits of a number, behind `-` if it is negative. -/
def ofInt : Int → Text
  | .ofNat n => ofNat n
  | .negSucc n => '-' :: ofNat (n + 1)

end Text
end CosmeticFilter
