import CosmeticFilter.Decimal.Double

/-!
# Reading decimals

`Double.ofText?` reads a number as a style value writes it: digits with at most one decimal point
and one exponent, or the names of infinity and of what is not a number. The double is the nearest
one.
-/

namespace CosmeticFilter
namespace Double

/-- Reads the exponent of a decimal, if there is one; `none` if it is malformed. -/
def readExponent? : Text → Option Int
  | [] => some 0
  | c :: r => if c = 'e' ∨ c = 'E' then Text.readInt? r else none

/-- Reads a decimal without a sign: its digits as a whole number, and the power of ten to
multiply it by. -/
def readDecimal? (t : Text) : Option (Nat × Int) :=
  let whole := t.takeWhile Char.isDigit
  let afterWhole := t.drop whole.length
  let hasPoint := afterWhole.head? == some '.'
  let afterPoint := if hasPoint then afterWhole.tail else afterWhole
  let fraction := if hasPoint then afterPoint.takeWhile Char.isDigit else []
  let digits := whole ++ fraction
  if digits.isEmpty then none
  else (readExponent? (afterPoint.drop fraction.length)).map fun e =>
    (Text.digitsValue digits, e - fraction.length)

/-- Reads a number without a sign. -/
def readUnsigned? (negative : Bool) (t : Text) : Option Float :=
  let name := Text.lower t
  if name = "inf".toList ∨ name = "infinity".toList then
    some (Float.ofBits (UInt64.ofNat ((if negative then signBit else 0) + infinityBits)))
  else if name = "nan".toList then
    some (Float.ofBits (UInt64.ofNat nanBits))
  else (readDecimal? t).map fun (digits, exponent) => ofDecimal negative digits exponent

/-- Reads a number that a whole text writes. -/
def ofText? : Text → Option Float
  | [] => none
  | c :: r =>
    if c = '-' then readUnsigned? true r
    else if c = '+' then readUnsigned? false r
    else readUnsigned? false (c :: r)

end Double
end CosmeticFilter
