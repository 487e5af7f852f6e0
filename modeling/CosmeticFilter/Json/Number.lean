import CosmeticFilter.Decimal.Double
import CosmeticFilter.Json.Basic

/-!
# Numbers of JSON

An integer that fits 64 bits is kept exactly. Every other number becomes a double by one short rule:
as many digits as fit 64 bits are taken as a whole number, the rest of them only count as powers of
ten, and the whole number is multiplied or divided by that power, each factor rounded. The result is
not always the nearest double, but it is the same for every reader that follows the rule.

* `Json.takeNumber?`: reads a number at the start of a text;
* `Json.scale?`: the double of a whole number and a power of ten.
-/

namespace CosmeticFilter
namespace Json

/-- The least whole number that does not fit 64 bits. -/
def wordLimit : Nat := UInt64.size

/-- A whole number read so far, and the digits that no longer fit. -/
def takeWhole (n : Nat) : Text → Nat × Text
  | [] => (n, [])
  | c :: r =>
    let next := 10 * n + (c.toNat - '0'.toNat)
    if next < wordLimit then takeWhole next r else (n, c :: r)

/-- The power of ten as a double; the greatest is 308. -/
def powerOfTen (n : Nat) : Float := Double.ofDecimal false 1 n

/-- The double `n * 10 ^ exponent` of a number without a sign; `none` if it is out of range. -/
def scale? (n : Nat) (exponent : Int) : Option Float :=
  let x := Double.ofDecimal false n 0
  if n = 0 ∨ exponent < -616 then some (Double.ofDecimal false 0 0)
  else if exponent < -308 then
    some (x / powerOfTen 308 / powerOfTen (-(exponent + 308)).toNat)
  else if exponent < 0 then some (x / powerOfTen (-exponent).toNat)
  else if 308 < exponent then none
  else
    let product := x * powerOfTen exponent.toNat
    if product.isInf then none else some product

/-- Reads an exponent at the start of a text, without the letter in front of it. -/
def takeExponent? (t : Text) : Option (Int × Text) :=
  let negative := t.head? == some '-'
  let unsigned := if negative || t.head? == some '+' then t.tail else t
  let digits := unsigned.takeWhile Char.isDigit
  if digits.isEmpty then none
  else
    let n : Int := Text.digitsValue digits
    some (if negative then -n else n, unsigned.drop digits.length)

/-- Reads a fraction at the start of a text, its point included, if there is one. -/
def takeFraction? : Text → Option (Option Text × Text)
  | [] => some (none, [])
  | c :: r =>
    if c ≠ '.' then some (none, c :: r)
    else
      let digits := r.takeWhile Char.isDigit
      if digits.isEmpty then none else some (some digits, r.drop digits.length)

/-- Reads an exponent at the start of a text, the letter included, if there is one. -/
def takePower? : Text → Option (Option Int × Text)
  | [] => some (none, [])
  | c :: r =>
    if c = 'e' ∨ c = 'E' then (takeExponent? r).map fun (n, rest) => (some n, rest)
    else some (none, c :: r)

/-- A number without fraction and exponent that fits 64 bits. Minus zero is no integer. -/
def ofWhole (negative : Bool) (n : Nat) : Json :=
  if negative then
    if n = 0 ∨ Double.signBit < n then float (Double.ofDecimal true n 0) else int (-n)
  else int n

/-- The number that is made of a sign, digits, digits after the point, and an exponent. -/
def ofParts? (negative : Bool) (whole : Text) (fraction : Option Text) (power : Option Int) :
    Option Json :=
  let (n, excess) := takeWhole 0 whole
  if fraction.isNone ∧ power.isNone ∧ excess = [] then some (ofWhole negative n)
  else
    let digits := fraction.getD []
    let (m, ignored) := takeWhole n digits
    let used : Int := digits.length - ignored.length
    (scale? m (excess.length - used + power.getD 0)).map fun x =>
      float (if negative then -x else x)

/-- Reads a number at the start of a text. No zero is written in front of another digit. A number
that is out of range is refused, or read as `null` by a lax reader. -/
def takeNumber? (lax : Bool) (t : Text) : Option (Json × Text) := do
  let negative := t.head? == some '-'
  let unsigned := if negative then t.tail else t
  let whole := unsigned.takeWhile Char.isDigit
  if whole.isEmpty || (whole.head? == some '0' && 1 < whole.length) then none
  else
    let (fraction, afterFraction) ← takeFraction? (unsigned.drop whole.length)
    let (power, rest) ← takePower? afterFraction
    let number ← (ofParts? negative whole fraction power).or (if lax then some null else none)
    return (number, rest)

end Json
end CosmeticFilter
