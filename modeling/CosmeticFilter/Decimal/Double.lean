import CosmeticFilter.Text.Number

/-!
# Numbers in double precision

A double is a sign and a magnitude `significand * 2 ^ exponent`. All that is decided about doubles
is decided on these whole numbers: which double is nearest to a decimal, and which decimals are
nearest to a double.

* `Double.parts`: the sign and the magnitude of a double;
* `Double.ofDecimal`: the double nearest to `digits * 10 ^ exponent`, a tie going to the even
  significand.
-/

namespace CosmeticFilter
namespace Double

/-- What a double stands for. -/
inductive Magnitude where
  /-- `significand * 2 ^ exponent`. `lowEdge` says that the double below is only half as far away
  as the one above. -/
  | finite (significand : Nat) (exponent : Int) (lowEdge : Bool)
  /-- Beyond all finite doubles. -/
  | infinite
  /-- Not a number. -/
  | nan
  deriving DecidableEq, Repr

/-- The bit in front of the bits of the fraction, `2 ^ 52`. -/
def hiddenBit : Nat := 0x10000000000000

/-- The bit of the sign, `2 ^ 63`. -/
def signBit : Nat := 0x8000000000000000

/-- The bits of infinity: the greatest exponent, and no fraction. -/
def infinityBits : Nat := 0x7ff0000000000000

/-- The bits of what is not a number. -/
def nanBits : Nat := 0x7ff8000000000000

/-- The sign bit and the magnitude of the double with these bits. -/
def partsOfBits (bits : Nat) : Bool × Magnitude :=
  let negative := signBit ≤ bits
  let exponent : Nat := bits / hiddenBit % 2048
  let fraction : Nat := bits % hiddenBit
  let magnitude : Magnitude :=
    if exponent = 2047 then (if fraction = 0 then .infinite else .nan)
    else if exponent = 0 then .finite fraction (-1074) false
    else .finite (hiddenBit + fraction) ((exponent : Int) - 1075) (fraction == 0 && 1 < exponent)
  (negative, magnitude)

/-- The sign bit and the magnitude of a double. -/
def parts (x : Float) : Bool × Magnitude := partsOfBits x.toBits.toNat

/-- The quotient rounded to the nearest whole number, a tie going to the even one. -/
def roundDiv (num den : Nat) : Nat :=
  let quotient := num / den
  let twice := 2 * (num % den)
  if twice < den then quotient
  else if den < twice then quotient + 1
  else quotient + quotient % 2

/-- The bits of the nonnegative double nearest to `num / den`. -/
def nearestBits (num den : Nat) : Nat :=
  let guess : Int := max ((num.log2 : Int) - den.log2 - 53) (-1074)
  let scaled (exponent : Int) : Nat × Nat :=
    if 0 ≤ exponent then (num, den * Nat.pow 2 exponent.toNat)
    else (num * Nat.pow 2 (-exponent).toNat, den)
  let tooSmall := 2 * hiddenBit ≤ (scaled guess).1 / (scaled guess).2
  let exponent := if tooSmall then guess + 1 else guess
  let significand := roundDiv (scaled exponent).1 (scaled exponent).2
  min ((exponent + 1074).toNat * hiddenBit + significand) infinityBits

/-- The double nearest to `digits * 10 ^ exponent`, with a sign. -/
def ofDecimal (negative : Bool) (digits : Nat) (exponent : Int) : Float :=
  let size : Int := (Text.ofNat digits).length + exponent
  let bits :=
    if digits = 0 ∨ size < -330 then 0
    else if 320 < size then infinityBits
    else if 0 ≤ exponent then nearestBits (digits * Nat.pow 10 exponent.toNat) 1
    else nearestBits digits (Nat.pow 10 (-exponent).toNat)
  Float.ofBits (UInt64.ofNat (if negative then signBit + bits else bits))

end Double
end CosmeticFilter
