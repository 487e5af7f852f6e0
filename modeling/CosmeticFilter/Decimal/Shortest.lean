import CosmeticFilter.Decimal.Double

/-!
# Shortest decimals and how they are written

A double is printed with the fewest digits that read back as the same double, and of those with the
digits nearest to it. The digits are found on grids of one, two, three, … digits: on the first grid
that has a point among the reals which round to the double, the nearest such point is taken.

* `Double.shortest`: the digits and the place of the decimal point;
* `Layout`: the decisions of an output format about zeros, points and exponents;
* `Double.write`: the text of a double in a layout.
-/

namespace CosmeticFilter

/-- The number `0.d₁d₂d₃… * 10 ^ point`. -/
structure Decimal where
  /-- The digits; the first is not zero unless it is the only one. -/
  digits : Text
  /-- How far the decimal point stands right of the place before the first digit. -/
  point : Int
  deriving DecidableEq, Repr

namespace Double

/-- The least `k` with `num / den < 10 ^ k`, for a quotient that is not zero. -/
def decimalSize (num den : Nat) : Int :=
  if den ≤ num then ((Text.ofNat (num / den)).length : Int)
  else
    let zeros := (List.range 400).find? fun j => den ≤ num * Nat.pow 10 (j + 1)
    Int.negOfNat (zeros.getD 0)

/-- The point of the grid of `count` digits that is nearest to `value / den`, if one lies between
`low / den` and `high / den`, the bounds included or not. `size` is the decimal size of the value.
-/
def onGrid? (low value high den : Nat) (included : Bool) (size : Int) (count : Nat) :
    Option Nat :=
  let gap : Int := size - count
  let up := Nat.pow 10 (-gap).toNat
  let unit := den * Nat.pow 10 gap.toNat
  let below := value * up / unit
  let reaches (a b : Nat) : Bool := if included then a ≤ b else a < b
  let belowFits := reaches (low * up) (below * unit)
  let aboveFits := reaches ((below + 1) * unit) (high * up)
  if belowFits && aboveFits then some (roundDiv (value * up) unit)
  else if belowFits then some below
  else if aboveFits then some (below + 1)
  else none

/-- The first of the grids from `count` on that has a point in reach; `rounds` bounds the search. -/
def firstGrid (low value high den : Nat) (included : Bool) (size : Int) :
    Nat → Nat → Nat × Nat
  | 0, count => (value, count)
  | rounds + 1, count =>
    match onGrid? low value high den included size count with
    | some n => (n, count)
    | none => firstGrid low value high den included size rounds (count + 1)

/-- The fewest digits that read back as the double `significand * 2 ^ exponent`, and of those the
nearest. -/
def shortest (significand : Nat) (exponent : Int) (lowEdge : Bool) : Decimal :=
  if significand = 0 then ⟨['0'], 1⟩
  else
    let num := Nat.pow 2 (exponent - 2).toNat
    let den := Nat.pow 2 (2 - exponent).toNat
    let value := 4 * significand * num
    let low := (4 * significand - (if lowEdge then 1 else 2)) * num
    let high := (4 * significand + 2) * num
    let size := decimalSize value den
    let found := firstGrid low value high den (significand % 2 == 0) size 17 1
    let digits := Text.ofNat found.1
    let trimmed := (digits.reverse.dropWhile (· == '0')).reverse
    ⟨trimmed, size + digits.length - found.2⟩

end Double

/-- How an output format writes decimals. -/
structure Layout where
  /-- The least place of the decimal point that is written without an exponent; `none` if all
  are. -/
  least : Option Int
  /-- The greatest such place. -/
  greatest : Option Int
  /-- Whether a whole number ends in `.0`. -/
  keepsPoint : Bool
  /-- Whether a positive exponent has a sign. -/
  signsExponent : Bool

namespace Layout

/-- The digits with the decimal point in its place. -/
def positional (l : Layout) (d : Decimal) : Text :=
  let count : Int := d.digits.length
  if d.point ≤ 0 then "0.".toList ++ List.replicate (-d.point).toNat '0' ++ d.digits
  else if count ≤ d.point then
    d.digits ++ List.replicate (d.point - count).toNat '0' ++
      (if l.keepsPoint then ".0".toList else [])
  else d.digits.take d.point.toNat ++ '.' :: d.digits.drop d.point.toNat

/-- One digit before the decimal point, and the power of ten that makes up for it. -/
def scientific (l : Layout) (d : Decimal) : Text :=
  let sign := if l.signsExponent && 1 < d.point then ['+'] else []
  let power := 'e' :: sign ++ Text.ofInt (d.point - 1)
  match d.digits with
  | [] => power
  | [c] => c :: power
  | c :: cs => c :: '.' :: cs ++ power

/-- The text of a decimal. -/
def write (l : Layout) (d : Decimal) : Text :=
  if l.least.all (· ≤ d.point) && l.greatest.all (d.point ≤ ·) then l.positional d
  else l.scientific d

end Layout

/-- The text of a double in a layout. -/
def Double.write (l : Layout) (x : Float) : Text :=
  match Double.parts x with
  | (_, .nan) => "NaN".toList
  | (negative, .infinite) => if negative then "-inf".toList else "inf".toList
  | (negative, .finite significand exponent lowEdge) =>
    (if negative then ['-'] else []) ++ l.write (Double.shortest significand exponent lowEdge)

end CosmeticFilter
