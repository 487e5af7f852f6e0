import CosmeticFilter.Text.Number

/-!
# The `An+B` notation

`An+B` stands for the positions `a * n + b` with `n = 0, 1, 2, …`. Both coefficients are whole
numbers of 32 bits.

* `Nth.matches`: the positions of the list;
* `Nth.ofText?`: reads `odd`, `even`, a number, or `An` with an optional signed `B`.
-/

namespace CosmeticFilter
namespace Css

/-- The positions `step * n + offset` for `n ≥ 0`. -/
structure Nth where
  /-- The step. -/
  step : Int
  /-- The offset. -/
  offset : Int
  deriving DecidableEq, Repr

namespace Nth

/-- The position is `step * n + offset` for some `n ≥ 0`. -/
def «matches» (nth : Nth) (index : Int) : Bool :=
  if nth.step = 0 then index == nth.offset
  else
    let distance := index - nth.offset
    distance % nth.step == 0 && 0 ≤ distance / nth.step

/-- The step in front of `n`: a bare sign, or nothing, stands for one. -/
def readStep? (t : Text) : Option Int :=
  if t = [] ∨ t = ['+'] then some 1
  else if t = ['-'] then some (-1)
  else Text.readInt32? t

/-- The offset after `n`: nothing, or a number that has a sign. -/
def readOffset? : Text → Option Int
  | [] => some 0
  | c :: r => if c = '+' ∨ c = '-' then Text.readInt32? (c :: r) else none

/-- The notation that a text spells, blanks and letter case aside. -/
def ofText? (t : Text) : Option Nth :=
  let s := Text.lower (t.filter (! Text.isBlank ·))
  if s = "odd".toList then some ⟨2, 1⟩
  else if s = "even".toList then some ⟨2, 0⟩
  else match Text.cutFirst (· == 'n') s with
    | none => (Text.readInt32? s).map fun b => ⟨0, b⟩
    | some (step, offset) =>
      match readStep? step, readOffset? offset with
      | some a, some b => some ⟨a, b⟩
      | _, _ => none

end Nth
end Css
end CosmeticFilter
