import CosmeticFilter.Proofs.XPath.Meaning
import Mathlib.Data.List.TakeWhile

/-!
# Numbers of positions

A position is far below `2 ^ 53`, so it is a number as it stands. The number that it is compared
with may be rounded, but not below `2 ^ 53`, and so every comparison of the two comes out as if
there were no rounding. A number that is written in digits without zeros in front is read back from
its digits, so two such numbers are equal exactly if their digits are.

* `Text.readNat?_ofNat`, `Text.ofNat_injective`: the digits of a number;
* `Standard.Rounding.number?_ofNat`: they are turned into the number;
* `Relation.compares_iff`: positions are compared as they stand.
-/

namespace CosmeticFilter

namespace Text

theorem isDigit_of_mem_ofNat {c : Char} {n : Nat} (h : c ∈ ofNat n) : c.isDigit = true :=
  Nat.isDigit_of_mem_toDigits (by decide) (by decide) h

theorem readNat?_ofNat (n : Nat) : readNat? (ofNat n) = some n := by
  have hempty : (ofNat n).isEmpty = false := by
    rw [List.isEmpty_eq_false_iff]
    exact Nat.toDigits_ne_nil
  have hall : (ofNat n).all Char.isDigit = true :=
    List.all_eq_true.mpr fun c hc => isDigit_of_mem_ofNat hc
  have hvalue : digitsValue (ofNat n) = n := Nat.ofDigitChars_ten_toDigits
  rw [readNat?, hempty, hall, hvalue]
  rfl

theorem ofNat_injective {m n : Nat} (h : ofNat m = ofNat n) : m = n := by
  have hread := readNat?_ofNat m
  rw [h, readNat?_ofNat] at hread
  exact (Option.some_inj.mp hread).symm

end Text

namespace XPath
namespace Standard
namespace Rounding

variable (R : Rounding) {p k : Nat}

/-- A number in digits is turned into itself. -/
theorem number?_ofNat (n : Nat) : R.number? (Text.ofNat n) = some (R.round n) := by
  have hblank : ∀ {t : Text}, (∀ c ∈ t, c.isDigit = true) → t.dropWhile isNumberBlank = t := by
    intro t ht
    cases t with
    | nil => rfl
    | cons c r =>
      refine List.dropWhile_cons_of_neg fun hc => ?_
      have hdigit := ht c List.mem_cons_self
      simp only [isNumberBlank, Bool.or_eq_true, beq_iff_eq] at hc
      rcases hc with ((rfl | rfl) | rfl) | rfl <;> cases hdigit
  have hdigits : ∀ c ∈ Text.ofNat n, c.isDigit = true := fun c hc => Text.isDigit_of_mem_ofNat hc
  have hdecimal : decimal? (Text.ofNat n) = some (n : ℚ) := by
    have hrest : (Text.ofNat n).dropWhile Char.isDigit = [] :=
      List.dropWhile_eq_nil_iff.mpr hdigits
    rw [decimal?, hrest, Text.readNat?_ofNat]
    rfl
  rw [number?, hblank hdigits, hblank fun c hc => hdigits c (List.mem_reverse.mp hc),
    List.reverse_reverse]
  split
  · rename_i r hminus
    have hdigit := hdigits '-' (hminus ▸ List.mem_cons_self)
    cases hdigit
  · rw [hdecimal]
    rfl

theorem round_lt_round_iff (hp : p < 2 ^ 53) : R.round p < R.round k ↔ p < k := by
  constructor
  · intro h
    by_contra hge
    exact absurd h (not_lt.mpr (R.monotone (by exact_mod_cast Nat.le_of_not_lt hge)))
  · intro h
    rw [R.exact p hp.le]
    rcases Nat.lt_or_ge (2 ^ 53) k with hbig | hsmall
    · have hle : R.round ((2 ^ 53 : Nat) : ℚ) ≤ R.round k := R.monotone (by exact_mod_cast hbig.le)
      rw [R.exact _ le_rfl] at hle
      exact lt_of_lt_of_le (by exact_mod_cast hp) hle
    · rw [R.exact k hsmall]
      exact_mod_cast h

theorem round_lt_round_iff' (hp : p < 2 ^ 53) : R.round k < R.round p ↔ k < p := by
  constructor
  · intro h
    by_contra hge
    exact absurd h (not_lt.mpr (R.monotone (by exact_mod_cast Nat.le_of_not_lt hge)))
  · intro h
    rw [R.exact p hp.le, R.exact k (by omega)]
    exact_mod_cast h

theorem round_inj (hp : p < 2 ^ 53) : R.round p = R.round k ↔ p = k := by
  refine ⟨fun h => ?_, fun h => by rw [h]⟩
  have hlt := (R.round_lt_round_iff hp (k := k)).not
  have hgt := (R.round_lt_round_iff' hp (k := k)).not
  have hle := hlt.mp h.not_lt
  have hge := hgt.mp h.not_gt
  omega

end Rounding
end Standard
end XPath

theorem Relation.compares_iff (R : XPath.Standard.Rounding) (relation : Relation) {p : Nat}
    (k : Nat) (hp : p < 2 ^ 53) :
    relation.Compares (R.round p) (R.round k) ↔ relation.holds p k = true := by
  cases relation with
  | eq => exact (R.round_inj hp).trans beq_iff_eq.symm
  | ne => exact (R.round_inj hp).not.trans bne_iff_ne.symm
  | lt => exact (R.round_lt_round_iff hp).trans decide_eq_true_iff.symm
  | le =>
    exact (not_lt.symm.trans ((R.round_lt_round_iff' hp).not.trans Nat.not_lt)).trans
      decide_eq_true_iff.symm
  | gt => exact (R.round_lt_round_iff' hp).trans decide_eq_true_iff.symm
  | ge =>
    exact (not_lt.symm.trans ((R.round_lt_round_iff hp).not.trans Nat.not_lt)).trans
      decide_eq_true_iff.symm

end CosmeticFilter
