import CosmeticFilter.Proofs.Text.BlankCategories
import CosmeticFilter.Proofs.XPath.Numbers

/-!
# Whole numbers in writing

A whole number is written in decimal digits, with one sign in front at most. The readers accept
exactly these texts, those with a bound exactly the ones whose number lies within it, and the digits
of a number are one of the texts that it is written by.

* `IsSign`, `IsDigits`, `IsInteger`: the texts, and the number that each of them writes;
* `readInt?_eq_some_iff`, `readInt32?_eq_some_iff`: these are the texts that are read;
* `isInteger_ofInt`: the digits of a number.
-/

namespace CosmeticFilter
namespace Text

variable {t : Text} {n : Int} {c : Char}

/-- A sign, or none, and what it multiplies by. -/
inductive IsSign : Text → Int → Prop where
  /-- No sign. -/
  | absent : IsSign [] 1
  /-- A plus. -/
  | plus : IsSign ['+'] 1
  /-- A minus. -/
  | minus : IsSign ['-'] (-1)

/-- Decimal digits, at least one. -/
structure IsDigits (t : Text) : Prop where
  /-- There is a digit. -/
  nonempty : t ≠ []
  /-- There is nothing else. -/
  digits : ∀ c ∈ t, c.isDigit = true

/-- The text writes the number: digits with one sign in front at most. -/
def IsInteger (t : Text) (n : Int) : Prop :=
  ∃ sign σ digits, IsSign sign σ ∧ IsDigits digits ∧ t = sign ++ digits ∧ n = σ * digitsValue digits

/-- The number fits 32 bits with its sign. -/
def IsInt32 (n : Int) : Prop := -2147483648 ≤ n ∧ n ≤ 2147483647

instance (n : Int) : Decidable (IsInt32 n) :=
  inferInstanceAs (Decidable (-2147483648 ≤ n ∧ n ≤ 2147483647))

/-- The character is a digit or a sign. -/
def IsDigitOrSign (c : Char) : Prop := c.isDigit = true ∨ c = '+' ∨ c = '-'

instance (c : Char) : Decidable (IsDigitOrSign c) :=
  inferInstanceAs (Decidable (c.isDigit = true ∨ c = '+' ∨ c = '-'))

theorem not_blank_of_isDigitOrSign (h : IsDigitOrSign c) : isBlank c = false := by
  rcases h with h | rfl | rfl
  · exact not_blank_of_isDigit h
  · decide
  · decide

theorem IsSign.isDigitOrSign {σ : Int} (h : IsSign t σ) : ∀ c ∈ t, IsDigitOrSign c := by
  cases h <;> simp [IsDigitOrSign]

theorem IsInteger.isDigitOrSign (h : IsInteger t n) : ∀ c ∈ t, IsDigitOrSign c := by
  obtain ⟨sign, σ, digits, hsign, hdigits, rfl, -⟩ := h
  intro c hc
  rcases List.mem_append.mp hc with hc | hc
  · exact hsign.isDigitOrSign c hc
  · exact .inl (hdigits.digits c hc)

/-! ### Reading -/

theorem readNat?_eq_some_iff {n : Nat} : readNat? t = some n ↔ IsDigits t ∧ n = digitsValue t := by
  unfold readNat?
  constructor
  · intro h
    split at h
    · rename_i hall
      rw [Bool.and_eq_true, Bool.not_eq_true', List.isEmpty_eq_false_iff, List.all_eq_true] at hall
      exact ⟨⟨hall.1, hall.2⟩, (Option.some_inj.mp h).symm⟩
    · exact absurd h (by simp)
  · rintro ⟨h, rfl⟩
    rw [if_pos]
    rw [Bool.and_eq_true, Bool.not_eq_true', List.isEmpty_eq_false_iff, List.all_eq_true]
    exact ⟨h.nonempty, h.digits⟩

/-- **What is read as a whole number.** -/
theorem readInt?_eq_some_iff : readInt? t = some n ↔ IsInteger t n := by
  constructor
  · intro h
    cases t with
    | nil => exact absurd h (by simp [readInt?])
    | cons c r =>
      rw [readInt?] at h
      split_ifs at h with hminus hplus
      · cases hread : readNat? r with
        | none =>
          rw [hread] at h
          cases h
        | some m =>
          obtain ⟨hdigits, rfl⟩ := readNat?_eq_some_iff.mp hread
          rw [hread] at h
          obtain rfl := Option.some_inj.mp h
          exact ⟨['-'], -1, r, .minus, hdigits, by rw [hminus]; rfl, (Int.neg_one_mul _).symm⟩
      · obtain ⟨m, hm, rfl⟩ := Option.map_eq_some_iff.mp h
        obtain ⟨hdigits, rfl⟩ := readNat?_eq_some_iff.mp hm
        exact ⟨['+'], 1, r, .plus, hdigits, by rw [hplus]; rfl, (Int.one_mul _).symm⟩
      · obtain ⟨m, hm, rfl⟩ := Option.map_eq_some_iff.mp h
        obtain ⟨hdigits, rfl⟩ := readNat?_eq_some_iff.mp hm
        exact ⟨[], 1, c :: r, .absent, hdigits, rfl, (Int.one_mul _).symm⟩
  · rintro ⟨sign, σ, digits, hsign, hdigits, rfl, rfl⟩
    have hread := readNat?_eq_some_iff.mpr ⟨hdigits, rfl⟩
    cases hsign with
    | plus => simp [readInt?, hread]
    | minus => simp [readInt?, hread]
    | absent =>
      obtain ⟨c, r, rfl⟩ := List.exists_cons_of_ne_nil hdigits.nonempty
      have hdigit := hdigits.digits c List.mem_cons_self
      have hminus : c ≠ '-' := by
        rintro rfl
        exact absurd hdigit (by decide)
      have hplus : c ≠ '+' := by
        rintro rfl
        exact absurd hdigit (by decide)
      rw [List.nil_append, readInt?, if_neg hminus, if_neg hplus, hread, Int.one_mul]
      rfl

/-- What is read as a number of 32 bits. -/
theorem readInt32?_eq_some_iff : readInt32? t = some n ↔ IsInteger t n ∧ IsInt32 n := by
  rw [readInt32?, readIntWithin?, Option.filter_eq_some_iff, readInt?_eq_some_iff,
    Bool.and_eq_true, decide_eq_true_iff, decide_eq_true_iff]
  rfl

/-! ### Writing -/

theorem isDigits_ofNat (n : Nat) : IsDigits (ofNat n) :=
  ⟨Nat.toDigits_ne_nil, fun _ => isDigit_of_mem_ofNat⟩

theorem digitsValue_ofNat (n : Nat) : digitsValue (ofNat n) = n := Nat.ofDigitChars_ten_toDigits

/-- The digits of a number write it. -/
theorem isInteger_ofInt (n : Int) : IsInteger (ofInt n) n := by
  cases n with
  | ofNat m =>
    exact ⟨[], 1, ofNat m, .absent, isDigits_ofNat m, rfl, by rw [digitsValue_ofNat]; simp⟩
  | negSucc m =>
    exact ⟨['-'], -1, ofNat (m + 1), .minus, isDigits_ofNat _, rfl,
      by rw [digitsValue_ofNat]; omega⟩

end Text
end CosmeticFilter
