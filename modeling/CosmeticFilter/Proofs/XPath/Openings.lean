import CosmeticFilter.Proofs.Text.BlankCategories
import CosmeticFilter.Proofs.XPath.Conditions

/-!
# Where predicates begin

A square bracket opens a predicate unless it stands in a string. No name, number or sign holds a
quote or such a bracket, so quotes pair up in the order in which they stand, whatever is read
between them, and the brackets that open predicates are found by one pass over the text. What stands
behind each of them decides whether the reader passes over a number there.

* `openings`: what stands behind each bracket that opens a predicate;
* `NumberFits`, `PredicatesFit`: the numbers behind these brackets are within bounds;
* `Fits`: a part of a text in which they are;
* `Standard.Expr.IsWritten.openings_eq`: in a condition no predicate begins.
-/

namespace CosmeticFilter
namespace XPath

open Standard (Term Expr Level)

/-- What stands behind each opening square bracket that is in no string; `quote` is the quote of the
string that the text begins in, if any. -/
def openings (quote : Option Char) : Text → List Text
  | [] => []
  | c :: r =>
    match quote with
    | some q => openings (if c = q then none else quote) r
    | none =>
      if c = '"' ∨ c = '\'' then openings (some c) r
      else if c = '[' then r :: openings none r
      else openings none r

/-- If a number stands in front of the text, it is within bounds. -/
def NumberFits (t : Text) : Prop :=
  ∀ n, Text.readNat? ((Text.trimStart t).takeWhile Char.isDigit) = some n → n < numberLimit

/-- Every number at the beginning of a predicate is within bounds. -/
def PredicatesFit (t : Text) : Prop := ∀ r ∈ openings none t, NumberFits r

/-- The text goes on with `rest`, and every number at the beginning of a predicate in between is
within bounds. -/
def Fits (t rest : Text) : Prop :=
  ∃ l, openings none t = l ++ openings none rest ∧ ∀ r ∈ l, NumberFits r

namespace Fits

variable {s t u : Text}

theorem of_eq (h : openings none t = openings none u) : Fits t u :=
  ⟨[], h, fun _ hr => absurd hr List.not_mem_nil⟩

theorem trans (hst : Fits s t) (htu : Fits t u) : Fits s u := by
  obtain ⟨l, hl, hfits⟩ := hst
  obtain ⟨m, hm, hfits'⟩ := htu
  refine ⟨l ++ m, by rw [hl, hm, List.append_assoc], fun r hr => ?_⟩
  exact (List.mem_append.mp hr).elim (hfits r) (hfits' r)

theorem predicatesFit (h : Fits t u) (hu : openings none u = []) : PredicatesFit t := by
  obtain ⟨l, hl, hfits⟩ := h
  rw [PredicatesFit, hl, hu, List.append_nil]
  exact hfits

end Fits

theorem PredicatesFit.of_fits {t rest : Text} (h : PredicatesFit t) (hfits : Fits t rest) :
    PredicatesFit rest := by
  obtain ⟨l, hl, -⟩ := hfits
  exact fun r hr => h r (hl ▸ List.mem_append_right l hr)

/-! ### Plain texts and strings -/

/-- The character begins neither a string nor a predicate. -/
def IsPlain (c : Char) : Prop := c ≠ '"' ∧ c ≠ '\'' ∧ c ≠ '['

instance (c : Char) : Decidable (IsPlain c) := inferInstanceAs (Decidable (_ ∧ _))

/-- No character of the text does. -/
def ArePlain (s : Text) : Prop := ∀ c ∈ s, IsPlain c

instance (s : Text) : Decidable (ArePlain s) := List.decidableBAll IsPlain s

theorem openings_append {s : Text} (hs : ArePlain s) (r : Text) :
    openings none (s ++ r) = openings none r := by
  induction s with
  | nil => rfl
  | cons c s ih =>
    obtain ⟨⟨hdouble, hsingle, hbracket⟩, hs⟩ := List.forall_mem_cons.mp hs
    rw [List.cons_append, openings]
    rw [if_neg (not_or.mpr ⟨hdouble, hsingle⟩), if_neg hbracket, ih hs]

theorem openings_bracket (r : Text) : openings none ('[' :: r) = r :: openings none r := rfl

/-- A string is passed over. -/
theorem openings_literal {quote : Char} (hquote : quote = '"' ∨ quote = '\'') {literal : Text}
    (hinside : quote ∉ literal) (r : Text) :
    openings none (quote :: (literal ++ quote :: r)) = openings none r := by
  have hin : openings (some quote) (literal ++ quote :: r) = openings none r := by
    induction literal with
    | nil =>
      rw [List.nil_append, openings]
      rw [if_pos rfl]
    | cons c literal ih =>
      rw [List.mem_cons, not_or] at hinside
      rw [List.cons_append, openings]
      rw [if_neg (Ne.symm hinside.1), ih hinside.2]
  rw [openings]
  rw [if_pos hquote, hin]

theorem isPlain_of_blank {c : Char} (h : Text.isBlank c = true) : IsPlain c := by
  refine ⟨?_, ?_, ?_⟩ <;> rintro rfl <;> exact absurd h (by decide)

theorem isPlain_of_isDigit {c : Char} (h : c.isDigit = true) : IsPlain c := by
  refine ⟨?_, ?_, ?_⟩ <;> rintro rfl <;> exact absurd h (by decide)

theorem isPlain_of_isNameChar {c : Char} (h : isNameChar c = true) : IsPlain c := by
  refine ⟨?_, ?_, ?_⟩ <;> rintro rfl <;> exact absurd h (by decide)

theorem openings_trimStart (t : Text) : openings none (Text.trimStart t) = openings none t := by
  obtain ⟨b, hb, ht⟩ := Text.exists_trimStart_append t
  conv_rhs => rw [ht, openings_append fun c hc => isPlain_of_blank (hb c hc)]

theorem openings_takeName {t name rest : Text} (h : takeName t = (name, rest)) :
    openings none t = openings none rest := by
  have hplain : ∀ t, ArePlain (takeName t).1 := by
    intro t
    induction t with
    | nil => exact fun c hc => absurd hc List.not_mem_nil
    | cons c r ih =>
      rw [takeName]
      split
      · rename_i hname
        rw [Bool.and_eq_true] at hname
        exact List.forall_mem_cons.mpr ⟨isPlain_of_isNameChar hname.1, ih⟩
      · exact fun c hc => absurd hc List.not_mem_nil
  have happend := append_takeName t
  rw [← happend, openings_append (hplain t), h]

theorem openings_dropDigits (t : Text) :
    openings none (t.dropWhile Char.isDigit) = openings none t := by
  conv_rhs => rw [← List.takeWhile_append_dropWhile (p := Char.isDigit) (l := t)]
  exact (openings_append (fun c hc => isPlain_of_isDigit (List.mem_takeWhile_imp hc)) _).symm

/-! ### Conditions -/

/-- A sign that holds no bracket and no quote. -/
theorem Sign.openings_eq {sign t rest : Text} (h : Sign sign t rest)
    (hsign : ArePlain sign) : openings none t = openings none rest := by
  rw [← openings_trimStart, h, openings_append hsign]

theorem Sign.openings_bracket {t rest : Text} (h : Sign ['['] t rest) :
    openings none t = rest :: openings none rest := by
  rw [← openings_trimStart, h]
  rfl

theorem Numeral.openings_eq {n : Nat} {t rest : Text} (h : Numeral n (Text.trimStart t) rest) :
    openings none t = openings none rest := by
  rw [h.rest_eq, openings_dropDigits, openings_trimStart]

theorem Standard.Term.IsWritten.openings_eq {a : Term} {t rest : Text} (h : a.IsWritten t rest) :
    openings none t = openings none rest := by
  cases h with
  | named sign read => exact (sign.openings_eq (by decide)).trans (openings_takeName read)
  | text sign | self sign | string sign => exact sign.openings_eq (by decide)
  | literal quotes sign inside =>
    rw [← openings_trimStart, sign]
    exact openings_literal quotes inside _
  | numeral numeral => exact numeral.openings_eq

/-- In a condition no predicate begins. -/
theorem Standard.Expr.IsWritten.openings_eq {level : Level} {e : Expr} {t rest : Text}
    (h : e.IsWritten level t rest) : openings none t = openings none rest := by
  induction h with
  | group opening _ closing ih | not opening _ closing ih =>
    exact ((opening.openings_eq (by decide)).trans ih).trans (closing.openings_eq (by decide))
  | last sign => exact sign.openings_eq (by decide)
  | @position relation _ _ _ _ _ sign comparison numeral =>
    have hcomparison := comparison.openings_eq (by cases relation <;> decide)
    exact ((sign.openings_eq (by decide)).trans hcomparison).trans numeral.openings_eq
  | contains opening first comma second closing | startsWith opening first comma second closing =>
    have hfirst := (opening.openings_eq (by decide)).trans first.openings_eq
    have hsecond := (comma.openings_eq (by decide)).trans second.openings_eq
    exact (hfirst.trans hsecond).trans (closing.openings_eq (by decide))
  | term term => exact term.openings_eq
  | equal left comparison right | differ left comparison right =>
    exact (left.openings_eq.trans (comparison.openings_eq (by decide))).trans right.openings_eq
  | conjunct _ ih | disjunct _ ih => exact ih
  | and _ word _ left right | or _ word _ left right =>
    exact (left.trans (word.sign.openings_eq (by decide))).trans right

end XPath
end CosmeticFilter
