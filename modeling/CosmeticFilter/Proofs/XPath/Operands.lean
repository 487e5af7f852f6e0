import CosmeticFilter.Proofs.Text.Cut
import CosmeticFilter.Proofs.XPath.Grammar
import CosmeticFilter.Text.Outcome

/-!
# Reading terms

The reader and the grammar agree on signs, words and numbers, and so on what is compared or turned
into a string. Here they agree to the letter: what is left is what follows.

* `dropLead?_eq_some_iff`, `readSign_eq_ok_iff`, `dropWord?_eq_some_iff`, `takeNumber_eq_iff`:
  signs, words and numbers;
* `exists_term_of_readOperand`, `readOperand_of_isWritten`: terms, both ways.
-/

namespace CosmeticFilter
namespace XPath

open Standard (Term)

/-! ### Signs, words and numbers -/

theorem dropLead?_eq_some_iff {lead t rest : Text} :
    Text.dropLead? lead t = some rest ↔ t = lead ++ rest := by
  induction lead generalizing t with
  | nil => rw [Text.dropLead?, Option.some_inj, List.nil_append]
  | cons a lead ih =>
    cases t with
    | nil => simp [Text.dropLead?]
    | cons c t =>
      rw [Text.dropLead?, List.cons_append, List.cons.injEq, ← ih]
      split
      · rename_i heq
        exact (and_iff_right heq.symm).symm
      · rename_i hne
        simp [Ne.symm hne]

/-- The first character decides whether a sign can stand here. -/
theorem dropLead?_eq_none {a c : Char} {lead r : Text} (h : a ≠ c) :
    Text.dropLead? (a :: lead) (c :: r) = none := by
  rw [Text.dropLead?, if_neg h]

theorem readSign_eq_ok_iff {sign t rest : Text} :
    readSign sign t = .ok rest ↔ Sign sign t rest := by
  rw [Sign, ← dropLead?_eq_some_iff, readSign]
  split <;> simp_all

theorem dropWord?_eq_some_iff {word t rest : Text} :
    dropWord? word (Text.trimStart t) = some rest ↔ Word word t rest := by
  rw [dropWord?, Option.filter_eq_some_iff, dropLead?_eq_some_iff]
  constructor
  · rintro ⟨hsign, hapart⟩
    refine ⟨hsign, fun c hc => ?_⟩
    rw [Option.mem_def.mp hc] at hapart
    simpa [or_assoc] using hapart
  · rintro ⟨hsign, hapart⟩
    refine ⟨hsign, ?_⟩
    cases hhead : rest.head? with
    | none => rfl
    | some c => simpa [or_assoc] using hapart c hhead

theorem takeNumber_eq_iff {n : Nat} {t rest : Text} :
    takeNumber t = (some n, rest) ↔ Numeral n t rest := by
  rw [takeNumber, Prod.mk.injEq, Option.filter_eq_some_iff, decide_eq_true_iff]
  exact ⟨fun h => ⟨h.1.1, h.1.2, h.2.symm⟩, fun h => ⟨⟨h.digits, h.bound⟩, h.rest_eq.symm⟩⟩

/-- A number starts with a digit. -/
theorem Numeral.exists_digit {n : Nat} {t rest : Text} (h : Numeral n t rest) :
    ∃ c r, t = c :: r ∧ c.isDigit = true := by
  have hdigits := h.digits
  cases t with
  | nil => cases hdigits
  | cons c r =>
    refine ⟨c, r, rfl, ?_⟩
    by_contra hc
    rw [List.takeWhile_cons_of_neg hc] at hdigits
    cases hdigits

/-! ### Terms -/

/-- What the reader makes of a term. -/
def Standard.Term.toOperand : Term → Operand
  | .attribute name => .attribute name
  | text => .text
  | self | string => .context
  | literal t => .literal t
  | numeral n => .literal (Text.ofNat n)

theorem exists_term_of_readLiteral {quote : Char} {t r rest : Text} {o : Operand}
    (hquote : quote = '"' ∨ quote = '\'') (ht : Text.trimStart t = quote :: r)
    (h : readLiteral quote r = .ok (o, rest)) :
    ∃ a : Term, a.IsWritten t rest ∧ a.toOperand = o := by
  rw [readLiteral] at h
  split at h
  · rename_i literal rest' hcut
    obtain ⟨rfl, rfl⟩ := Prod.mk.inj (Except.ok.inj h)
    obtain ⟨c, hc, hinside, rfl⟩ := Text.cutFirst_eq_some_iff.mp hcut
    obtain rfl := beq_iff_eq.mp hc
    exact ⟨.literal literal, .literal hquote ht
      fun hmem => beq_eq_false_iff_ne.mp (hinside c hmem) rfl, rfl⟩
  · cases h

theorem readLiteral_append {quote : Char} {literal rest : Text} (h : quote ∉ literal) :
    readLiteral quote (literal ++ quote :: rest) = .ok (.literal literal, rest) := by
  have hcut : Text.cutFirst (· == quote) (literal ++ quote :: rest) = some (literal, rest) :=
    Text.cutFirst_eq_some_iff.mpr ⟨quote, beq_self_eq_true quote,
      fun c hc => beq_eq_false_iff_ne.mpr fun heq => h (heq ▸ hc), rfl⟩
  rw [readLiteral, hcut]

theorem exists_term_of_readOperand {t rest : Text} {o : Operand}
    (h : readOperand t = .ok (o, rest)) : ∃ a : Term, a.IsWritten t rest ∧ a.toOperand = o := by
  rw [readOperand.eq_def] at h
  dsimp only at h
  split at h
  · rename_i r hhead
    rw [readAttribute] at h
    split at h
    · cases h
    · rename_i name rest' hne hread
      obtain ⟨rfl, rfl⟩ := Prod.mk.inj (Except.ok.inj h)
      exact ⟨.attribute name, .named hhead hread fun hnil => hne hnil, rfl⟩
  · split at h
    · rename_i r hlead
      obtain ⟨rfl, rfl⟩ := Prod.mk.inj (Except.ok.inj h)
      exact ⟨.text, .text (dropLead?_eq_some_iff.mp hlead), rfl⟩
    · split at h
      · rename_i r hlead
        obtain ⟨rfl, rfl⟩ := Prod.mk.inj (Except.ok.inj h)
        exact ⟨.string, .string (dropLead?_eq_some_iff.mp hlead), rfl⟩
      · split at h
        · rename_i r hhead
          obtain ⟨rfl, rfl⟩ := Prod.mk.inj (Except.ok.inj h)
          exact ⟨.self, .self hhead, rfl⟩
        · rename_i r hhead
          exact exists_term_of_readLiteral (.inl rfl) hhead h
        · rename_i r hhead
          exact exists_term_of_readLiteral (.inr rfl) hhead h
        · rw [readNumeral] at h
          split at h
          · rename_i n rest' hnumber
            obtain ⟨rfl, rfl⟩ := Prod.mk.inj (Except.ok.inj h)
            exact ⟨.numeral n, .numeral (takeNumber_eq_iff.mp hnumber), rfl⟩
          · cases h

theorem readOperand_of_isWritten {a : Term} {t rest : Text} (h : a.IsWritten t rest) :
    readOperand t = .ok (a.toOperand, rest) := by
  rw [readOperand.eq_def]
  cases h with
  | @named t s name rest sign read ne_nil =>
    rw [sign]
    show readAttribute s = _
    rw [readAttribute, read]
    cases name with
    | nil => exact absurd rfl ne_nil
    | cons c r => rfl
  | text sign =>
    rw [sign]
    rfl
  | self sign =>
    rw [sign]
    rfl
  | string sign =>
    rw [sign]
    rfl
  | @literal t literal rest quote quotes sign inside =>
    rw [sign]
    rcases quotes with rfl | rfl
    · exact readLiteral_append inside
    · exact readLiteral_append inside
  | numeral numeral =>
    have hread := takeNumber_eq_iff.mpr numeral
    obtain ⟨c, r, hhead, hdigit⟩ := numeral.exists_digit
    have hne : ∀ {a : Char}, a.isDigit = false → a ≠ c := fun ha heq => by
      rw [heq, hdigit] at ha
      cases ha
    rw [hhead] at hread ⊢
    have htext : Text.dropLead? "text()".toList (c :: r) = none :=
      dropLead?_eq_none (hne (a := 't') rfl)
    have hstring : Text.dropLead? "string()".toList (c :: r) = none :=
      dropLead?_eq_none (hne (a := 's') rfl)
    dsimp only
    split
    · rename_i heq
      exact absurd (List.cons.inj heq).1.symm (hne rfl)
    · rw [htext, hstring]
      dsimp only
      split
      · rename_i heq
        exact absurd (List.cons.inj heq).1.symm (hne rfl)
      · rename_i heq
        exact absurd (List.cons.inj heq).1.symm (hne rfl)
      · rename_i heq
        exact absurd (List.cons.inj heq).1.symm (hne rfl)
      · rw [readNumeral, hread]
        rfl

end XPath
end CosmeticFilter
