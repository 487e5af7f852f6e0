import CosmeticFilter.Proofs.Css.Alternatives
import CosmeticFilter.Proofs.Css.Brackets
import CosmeticFilter.Proofs.Css.Scope

/-!
# Identifiers

A name is a run of name characters and escapes, and the reader takes such runs for names wherever a
name may stand. An identifier is a run that starts in one of a few ways; a run that does not starts
with a digit, or with a hyphen that is neither followed by another one nor by a letter. There are
two things that the reader takes for a part of a run though they are none: a line break behind a
backslash, and a vertical tab behind the digits of an escape. It looks for white space there, and a
vertical tab is white space, but no blank of a selector.

* `NameRun`, `StartsIdent`, `IsIdent`: runs and identifiers;
* `IsTame`: the text holds neither of the two;
* `nameRun_takeIdent`: what the reader takes is a run;
* `startsLoosely`, `startsIdent_iff_not_startsLoosely`: where a run is no identifier.
-/

namespace CosmeticFilter
namespace Css

/-- The characters that end a line. -/
def lineBreaks : List Char := ['\n', '\r', '\x0c']

/-- The text starts with a run of name characters and escapes, and goes on with the rest. -/
inductive NameRun : Text → Text → Prop where
  /-- The run is over. -/
  | done (rest : Text) : NameRun rest rest
  /-- A letter, a digit, a hyphen, an underscore or a character outside ASCII. -/
  | char {c : Char} {t rest : Text} : isIdentChar c = true → NameRun t rest → NameRun (c :: t) rest
  /-- A backslash and a character that is neither a hexadecimal digit nor a line break. -/
  | escape {c : Char} {t rest : Text} : isHexDigit c = false → c ∉ lineBreaks → NameRun t rest →
      NameRun ('\\' :: c :: t) rest
  /-- A backslash and one to six hexadecimal digits. -/
  | digits {ds t rest : Text} : ds ≠ [] → ds.length ≤ 6 → (∀ d ∈ ds, isHexDigit d = true) →
      NameRun t rest → NameRun ('\\' :: (ds ++ t)) rest
  /-- The same with a blank behind the digits, which belongs to the escape. -/
  | digitsBlank {ds t rest : Text} {b : Char} : ds ≠ [] → ds.length ≤ 6 →
      (∀ d ∈ ds, isHexDigit d = true) → Text.isAsciiBlank b = true → NameRun t rest →
      NameRun ('\\' :: (ds ++ b :: t)) rest
  /-- A backslash at the end of the text. -/
  | last : NameRun ['\\'] []

/-- An identifier can start here: a letter, an underscore, a character outside ASCII or an escape,
or a hyphen and one of these or another hyphen. -/
inductive StartsIdent : Text → Prop where
  /-- With a letter, an underscore or a character outside ASCII. -/
  | letter {c : Char} {t : Text} : isIdentStart c = true → StartsIdent (c :: t)
  /-- With an escape. -/
  | escape {t : Text} : (∀ c ∈ t.head?, c ∉ lineBreaks) → StartsIdent ('\\' :: t)
  /-- With a hyphen and a letter, an underscore or a character outside ASCII. -/
  | hyphenLetter {c : Char} {t : Text} : isIdentStart c = true → StartsIdent ('-' :: c :: t)
  /-- With a hyphen and an escape. -/
  | hyphenEscape {t : Text} : (∀ c ∈ t.head?, c ∉ lineBreaks) → StartsIdent ('-' :: '\\' :: t)
  /-- With two hyphens. -/
  | hyphens {t : Text} : StartsIdent ('-' :: '-' :: t)

/-- The text starts with an identifier, and goes on with the rest. -/
structure IsIdent (t rest : Text) : Prop where
  /-- It starts like one. -/
  start : StartsIdent t
  /-- Up to the rest it is a run. -/
  run : NameRun t rest

/-- The text has no vertical tab, and no line break behind a backslash. -/
def IsTame (t : Text) : Prop := '\x0b' ∉ t ∧ ∀ c ∈ lineBreaks, ¬ ['\\', c] <:+: t

theorem isTame_iff {t : Text} :
    IsTame t ↔ t.contains '\x0b' = false ∧
      (lineBreaks.any fun c => Text.occursIn ['\\', c] t) = false := by
  simp only [IsTame, List.contains_eq_mem, decide_eq_false_iff_not, List.any_eq_false,
    Text.occursIn_iff]

instance (t : Text) : Decidable (IsTame t) := decidable_of_iff _ isTame_iff.symm

variable {r t : Text}

theorem IsTame.of_infix (ht : IsTame t) (h : r <:+: t) : IsTame r :=
  ⟨fun hmem => ht.1 (h.mem hmem), fun c hc hbreak => ht.2 c hc (hbreak.trans h)⟩

theorem IsTame.suffix (ht : IsTame t) (h : r <:+ t) : IsTame r := ht.of_infix h.isInfix

theorem IsTame.tail {c : Char} (ht : IsTame (c :: t)) : IsTame t := ht.suffix (List.suffix_cons c t)

/-- No line break stands behind the backslash. -/
theorem IsTame.not_mem_lineBreaks (ht : IsTame ('\\' :: t)) : ∀ c ∈ t.head?, c ∉ lineBreaks := by
  intro c hc hbreak
  obtain ⟨u, rfl⟩ := List.head?_eq_some_iff.mp hc
  exact ht.2 c hbreak ⟨[], u, rfl⟩

/-! ### Runs -/

/-- White space in a tame text is a blank of the standard, or a character outside ASCII. -/
theorem isAsciiBlank_or_isIdentChar {b : Char} (hb : Text.isBlank b = true) (htab : b ≠ '\x0b') :
    Text.isAsciiBlank b = true ∨ isIdentChar b = true := by
  by_cases hwide : 128 ≤ b.toNat
  · right
    simp [isIdentChar, isIdentStart, hwide]
  · left
    have hne : b.toNat ≠ 11 := fun h => htab (Char.toNat_inj.mp h)
    have hascii : b.toNat = 9 ∨ b.toNat = 10 ∨ b.toNat = 12 ∨ b.toNat = 13 ∨ b.toNat = 32 := by
      simp only [Text.isBlank, Bool.or_eq_true, Bool.and_eq_true, beq_iff_eq, decide_eq_true_eq] at hb
      omega
    have hchar : ∀ d : Char, b.toNat = d.toNat → b = d := fun d h => Char.toNat_inj.mp h
    rcases hascii with h | h | h | h | h
    · rw [hchar '\t' h]; rfl
    · rw [hchar '\n' h]; rfl
    · rw [hchar '\x0c' h]; rfl
    · rw [hchar '\r' h]; rfl
    · rw [hchar ' ' h]; rfl

/-- What an escape leaves is the end of a run that starts with its backslash. -/
theorem NameRun.of_takeEscape {rest : Text} (ht : IsTame ('\\' :: t))
    (h : NameRun (takeEscape t).2 rest) : NameRun ('\\' :: t) rest := by
  rcases escape_cases t with rfl | ⟨c, u, rfl, hc⟩ | ⟨d, ds, v, rfl, hds, hlength, hv⟩
  · cases h
    exact .last
  · rw [takeEscape_cons hc] at h
    exact .escape hc (ht.not_mem_lineBreaks c rfl) h
  · rw [takeEscape_digits hds hlength hv] at h
    have hdigits : ∀ {u : Text}, NameRun u rest → NameRun ('\\' :: (d :: ds ++ u)) rest :=
      NameRun.digits (List.cons_ne_nil _ _) hlength hds
    cases v with
    | nil => exact hdigits h
    | cons b v =>
      cases hb : Text.isBlank b with
      | false =>
        rw [dropOneBlank, hb] at h
        exact hdigits h
      | true =>
        rw [dropOneBlank, if_pos hb] at h
        have htab : b ≠ '\x0b' := by
          rintro rfl
          exact ht.1 (by simp)
        rcases isAsciiBlank_or_isIdentChar hb htab with hblank | hident
        · exact .digitsBlank (List.cons_ne_nil _ _) hlength hds hblank h
        · exact hdigits (.char hident h)

/-- What the reader takes for a name is a run. -/
theorem nameRun_takeIdent (ht : IsTame t) : NameRun t (takeIdent t).2 := by
  fun_induction takeIdent t with
  | case1 => exact .done []
  | case2 r ih =>
    obtain ⟨p, hp, -⟩ := exists_append_of_takeEscape r
    have hrest : (takeEscape r).2 <:+ '\\' :: r := ⟨'\\' :: p, by rw [List.cons_append, ← hp]⟩
    rw [Text.onto_snd]
    exact .of_takeEscape ht (ih (ht.suffix hrest))
  | case3 c r _ hident ih => exact .char hident (ih ht.tail)
  | case4 => exact .done _

/-! ### Beginnings -/

theorem StartsIdent.of_startsIdent (ht : IsTame t) (h : startsIdent t = true) : StartsIdent t := by
  match t with
  | [] => exact absurd h (by simp [startsIdent])
  | [c] => exact .letter h
  | c :: d :: r =>
    rw [startsIdent] at h
    split at h
    · rename_i hc
      subst hc
      rw [Bool.or_eq_true, Bool.or_eq_true, beq_iff_eq, beq_iff_eq] at h
      rcases h with (hletter | rfl) | rfl
      · exact .hyphenLetter hletter
      · exact .hyphens
      · exact .hyphenEscape ht.tail.not_mem_lineBreaks
    · rw [Bool.or_eq_true, beq_iff_eq] at h
      rcases h with rfl | hletter
      · exact .escape ht.not_mem_lineBreaks
      · exact .letter hletter

/-- The text starts with a digit, or with a hyphen that starts no identifier. -/
def startsLoosely : Text → Bool
  | [] => false
  | c :: r => c.isDigit ||
      c == '-' && !r.head?.any fun d => isIdentStart d || d == '-' || d == '\\'

/-- A digit or a hyphen starts no word; but it may start a run. -/
theorem digit_or_hyphen {c : Char} (h : c.isDigit = true ∨ c = '-') :
    isIdentStart c = false ∧ c.toLower.isLower = false ∧ c ≠ '\\' ∧ isIdentChar c = true := by
  have hmem : c ∈ "-0123456789".toList := by
    rcases h with h | rfl
    · exact List.mem_cons_of_mem _ (mem_digits h)
    · decide
  have hchar : ∀ d ∈ "-0123456789".toList, (isIdentStart d || d.toLower.isLower || d == '\\' ||
      !isIdentChar d) = false := Text.eq_false_of_any (by decide)
  have hall := hchar c hmem
  simp only [Bool.or_eq_false_iff, beq_eq_false_iff_ne, Bool.not_eq_false'] at hall
  exact ⟨hall.1.1.1, hall.1.1.2, hall.1.2, hall.2⟩

theorem exists_cons_of_startsLoosely (h : startsLoosely t = true) :
    ∃ c r, t = c :: r ∧ (c.isDigit = true ∨ c = '-') := by
  cases t with
  | nil => cases h
  | cons c r =>
    rw [startsLoosely, Bool.or_eq_true, Bool.and_eq_true, beq_iff_eq] at h
    exact ⟨c, r, rfl, h.imp id And.left⟩

/-- A run is an identifier, unless it starts with a digit or with a hyphen that starts none. -/
theorem startsIdent_iff_not_startsLoosely (ht : IsTame t) (h : (takeIdent t).1 ≠ []) :
    StartsIdent t ↔ startsLoosely t = false := by
  constructor
  · intro hstart
    cases hstart with
    | letter hc =>
      refine Bool.eq_false_iff.mpr fun hloose => ?_
      obtain ⟨c, r, heq, hfirst⟩ := exists_cons_of_startsLoosely hloose
      obtain ⟨rfl, -⟩ := List.cons.inj heq
      rw [(digit_or_hyphen hfirst).1] at hc
      cases hc
    | escape => rfl
    | hyphenLetter hc => simp [startsLoosely, hc]
    | hyphenEscape => rfl
    | hyphens => rfl
  · intro hloose
    cases t with
    | nil => exact absurd (by rw [takeIdent]) h
    | cons c r =>
      by_cases hescape : c = '\\'
      · subst hescape
        exact .escape ht.not_mem_lineBreaks
      have hident : isIdentChar c = true := by
        by_contra hident
        rw [takeIdent_cons hescape, if_neg hident] at h
        exact h rfl
      rw [startsLoosely, Bool.or_eq_false_iff] at hloose
      rw [isIdentChar, hloose.1, Bool.or_false, Bool.or_eq_true, beq_iff_eq] at hident
      rcases hident with hletter | rfl
      · exact .letter hletter
      · cases r with
        | nil => exact absurd hloose.2 (by simp)
        | cons d r =>
          have hd : isIdentStart d = true ∨ d = '-' ∨ d = '\\' := by
            have hany := hloose.2
            simp only [beq_self_eq_true, Bool.true_and, Bool.not_eq_false', List.head?_cons,
              Option.any_some, Bool.or_eq_true, beq_iff_eq] at hany
            rwa [or_assoc] at hany
          rcases hd with hletter | rfl | rfl
          · exact .hyphenLetter hletter
          · exact .hyphens
          · exact .hyphenEscape ht.tail.not_mem_lineBreaks

end Css
end CosmeticFilter
