import CosmeticFilter.Css.Reader

/-!
# How the conditions of a compound are read

The first character of a condition decides which reader takes the rest, and only the first condition
of a compound is `*` or a type. The outcomes of `readSimple` are told apart here, once for all that
is said about selectors later.

* `ReadsSimple`, `readSimple_eq_some_iff`: the six ways to read a condition;
* `readSimple_cons_eq_none_iff`: where a compound ends is seen from one character;
* `ReadsConditions`: the conditions of a compound, read one behind the other.
-/

namespace CosmeticFilter
namespace Css

variable {isFirst : Bool} {c : Char} {r t rest : Text} {x : Simple}

theorem startsIdent_cons (hminus : c ≠ '-') (hescape : c ≠ '\\') (u : Text) :
    startsIdent (c :: u) = isIdentStart c := by
  cases u with
  | nil => rfl
  | cons d u =>
    rw [startsIdent, if_neg hminus, beq_eq_false_iff_ne.mpr hescape]
    rfl

/-- No mark of a condition starts a name. -/
theorem not_startsIdent_mark (hc : c ∈ ['*', '.', '#', '[', ':']) (u : Text) :
    startsIdent (c :: u) = false := by
  have hall : (['*', '.', '#', '[', ':'].all fun d => d != '-' && d != '\\' && !isIdentStart d) =
      true := by decide
  have hmark := List.all_eq_true.mp hall c hc
  simp only [Bool.and_eq_true, bne_iff_ne, Bool.not_eq_true'] at hmark
  obtain ⟨⟨hminus, hescape⟩, hstart⟩ := hmark
  rw [startsIdent_cons hminus hescape, hstart]

theorem ne_mark_of_startsIdent (h : startsIdent (c :: r) = true) :
    ∀ d ∈ ['*', '.', '#', '[', ':'], c ≠ d := by
  rintro d hd rfl
  rw [not_startsIdent_mark hd] at h
  cases h

/-! ### One condition -/

/-- The condition is read from the text, and the rest is left. -/
inductive ReadsSimple : Bool → Text → Simple → Text → Prop
  | universal {r : Text} : ReadsSimple true ('*' :: r) .universal r
  | hasClass {isFirst : Bool} {r rest n : Text} :
      readIdent .className r = .ok (n, rest) → ReadsSimple isFirst ('.' :: r) (.hasClass n) rest
  | hasId {isFirst : Bool} {r rest n : Text} :
      readIdent .id r = .ok (n, rest) → ReadsSimple isFirst ('#' :: r) (.hasId n) rest
  | test {isFirst : Bool} {r rest : Text} {a : AttributeTest} :
      readAttribute r = .ok (a, rest) → ReadsSimple isFirst ('[' :: r) (.attribute a) rest
  | pseudo {isFirst : Bool} {r rest : Text} {x : Simple} :
      readPseudo r = .ok (x, rest) → ReadsSimple isFirst (':' :: r) x rest
  | tag {c : Char} {r rest n : Text} :
      startsIdent (c :: r) = true → readIdent .typeName (c :: r) = .ok (n, rest) →
      ReadsSimple true (c :: r) (.tag (Text.lower n)) rest

/-- What a reader has found is one of the conditions. -/
theorem exists_of_map_eq_some {α : Type} {read : Except Error (α × Text)} {f : α → Simple}
    (h : (read.map fun taken => some (f taken.1, taken.2)) = .ok (some (x, rest))) :
    ∃ a, read = .ok (a, rest) ∧ x = f a := by
  obtain ⟨⟨a, rest'⟩, hread, heq⟩ := Outcome.map_eq_ok.mp h
  obtain ⟨rfl, rfl⟩ := Prod.mk.inj (Option.some_inj.mp heq)
  exact ⟨a, hread, rfl⟩

theorem readsSimple_of_readSimple (h : readSimple isFirst t = .ok (some (x, rest))) :
    ReadsSimple isFirst t x rest := by
  cases t with
  | nil => cases h
  | cons c r =>
    rw [readSimple] at h
    split at h
    · rename_i hstar
      obtain ⟨rfl, rfl⟩ := hstar
      obtain ⟨rfl, rfl⟩ := Prod.mk.inj (Option.some_inj.mp (Except.ok.inj h))
      exact .universal
    split at h
    · rename_i hdot
      obtain ⟨n, hread, rfl⟩ := exists_of_map_eq_some h
      exact hdot ▸ .hasClass hread
    split at h
    · rename_i hhash
      obtain ⟨n, hread, rfl⟩ := exists_of_map_eq_some h
      exact hhash ▸ .hasId hread
    split at h
    · rename_i hsquare
      obtain ⟨a, hread, rfl⟩ := exists_of_map_eq_some h
      exact hsquare ▸ .test hread
    split at h
    · rename_i hcolon
      obtain ⟨y, hread, rfl⟩ := exists_of_map_eq_some (f := id) h
      exact hcolon ▸ .pseudo hread
    split at h
    · rename_i hstart
      obtain ⟨rfl, hident⟩ := hstart
      obtain ⟨n, hread, rfl⟩ := exists_of_map_eq_some (f := fun n => .tag (Text.lower n)) h
      exact .tag hident hread
    split at h <;> cases h

theorem ReadsSimple.readSimple_eq (h : ReadsSimple isFirst t x rest) :
    readSimple isFirst t = .ok (some (x, rest)) := by
  cases h with
  | universal => rw [readSimple, if_pos ⟨rfl, rfl⟩]
  | hasClass hread => rw [readSimple, if_neg (by simp), if_pos rfl, hread]; rfl
  | hasId hread => rw [readSimple, if_neg (by simp), if_neg (by simp), if_pos rfl, hread]; rfl
  | test hread =>
    rw [readSimple, if_neg (by simp), if_neg (by simp), if_neg (by simp), if_pos rfl, hread]
    rfl
  | pseudo hread =>
    rw [readSimple, if_neg (by simp), if_neg (by simp), if_neg (by simp), if_neg (by simp),
      if_pos rfl, hread]
    rfl
  | @tag c r rest n hident hread =>
    have hmark := ne_mark_of_startsIdent hident
    rw [readSimple, if_neg fun h => hmark _ (by simp) h.1, if_neg (hmark _ (by simp)),
      if_neg (hmark _ (by simp)), if_neg (hmark _ (by simp)), if_neg (hmark _ (by simp)),
      if_pos ⟨rfl, hident⟩, hread]
    rfl

theorem readSimple_eq_some_iff :
    readSimple isFirst t = .ok (some (x, rest)) ↔ ReadsSimple isFirst t x rest :=
  ⟨readsSimple_of_readSimple, ReadsSimple.readSimple_eq⟩

/-- A compound ends in front of a blank or a combinator, unless the blank is one of those that start
a name and no condition has been read. -/
theorem readSimple_cons_eq_none_iff :
    readSimple isFirst (c :: r) = .ok none ↔
      (Text.isBlank c || isCombinator c) = true ∧ ¬ (isFirst = true ∧ isIdentStart c = true) := by
  have hmap : ∀ {α : Type} {read : Except Error α} {f : α → Simple × Text},
      (read.map fun taken => some (f taken)) ≠ .ok none := by
    intro α read f heq
    obtain ⟨taken, -, hnone⟩ := Outcome.map_eq_ok.mp heq
    cases hnone
  have hends : (Text.isBlank c || isCombinator c) = true →
      ∀ d, (Text.isBlank d || isCombinator d) = false → c ≠ d := by
    rintro hend d hd rfl
    rw [hend] at hd
    cases hd
  constructor
  · intro h
    rw [readSimple] at h
    split at h
    · cases h
    split at h
    · exact absurd h hmap
    split at h
    · exact absurd h hmap
    split at h
    · exact absurd h hmap
    split at h
    · exact absurd h (hmap (f := id))
    split at h
    · exact absurd h hmap
    rename_i hstart
    split at h
    · rename_i hend
      rw [startsIdent_cons (hends hend _ (by decide)) (hends hend _ (by decide))] at hstart
      exact ⟨hend, hstart⟩
    · cases h
  · rintro ⟨hend, hstart⟩
    have hne := hends hend
    rw [readSimple, if_neg fun h => hne _ (by decide) h.1, if_neg (hne _ (by decide)),
      if_neg (hne _ (by decide)), if_neg (hne _ (by decide)), if_neg (hne _ (by decide)),
      startsIdent_cons (hne _ (by decide)) (hne _ (by decide)), if_neg hstart, if_pos hend]

/-- Whether a compound ends here is seen from the next character. -/
theorem readSimple_none_cons {u : Text} (h : readSimple isFirst (c :: u) = .ok none) (v : Text) :
    readSimple isFirst (c :: v) = .ok none :=
  readSimple_cons_eq_none_iff.mpr (readSimple_cons_eq_none_iff.mp h)

/-! ### All conditions of a compound -/

theorem readConditions_of_none (h : readSimple isFirst t = .ok none) :
    readConditions isFirst t = .ok ([], t) := by
  rw [readConditions]
  split
  · rename_i heq
    rw [h] at heq
    exact absurd heq (by simp)
  · rfl
  · rename_i heq
    rw [h] at heq
    exact absurd heq (by simp)

theorem readConditions_of_some (h : readSimple isFirst t = .ok (some (x, rest))) :
    readConditions isFirst t =
      (readConditions false rest).map fun more => (x :: more.1, more.2) := by
  rw [readConditions]
  split
  · rename_i heq
    rw [h] at heq
    exact absurd heq (by simp)
  · rename_i heq
    rw [h] at heq
    exact absurd heq (by simp)
  · rename_i heq
    rw [h] at heq
    obtain ⟨rfl, rfl⟩ := Prod.mk.inj (Option.some_inj.mp (Except.ok.inj heq))
    rfl

theorem readConditions_eq_ok {x : Compound} (h : readConditions isFirst t = .ok (x, rest)) :
    (readSimple isFirst t = .ok none ∧ x = [] ∧ rest = t) ∨
      ∃ y mid more, readSimple isFirst t = .ok (some (y, mid)) ∧
        readConditions false mid = .ok (more, rest) ∧ x = y :: more := by
  cases hsimple : readSimple isFirst t with
  | error e =>
    rw [readConditions] at h
    split at h
    · exact absurd h (by simp)
    · rename_i heq
      rw [hsimple] at heq
      exact absurd heq (by simp)
    · rename_i heq
      rw [hsimple] at heq
      exact absurd heq (by simp)
  | ok taken =>
    cases taken with
    | none =>
      rw [readConditions_of_none hsimple] at h
      obtain ⟨rfl, rfl⟩ := Prod.mk.inj (Except.ok.inj h)
      exact Or.inl ⟨rfl, rfl, rfl⟩
    | some taken =>
      obtain ⟨y, mid⟩ := taken
      rw [readConditions_of_some hsimple] at h
      obtain ⟨⟨more, rest'⟩, hmore, heq⟩ := Outcome.map_eq_ok.mp h
      obtain ⟨rfl, rfl⟩ := Prod.mk.inj heq
      exact Or.inr ⟨y, mid, more, rfl, hmore, rfl⟩

/-- Conditions are read from the text, one behind the other, and the rest is left. -/
inductive ReadsConditions : Bool → Text → Compound → Text → Prop
  | done {isFirst : Bool} {t : Text} :
      readSimple isFirst t = .ok none → ReadsConditions isFirst t [] t
  | more {isFirst : Bool} {t mid rest : Text} {x : Simple} {xs : Compound} :
      readSimple isFirst t = .ok (some (x, mid)) → ReadsConditions false mid xs rest →
      ReadsConditions isFirst t (x :: xs) rest

theorem readsConditions_of_readConditions {isFirst : Bool} {t rest : Text} {x : Compound}
    (h : readConditions isFirst t = .ok (x, rest)) : ReadsConditions isFirst t x rest := by
  rcases readConditions_eq_ok h with ⟨hnone, rfl, rfl⟩ | ⟨y, mid, more, hsome, hmore, rfl⟩
  · exact .done hnone
  · exact .more hsome (readsConditions_of_readConditions hmore)
termination_by t.length
decreasing_by exact length_lt_of_readSimple hsome

theorem ReadsConditions.readConditions_eq {x : Compound} (h : ReadsConditions isFirst t x rest) :
    readConditions isFirst t = .ok (x, rest) := by
  induction h with
  | done hnone => exact readConditions_of_none hnone
  | more hsome _ ih =>
    rw [readConditions_of_some hsome, ih]
    rfl

end Css
end CosmeticFilter
