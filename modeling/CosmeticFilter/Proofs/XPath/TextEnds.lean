import CosmeticFilter.Proofs.Text.BlankCategories
import CosmeticFilter.Proofs.XPath.Reading

/-!
# Texts that differ at their ends

A reader may stop at a blank or look past it, and what it leaves for the next reader starts with the
blanks or without them. So it is not plain that blanks at the end of an expression do not count, nor
that a path is read in the same way whether a bar follows or nothing. But no sign, name or number
ends in a blank or goes on with a bar. So let there be a relation of texts that have the same
characters up to the last one of the first that is no blank, and behind it nothing but blanks or a
bar. Then what succeeds on a text reads the same from any other in this relation, and leaves texts
in this relation.

* `DiffersAtEnd`: relations of texts that differ in this way;
* `DiffersAtEnd.sign`, `DiffersAtEnd.takeName`, `DiffersAtEnd.takeNumber`: signs, names and numbers;
* `Standard.Expr.IsWritten.differsAtEnd`: conditions, by way of the grammar;
* `DiffersAtEnd.readPredicate`: predicates in front of their closing brackets.
-/

namespace CosmeticFilter
namespace XPath

open Standard (Term Expr Level)

/-- Nothing but blanks and bars is told apart: it is no part of a sign, a name or a number. -/
def IsTold (c : Char) : Prop := Text.isBlank c = false ∧ c ≠ '|'

instance (c : Char) : Decidable (IsTold c) := inferInstanceAs (Decidable (_ ∧ _))

/-- Texts in this relation differ by blanks at the end of the first one, and by what the second one
has there: blanks, or a bar and anything behind it. -/
structure DiffersAtEnd (R : Text → Text → Prop) : Prop where
  /-- A character that is no blank stands in both texts, with the same before it. -/
  exists_append : ∀ {s t r : Text} {c : Char}, Text.isBlank c = false → R (s ++ c :: r) t →
    ∃ r', t = s ++ c :: r' ∧ R r r'
  /-- What the second text has more does not start with a character that is told. -/
  exists_told : ∀ {s t : Text} {c : Char}, IsTold c → R s (c :: t) → ∃ r, s = c :: r ∧ R r t
  /-- The relation does not depend on blanks in front. -/
  trimStart : ∀ {s t : Text}, R s t → R (Text.trimStart s) (Text.trimStart t)

/-- A character of a name is told. -/
theorem isTold_of_isNameChar {c : Char} (h : isNameChar c = true) : IsTold c := by
  constructor
  · simp only [isNameChar, Bool.or_eq_true, beq_iff_eq] at h
    rcases h with ((h | rfl) | rfl) | rfl
    · exact Text.not_blank_of_isAlphanumeric h
    all_goals decide
  · rintro rfl
    exact absurd h (by decide)

theorem isTold_of_isDigit {c : Char} (h : c.isDigit = true) : IsTold c := by
  refine ⟨Text.not_blank_of_isDigit h, ?_⟩
  rintro rfl
  exact absurd h (by decide)

namespace DiffersAtEnd

variable {R : Text → Text → Prop} {s t r : Text} {c : Char}

theorem exists_cons (hR : DiffersAtEnd R) (hc : Text.isBlank c = false) (h : R (c :: r) t) :
    ∃ r', t = c :: r' ∧ R r r' :=
  hR.exists_append (s := []) hc h

theorem head?_eq (hR : DiffersAtEnd R) (hc : Text.isBlank c = false) (h : R s t)
    (hs : s.head? = some c) : t.head? = some c := by
  obtain ⟨r, rfl⟩ := List.head?_eq_some_iff.mp hs
  obtain ⟨r', rfl, -⟩ := hR.exists_cons hc h
  rfl

theorem head?_of_told (hR : DiffersAtEnd R) (hc : IsTold c) (h : R s t)
    (ht : t.head? = some c) : s.head? = some c := by
  obtain ⟨r, rfl⟩ := List.head?_eq_some_iff.mp ht
  obtain ⟨r', rfl, -⟩ := hR.exists_told hc h
  rfl

/-! ### Signs, names and numbers -/

theorem append (hR : DiffersAtEnd R) {lead : Text}
    (hlead : lead.getLast?.any Text.isBlank = false) (h : R (lead ++ r) t) :
    ∃ r', t = lead ++ r' ∧ R r r' := by
  rcases List.eq_nil_or_concat lead with rfl | ⟨front, c, rfl⟩
  · exact ⟨t, rfl, h⟩
  · rw [List.concat_eq_append] at h hlead ⊢
    rw [List.getLast?_concat] at hlead
    rw [List.append_assoc] at h
    obtain ⟨r', rfl, hr⟩ := hR.exists_append hlead h
    exact ⟨r', by rw [List.append_assoc]; rfl, hr⟩

theorem append_of_told (hR : DiffersAtEnd R) {lead : Text} (hlead : ∀ c ∈ lead, IsTold c)
    (h : R s (lead ++ t)) : ∃ r, s = lead ++ r ∧ R r t := by
  induction lead generalizing s with
  | nil => exact ⟨s, rfl, h⟩
  | cons c lead ih =>
    obtain ⟨hc, hlead⟩ := List.forall_mem_cons.mp hlead
    obtain ⟨u, rfl, hu⟩ := hR.exists_told hc h
    obtain ⟨r, rfl, hr⟩ := ih hlead hu
    exact ⟨r, rfl, hr⟩

theorem sign (hR : DiffersAtEnd R) {lead : Text} (hlead : lead.getLast?.any Text.isBlank = false)
    (h : R s t) (hs : Sign lead s r) : ∃ r', Sign lead t r' ∧ R r r' := by
  have htrim := hR.trimStart h
  rw [hs] at htrim
  exact hR.append hlead htrim

/-- Behind a word something has to follow that is no blank. -/
theorem word (hR : DiffersAtEnd R) {word : Text} (hword : word.getLast?.any Text.isBlank = false)
    (h : R s t) (hs : Word word s r) (hne : Text.trimStart r ≠ []) :
    ∃ r', Word word t r' ∧ R r r' := by
  obtain ⟨r', hr', hr⟩ := hR.sign hword h hs.sign
  refine ⟨r', ⟨hr', fun c hc => hs.apart c ?_⟩, hr⟩
  -- so both texts go on with the same character, be it a blank or not
  obtain ⟨b, -, hb⟩ := Text.exists_trimStart_append r
  obtain ⟨d, u, hu⟩ := List.exists_cons_of_ne_nil hne
  rw [hb, hu] at hr ⊢
  obtain ⟨u', rfl, -⟩ := hR.exists_append (Text.not_blank_of_trimStart hu) hr
  cases b with
  | nil => exact hc
  | cons a b => exact hc

theorem takeName (hR : DiffersAtEnd R) {name : Text} (h : R s t)
    (hs : XPath.takeName s = (name, r)) : ∃ r', XPath.takeName t = (name, r') ∧ R r r' := by
  -- Whether a name goes on is seen from two characters, both of them told.
  have hgoes : ∀ {c : Char} {s t : Text}, R s t →
      (isNameChar c && !(c == '.' && s.head? == some '.')) =
        (isNameChar c && !(c == '.' && t.head? == some '.')) := by
    intro c s t h
    have hdot : (s.head? == some '.') = (t.head? == some '.') := by
      rw [Bool.eq_iff_iff, beq_iff_eq, beq_iff_eq]
      exact ⟨hR.head?_eq (by decide) h, hR.head?_of_told (by decide) h⟩
    rw [hdot]
  have htold : ∀ {c : Char} {t : Text},
      (isNameChar c && !(c == '.' && t.head? == some '.')) = true → IsTold c := fun hand =>
    isTold_of_isNameChar ((Bool.and_eq_true _ _).mp hand).1
  induction s generalizing t name with
  | nil =>
    obtain ⟨rfl, rfl⟩ := Prod.mk.inj hs
    cases t with
    | nil => exact ⟨[], rfl, h⟩
    | cons d t =>
      refine ⟨d :: t, ?_, h⟩
      rw [XPath.takeName, if_neg fun hd => ?_]
      obtain ⟨s, hs, -⟩ := hR.exists_told (htold hd) h
      exact absurd hs (List.cons_ne_nil d s).symm
  | cons c s ih =>
    rw [XPath.takeName] at hs
    split at hs
    · rename_i hc
      obtain ⟨t, rfl, ht⟩ := hR.exists_cons (htold hc).1 h
      obtain ⟨rfl, rfl⟩ := Prod.mk.inj hs
      obtain ⟨r', hr', hr⟩ := ih ht rfl
      refine ⟨r', ?_, hr⟩
      rw [XPath.takeName, if_pos (hgoes ht ▸ hc), hr']
      rfl
    · rename_i hc
      obtain ⟨rfl, rfl⟩ := Prod.mk.inj hs
      refine ⟨t, ?_, h⟩
      cases t with
      | nil => rfl
      | cons d t =>
        rw [XPath.takeName, if_neg fun hd => hc ?_]
        obtain ⟨s', heq, hs'⟩ := hR.exists_told (htold hd) h
        obtain ⟨rfl, rfl⟩ := List.cons.inj heq
        exact hgoes hs' ▸ hd

/-- Where no digit stands in the one text, none stands in the other. -/
theorem takeWhile_isDigit_eq_nil (hR : DiffersAtEnd R) (h : R s t)
    (hs : ∀ c ∈ s.head?, ¬ c.isDigit = true) :
    t.takeWhile Char.isDigit = [] ∧ t.dropWhile Char.isDigit = t := by
  cases t with
  | nil => exact ⟨rfl, rfl⟩
  | cons d t =>
    have hd : ¬ d.isDigit = true := fun hd =>
      hs d (hR.head?_of_told (isTold_of_isDigit hd) h rfl) hd
    exact ⟨List.takeWhile_cons_of_neg hd, List.dropWhile_cons_of_neg hd⟩

theorem digits (hR : DiffersAtEnd R) (h : R s t) :
    t.takeWhile Char.isDigit = s.takeWhile Char.isDigit ∧
      R (s.dropWhile Char.isDigit) (t.dropWhile Char.isDigit) := by
  induction s generalizing t with
  | nil =>
    obtain ⟨htake, hdrop⟩ := hR.takeWhile_isDigit_eq_nil h fun c hc => nomatch hc
    exact ⟨htake, hdrop.symm ▸ h⟩
  | cons c s ih =>
    by_cases hc : c.isDigit = true
    · obtain ⟨t, rfl, ht⟩ := hR.exists_cons (Text.not_blank_of_isDigit hc) h
      rw [List.takeWhile_cons_of_pos hc, List.takeWhile_cons_of_pos hc,
        List.dropWhile_cons_of_pos hc, List.dropWhile_cons_of_pos hc]
      exact ⟨congrArg (c :: ·) (ih ht).1, (ih ht).2⟩
    · obtain ⟨htake, hdrop⟩ :=
        hR.takeWhile_isDigit_eq_nil h fun d hd => Option.some_inj.mp hd ▸ hc
      rw [List.takeWhile_cons_of_neg hc, List.dropWhile_cons_of_neg hc, hdrop]
      exact ⟨htake, h⟩

theorem takeNumber (hR : DiffersAtEnd R) {n : Option Nat} (h : R s t)
    (hs : XPath.takeNumber s = (n, r)) : ∃ r', XPath.takeNumber t = (n, r') ∧ R r r' := by
  obtain ⟨hdigits, hr⟩ := hR.digits h
  obtain ⟨rfl, rfl⟩ := Prod.mk.inj hs
  exact ⟨t.dropWhile Char.isDigit, by rw [XPath.takeNumber, hdigits], hr⟩

theorem numeral (hR : DiffersAtEnd R) {n : Nat} (h : R s t) (hs : Numeral n s r) :
    ∃ r', Numeral n t r' ∧ R r r' := by
  obtain ⟨r', hr', hr⟩ := hR.takeNumber h (takeNumber_eq_iff.mpr hs)
  exact ⟨r', takeNumber_eq_iff.mp hr', hr⟩

end DiffersAtEnd

/-! ### Conditions -/

theorem Standard.Term.IsWritten.differsAtEnd {R : Text → Text → Prop} {a : Term} {s t r : Text}
    (hs : a.IsWritten s r) (hR : DiffersAtEnd R) (h : R s t) : ∃ r', a.IsWritten t r' ∧ R r r' := by
  cases hs with
  | named sign read ne_nil =>
    obtain ⟨u, hu, h⟩ := hR.sign (by decide) h sign
    obtain ⟨r', hr', hr⟩ := hR.takeName h read
    exact ⟨r', .named hu hr' ne_nil, hr⟩
  | text sign =>
    obtain ⟨r', hr', hr⟩ := hR.sign (by decide) h sign
    exact ⟨r', .text hr', hr⟩
  | self sign =>
    obtain ⟨r', hr', hr⟩ := hR.sign (by decide) h sign
    exact ⟨r', .self hr', hr⟩
  | string sign =>
    obtain ⟨r', hr', hr⟩ := hR.sign (by decide) h sign
    exact ⟨r', .string hr', hr⟩
  | @literal _ literal _ quote quotes sign inside =>
    have hquote : Text.isBlank quote = false := by
      rcases quotes with rfl | rfl <;> decide
    obtain ⟨u, hu, h⟩ := hR.sign (by exact hquote) h sign
    obtain ⟨r', rfl, hr⟩ := hR.exists_append hquote h
    exact ⟨r', .literal quotes hu inside, hr⟩
  | numeral numeral =>
    obtain ⟨r', hr', hr⟩ := hR.numeral (hR.trimStart h) numeral
    exact ⟨r', .numeral hr', hr⟩

/-- A condition is written in both texts. -/
theorem Standard.Expr.IsWritten.differsAtEnd {R : Text → Text → Prop} {level : Level} {e : Expr}
    {s t r : Text} (hs : e.IsWritten level s r) (hR : DiffersAtEnd R) (h : R s t) :
    ∃ r', e.IsWritten level t r' ∧ R r r' := by
  induction hs generalizing t with
  | group opening _ closing ih =>
    obtain ⟨u, hu, h⟩ := hR.sign (by decide) h opening
    obtain ⟨v, hv, h⟩ := ih h
    obtain ⟨r', hr', hr⟩ := hR.sign (by decide) h closing
    exact ⟨r', .group hu hv hr', hr⟩
  | not opening _ closing ih =>
    obtain ⟨u, hu, h⟩ := hR.sign (by decide) h opening
    obtain ⟨v, hv, h⟩ := ih h
    obtain ⟨r', hr', hr⟩ := hR.sign (by decide) h closing
    exact ⟨r', .not hu hv hr', hr⟩
  | last sign =>
    obtain ⟨r', hr', hr⟩ := hR.sign (by decide) h sign
    exact ⟨r', .last hr', hr⟩
  | @position relation _ _ _ _ _ sign comparison numeral =>
    obtain ⟨u, hu, h⟩ := hR.sign (by decide) h sign
    obtain ⟨v, hv, h⟩ := hR.sign (by cases relation <;> decide) h comparison
    obtain ⟨r', hr', hr⟩ := hR.numeral (hR.trimStart h) numeral
    exact ⟨r', .position hu hv hr', hr⟩
  | contains opening first comma second closing =>
    obtain ⟨u, hu, h⟩ := hR.sign (by decide) h opening
    obtain ⟨v, hv, h⟩ := first.differsAtEnd hR h
    obtain ⟨w, hw, h⟩ := hR.sign (by decide) h comma
    obtain ⟨x, hx, h⟩ := second.differsAtEnd hR h
    obtain ⟨r', hr', hr⟩ := hR.sign (by decide) h closing
    exact ⟨r', .contains hu hv hw hx hr', hr⟩
  | startsWith opening first comma second closing =>
    obtain ⟨u, hu, h⟩ := hR.sign (by decide) h opening
    obtain ⟨v, hv, h⟩ := first.differsAtEnd hR h
    obtain ⟨w, hw, h⟩ := hR.sign (by decide) h comma
    obtain ⟨x, hx, h⟩ := second.differsAtEnd hR h
    obtain ⟨r', hr', hr⟩ := hR.sign (by decide) h closing
    exact ⟨r', .startsWith hu hv hw hx hr', hr⟩
  | term term =>
    obtain ⟨r', hr', hr⟩ := term.differsAtEnd hR h
    exact ⟨r', .term hr', hr⟩
  | equal left comparison right =>
    obtain ⟨u, hu, h⟩ := left.differsAtEnd hR h
    obtain ⟨v, hv, h⟩ := hR.sign (by decide) h comparison
    obtain ⟨r', hr', hr⟩ := right.differsAtEnd hR h
    exact ⟨r', .equal hu hv hr', hr⟩
  | differ left comparison right =>
    obtain ⟨u, hu, h⟩ := left.differsAtEnd hR h
    obtain ⟨v, hv, h⟩ := hR.sign (by decide) h comparison
    obtain ⟨r', hr', hr⟩ := right.differsAtEnd hR h
    exact ⟨r', .differ hu hv hr', hr⟩
  | conjunct _ ih =>
    obtain ⟨r', hr', hr⟩ := ih h
    exact ⟨r', .conjunct hr', hr⟩
  | and _ word right ihleft ihright =>
    obtain ⟨u, hu, h⟩ := ihleft h
    obtain ⟨v, hv, h⟩ := hR.word (by decide) h word right.trimStart_ne_nil
    obtain ⟨r', hr', hr⟩ := ihright h
    exact ⟨r', .and hu hv hr', hr⟩
  | disjunct _ ih =>
    obtain ⟨r', hr', hr⟩ := ih h
    exact ⟨r', .disjunct hr', hr⟩
  | or _ word right ihleft ihright =>
    obtain ⟨u, hu, h⟩ := ihleft h
    obtain ⟨v, hv, h⟩ := hR.word (by decide) h word right.trimStart_ne_nil
    obtain ⟨r', hr', hr⟩ := ihright h
    exact ⟨r', .or hu hv hr', hr⟩

/-- A condition in front of its closing bracket is read from both texts. -/
theorem DiffersAtEnd.readDisjunction {R : Text → Text → Prop} (hR : DiffersAtEnd R)
    {s t left u : Text} {p : Predicate} {m n : Nat} (h : R s t) (hs : readDisjunction m s = .ok (p, left))
    (hclosing : Sign [']'] left u) (hn : t.length < n) :
    ∃ left' u', XPath.readDisjunction n t = .ok (p, left') ∧ Sign [']'] left' u' ∧
      R u u' := by
  obtain ⟨e, rest, he, rfl, htrim⟩ := yields_of_readDisjunction hs
  obtain ⟨rest', he', hrest⟩ := he.differsAtEnd hR h
  obtain ⟨u', hu', hu⟩ := hR.sign (by decide) hrest (hclosing.of_trimStart htrim)
  obtain ⟨left', hread, htrim'⟩ := reads_of_isWritten he' (hu'.afterDisjunction (.inr rfl)) hn
  exact ⟨left', u', hread, hu'.of_trimStart htrim'.symm, hu⟩

/-! ### Predicates -/

/-- What follows the closing bracket of a predicate. -/
theorem suffix_of_readPredicate {t left u : Text} {p : Predicate}
    (h : readPredicate t = .ok (p, left)) (hclosing : Sign [']'] left u) : u <:+ t := by
  have htrim : ∀ r, Text.trimStart r <:+ r := fun r => List.dropWhile_suffix _
  have hcondition : ∀ {r : Text} {depth : Nat}, r <:+ t →
      readDisjunction depth r = .ok (p, left) → u <:+ t := by
    intro r depth hr hread
    obtain ⟨e, rest, he, -, heq⟩ := yields_of_readDisjunction hread
    exact ((hclosing.of_trimStart heq).suffix.trans he.suffix).trans hr
  have hbehind : (takeNumber (Text.trimStart t)).2 <:+ t :=
    (List.dropWhile_suffix _).trans (htrim t)
  rw [readPredicate] at h
  split at h
  · dsimp only at h
    split at h
    · obtain ⟨-, rfl⟩ := Prod.mk.inj (Except.ok.inj h)
      exact (hclosing.suffix.trans (htrim _)).trans hbehind
    · exact hcondition (htrim t) h
  · exact hcondition hbehind h

theorem DiffersAtEnd.readPredicate {R : Text → Text → Prop} (hR : DiffersAtEnd R)
    {s t left u : Text} {p : Predicate} (h : R s t)
    (hs : readPredicate s = .ok (p, left)) (hclosing : Sign [']'] left u) :
    ∃ left' u', XPath.readPredicate t = .ok (p, left') ∧ Sign [']'] left' u' ∧
      R u u' := by
  obtain ⟨number, behind, hnumber⟩ :
      ∃ number behind, XPath.takeNumber (Text.trimStart s) = (number, behind) := ⟨_, _, rfl⟩
  obtain ⟨behind', hnumber', hbehind⟩ := hR.takeNumber (hR.trimStart h) hnumber
  rw [XPath.readPredicate] at hs ⊢
  simp only [hnumber] at hs
  simp only [hnumber']
  cases number with
  | none => exact hR.readDisjunction hbehind hs hclosing (Nat.lt_succ_self _)
  | some n =>
    dsimp only at hs ⊢
    split at hs
    · rename_i hhead
      obtain ⟨rfl, rfl⟩ := Prod.mk.inj (Except.ok.inj hs)
      rw [if_pos (hR.head?_eq (by decide) (hR.trimStart hbehind) hhead)]
      obtain ⟨u', hu', hu⟩ := hR.sign (by decide) (hR.trimStart hbehind) hclosing
      exact ⟨_, u', rfl, hu', hu⟩
    · rename_i hhead
      rw [if_neg fun heq => hhead (hR.head?_of_told (by decide) (hR.trimStart hbehind) heq)]
      exact hR.readDisjunction (hR.trimStart h) hs hclosing (Nat.lt_succ_self _)

end XPath
end CosmeticFilter
