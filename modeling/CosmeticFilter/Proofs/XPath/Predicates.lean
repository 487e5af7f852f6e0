import CosmeticFilter.Proofs.XPath.Openings

/-!
# Reading predicates

A predicate that is a number alone stands for a position, and the reader tries for that first. An
expression that starts with a digit is that number alone, or else it does not end behind it; so the
reader does not mistake one for the other. It passes over the digits of a number that is too great,
wherever they lead, so here no predicate may start with such a number.

* `NumbersFit`: no such number stands behind any opening bracket, not even in a string;
* `Standard.Expr.IsWritten.numeral_cases`: expressions that start with a digit;
* `exists_exprs_of_readPredicates`, `readPredicates_of_areWritten`: predicates, both ways;
* `Standard.PredicatesAreWritten.fits`: what is written starts with no such number.
-/

namespace CosmeticFilter
namespace XPath

open Standard (Term Expr Level)

/-- Every number directly behind an opening square bracket is within bounds. -/
def NumbersFit (t : Text) : Prop := ∀ r, '[' :: r <:+ t → NumberFits r

/-- Behind what opens a predicate stands the rest of the text. -/
theorem suffix_of_mem_openings {quote : Option Char} {t r : Text} (h : r ∈ openings quote t) :
    '[' :: r <:+ t := by
  induction t generalizing quote with
  | nil => exact absurd h List.not_mem_nil
  | cons c t ih =>
    have hmore : ∀ {quote}, r ∈ openings quote t → '[' :: r <:+ c :: t := fun hr =>
      (ih hr).trans (List.suffix_cons c t)
    rw [openings.eq_def] at h
    dsimp only at h
    split at h
    · exact hmore h
    · split at h
      · exact hmore h
      · split at h
        · rename_i hbracket
          rcases List.mem_cons.mp h with rfl | h
          · exact hbracket ▸ List.suffix_rfl
          · exact hmore h
        · exact hmore h

theorem NumbersFit.predicatesFit {t : Text} (h : NumbersFit t) : PredicatesFit t :=
  fun r hr => h r (suffix_of_mem_openings hr)

/-- What the reader makes of an expression that is a predicate. -/
def Standard.Expr.toPredicate : Expr → Predicate
  | term (.numeral n) => .position .eq n
  | e => e.toCondition

/-! ### Numbers alone -/

/-- Where a digit stands, there is no sign that starts with something else. -/
theorem Sign.not_isDigit {sign t rest : Text} (h : Sign sign t rest) {c : Char}
    (hhead : (Text.trimStart t).head? = some c)
    (hsign : sign.head?.any (fun a => !a.isDigit) = true) : ¬ c.isDigit = true := by
  obtain ⟨a, ha, hnot⟩ := (Option.any_eq_true _ _).mp hsign
  rw [h.head?_eq (by rintro rfl; cases ha), ha] at hhead
  rw [← Option.some_inj.mp hhead]
  simpa using hnot

/-- A term that starts with a digit is a number. -/
theorem Standard.Term.IsWritten.exists_numeral {a : Term} {t rest : Text} (h : a.IsWritten t rest)
    {c : Char} (hhead : (Text.trimStart t).head? = some c) (hdigit : c.isDigit = true) :
    ∃ n, a = .numeral n ∧ Numeral n (Text.trimStart t) rest := by
  cases h with
  | named sign | text sign | self sign | string sign =>
    exact absurd hdigit (sign.not_isDigit hhead rfl)
  | literal quotes sign =>
    rcases quotes with rfl | rfl <;> exact absurd hdigit (sign.not_isDigit hhead rfl)
  | @numeral n t s numeral => exact ⟨n, rfl, numeral⟩

/-- An expression that starts with a digit is a number alone, or it goes on behind the number. -/
theorem Standard.Expr.IsWritten.numeral_cases {level : Level} {e : Expr} {t rest : Text}
    (h : e.IsWritten level t rest) {c : Char} (hhead : (Text.trimStart t).head? = some c)
    (hdigit : c.isDigit = true) :
    ∃ n s, Numeral n (Text.trimStart t) s ∧
      (e = .term (.numeral n) ∧ rest = s ∨
        (∀ m, e ≠ .term (.numeral m)) ∧ (Text.trimStart s).head? ≠ some ']') := by
  induction h with
  | group sign | not sign | last sign | position sign | contains sign | startsWith sign =>
    exact absurd hdigit (sign.not_isDigit hhead rfl)
  | term term =>
    obtain ⟨n, rfl, hnumeral⟩ := term.exists_numeral hhead hdigit
    exact ⟨n, _, hnumeral, .inl ⟨rfl, rfl⟩⟩
  | equal left comparison | differ left comparison =>
    obtain ⟨n, rfl, hnumeral⟩ := left.exists_numeral hhead hdigit
    refine ⟨n, _, hnumeral, .inr ⟨fun m => by simp, ?_⟩⟩
    rw [comparison.head?_eq (by decide)]
    decide
  | conjunct _ ih | disjunct _ ih => exact ih hhead
  | and _ word _ ih | or _ word _ ih =>
    obtain ⟨n, s, hnumeral, hcases⟩ := ih hhead
    refine ⟨n, s, hnumeral, .inr ⟨fun m => by simp, ?_⟩⟩
    rcases hcases with ⟨-, rfl⟩ | ⟨-, hne⟩
    · rw [word.sign.head?_eq (by decide)]
      decide
    · exact hne

/-- A number at the beginning of an expression is within bounds. -/
theorem Standard.Expr.IsWritten.numberFits {level : Level} {e : Expr} {t rest : Text}
    (h : e.IsWritten level t rest) : NumberFits t := by
  intro n hn
  obtain ⟨c, r, heq⟩ := List.exists_cons_of_ne_nil h.trimStart_ne_nil
  have hdigit : c.isDigit = true := by
    by_contra hc
    rw [heq, List.takeWhile_cons_of_neg hc] at hn
    cases hn
  obtain ⟨m, s, hnumeral, -⟩ := h.numeral_cases (by rw [heq]; rfl) hdigit
  rw [← Option.some_inj.mp (hnumeral.digits.symm.trans hn)]
  exact hnumeral.bound

theorem Standard.Expr.IsWritten.fits_brackets {e : Expr} {t s r u : Text}
    (h : e.IsWritten .disjunction s r) (hopen : Sign ['['] t s) (hclose : Sign [']'] r u) :
    Fits t u := by
  refine ⟨[s], ?_, fun v hv => List.mem_singleton.mp hv ▸ h.numberFits⟩
  rw [hopen.openings_bracket, h.openings_eq, hclose.openings_eq (by decide)]
  rfl

/-! ### One predicate -/

theorem Standard.Expr.toPredicate_eq {e : Expr} (h : ∀ n, e ≠ .term (.numeral n)) :
    e.toPredicate = e.toCondition := by
  cases e with
  | term a =>
    cases a with
    | numeral n => exact absurd rfl (h n)
    | _ => rfl
  | _ => rfl

theorem takeNumber_of_not_digit {t : Text} (h : ∀ c ∈ t.head?, c.isDigit = false) :
    takeNumber t = (none, t) := by
  cases t with
  | nil => rfl
  | cons c r =>
    have hc : ¬ c.isDigit = true := by rw [h c rfl]; decide
    rw [takeNumber, List.takeWhile_cons_of_neg hc, List.dropWhile_cons_of_neg hc]
    rfl

/-- Where a digit stands there is a number, as no number is out of bounds. -/
theorem NumberFits.exists_numeral {t : Text} (h : NumberFits t) {c : Char}
    (hc : c ∈ (Text.trimStart t).head?) (hdigit : c.isDigit = true) :
    ∃ n rest, Numeral n (Text.trimStart t) rest := by
  rw [NumberFits] at h
  obtain ⟨r, heq⟩ := List.head?_eq_some_iff.mp hc
  rw [heq] at h ⊢
  have hread : Text.readNat? ((c :: r).takeWhile Char.isDigit) =
      some (Text.digitsValue ((c :: r).takeWhile Char.isDigit)) := by
    have hall : ((c :: r).takeWhile Char.isDigit).all Char.isDigit = true := List.all_takeWhile
    rw [Text.readNat?, hall, List.takeWhile_cons_of_pos hdigit]
    rfl
  exact ⟨_, _, hread, h _ hread, rfl⟩

/-- A number that stands alone starts with a digit. -/
theorem Standard.Expr.IsWritten.exists_digit {n : Nat} {t rest : Text}
    (h : (Expr.term (.numeral n)).IsWritten .disjunction t rest) :
    ∃ c ∈ (Text.trimStart t).head?, c.isDigit = true := by
  cases h with
  | disjunct h =>
    cases h with
    | conjunct h =>
      cases h with
      | term h =>
        cases h with
        | numeral numeral =>
          obtain ⟨c, r, heq, hdigit⟩ := numeral.exists_digit
          exact ⟨c, by rw [heq]; rfl, hdigit⟩

/-- How a predicate is read behind the blanks: a number with its bracket, or a condition. -/
theorem readPredicate_eq {t : Text} {n : Nat} {rest : Text}
    (h : Numeral n (Text.trimStart t) rest) :
    readPredicate t =
      if (Text.trimStart rest).head? = some ']' then
        .ok (.position .eq n, Text.trimStart rest)
      else readDisjunction ((Text.trimStart t).length + 1) (Text.trimStart t) := by
  rw [readPredicate]
  simp only [takeNumber_eq_iff.mpr h]

theorem readPredicate_eq_of_not_digit {t : Text}
    (h : ∀ c ∈ (Text.trimStart t).head?, c.isDigit = false) :
    readPredicate t = readDisjunction ((Text.trimStart t).length + 1) (Text.trimStart t) := by
  rw [readPredicate]
  simp only [takeNumber_of_not_digit h]

theorem exists_expr_of_readPredicate {t left u : Text} {p : Predicate} (hfit : NumberFits t)
    (h : readPredicate t = .ok (p, left)) (hclosing : Sign [']'] left u) :
    ∃ (e : Expr) (rest : Text),
      e.IsWritten .disjunction t rest ∧ e.toPredicate = p ∧ Sign [']'] rest u := by
  by_cases hdigit : ∃ c ∈ (Text.trimStart t).head?, c.isDigit = true
  · obtain ⟨c, hc, hdigit⟩ := hdigit
    obtain ⟨n, rest, hnumeral⟩ := hfit.exists_numeral hc hdigit
    rw [readPredicate_eq hnumeral] at h
    split at h
    · obtain ⟨rfl, rfl⟩ := Prod.mk.inj (Except.ok.inj h)
      exact ⟨.term (.numeral n), rest, .disjunct (.conjunct (.term (.numeral hnumeral))), rfl,
        hclosing.of_trimStart (Text.trimStart_trimStart rest)⟩
    · rename_i hopen
      obtain ⟨e, behind, he, rfl, htrim⟩ := yields_of_readDisjunction h
      have hwritten := he.of_trimStart (Text.trimStart_trimStart t)
      have hbehind := hclosing.of_trimStart htrim
      refine ⟨e, behind, hwritten, Standard.Expr.toPredicate_eq ?_, hbehind⟩
      obtain ⟨m, s, hm, ⟨-, rfl⟩ | ⟨hne, -⟩⟩ := hwritten.numeral_cases hc hdigit
      · rw [hm.rest_eq.trans hnumeral.rest_eq.symm] at hbehind
        exact absurd (hbehind.head?_eq (by decide)) hopen
      · exact hne
  · have hnot : ∀ c ∈ (Text.trimStart t).head?, c.isDigit = false := fun c hc =>
      Bool.eq_false_iff.mpr fun hd => hdigit ⟨c, hc, hd⟩
    rw [readPredicate_eq_of_not_digit hnot] at h
    obtain ⟨e, behind, he, rfl, htrim⟩ := yields_of_readDisjunction h
    have hwritten := he.of_trimStart (Text.trimStart_trimStart t)
    refine ⟨e, behind, hwritten, Standard.Expr.toPredicate_eq ?_, hclosing.of_trimStart htrim⟩
    rintro n rfl
    exact hdigit hwritten.exists_digit

theorem readPredicate_of_isWritten {e : Expr} {t rest u : Text}
    (h : e.IsWritten .disjunction t rest) (hclosing : Sign [']'] rest u) :
    ∃ left, readPredicate t = .ok (e.toPredicate, left) ∧ Sign [']'] left u := by
  have hcondition : (∀ n, e ≠ .term (.numeral n)) → ∃ left,
      readDisjunction ((Text.trimStart t).length + 1) (Text.trimStart t) =
        .ok (e.toPredicate, left) ∧ Sign [']'] left u := by
    intro hne
    have hends := hclosing.afterDisjunction (.inr rfl)
    obtain ⟨left, hread, htrim⟩ := reads_of_isWritten
      (h.of_trimStart (Text.trimStart_trimStart t).symm) hends (Nat.lt_succ_self _)
    rw [Standard.Expr.toPredicate_eq hne]
    exact ⟨left, hread, hclosing.of_trimStart htrim.symm⟩
  by_cases hdigit : ∃ c ∈ (Text.trimStart t).head?, c.isDigit = true
  · obtain ⟨c, hc, hdigit⟩ := hdigit
    obtain ⟨n, s, hnumeral, ⟨rfl, rfl⟩ | ⟨hne, hopen⟩⟩ := h.numeral_cases hc hdigit
    · have hclose : (Text.trimStart rest).head? = some ']' := hclosing.head?_eq (by decide)
      rw [readPredicate_eq hnumeral, if_pos hclose]
      exact ⟨_, rfl, hclosing.of_trimStart (Text.trimStart_trimStart rest).symm⟩
    · rw [readPredicate_eq hnumeral, if_neg hopen]
      exact hcondition hne
  · have hnot : ∀ c ∈ (Text.trimStart t).head?, c.isDigit = false := fun c hc =>
      Bool.eq_false_iff.mpr fun hd => hdigit ⟨c, hc, hd⟩
    rw [readPredicate_eq_of_not_digit hnot]
    refine hcondition ?_
    rintro n rfl
    exact hdigit h.exists_digit

/-! ### The predicates of a step -/

open Standard (PredicatesAreWritten)

theorem exists_exprs_of_readPredicates {t left : Text} {ps : List Predicate}
    (hfit : PredicatesFit t)
    (h : readPredicates t = .ok (ps, left)) :
    ∃ (es : List Expr) (rest : Text), PredicatesAreWritten es t rest ∧
      es.map Expr.toPredicate = ps ∧ left = Text.trimStart rest := by
  induction hlength : t.length using Nat.strongRecOn generalizing t ps left with
  | _ n ih =>
    subst hlength
    rw [readPredicates] at h
    split at h
    · rename_i r hopen
      obtain ⟨⟨p, behind⟩, hread, h⟩ := Outcome.bind_eq_ok.mp h
      obtain ⟨u, hclose, h⟩ := Outcome.bind_eq_ok.mp h
      dsimp only at h
      split at h
      · rename_i hlt
        obtain ⟨⟨ps', rest⟩, hmore, h⟩ := Outcome.bind_eq_ok.mp h
        obtain ⟨rfl, rfl⟩ := Prod.mk.inj (Except.ok.inj h)
        have hsign : Sign ['['] t r := hopen
        have hnumber : NumberFits r := hfit r (by rw [hsign.openings_bracket]; exact List.mem_cons_self)
        obtain ⟨e, s, he, rfl, hsign'⟩ := exists_expr_of_readPredicate hnumber hread
          (readSign_eq_ok_iff.mp hclose)
        have hfits := he.fits_brackets hsign hsign'
        obtain ⟨es, rest', hes, rfl, rfl⟩ := ih u.length hlt (hfit.of_fits hfits) hmore rfl
        exact ⟨e :: es, rest', .cons hsign he hsign' hes, rfl, rfl⟩
      · cases h
    · obtain ⟨rfl, rfl⟩ := Prod.mk.inj (Except.ok.inj h)
      exact ⟨[], t, .nil, rfl, rfl⟩

theorem Standard.PredicatesAreWritten.fits {es : List Expr} {t rest : Text}
    (h : PredicatesAreWritten es t rest) : Fits t rest := by
  induction h with
  | nil => exact .of_eq rfl
  | cons opening predicate closing _ ih => exact (predicate.fits_brackets opening closing).trans ih

theorem readPredicates_of_areWritten {es : List Expr} {t rest : Text}
    (h : PredicatesAreWritten es t rest) (hrest : (Text.trimStart rest).head? ≠ some '[') :
    readPredicates t = .ok (es.map Expr.toPredicate, Text.trimStart rest) := by
  induction h with
  | @nil t =>
    rw [readPredicates]
    split
    · rename_i hopen
      rw [hopen] at hrest
      exact absurd rfl hrest
    · rfl
  | @cons e es t s r u rest opening predicate closing further ih =>
    obtain ⟨left, hread, hclose⟩ := readPredicate_of_isWritten predicate closing
    have hlt : u.length < t.length := by
      have hopen := opening.length_add_le
      have hclosing := (closing.suffix.trans predicate.suffix).length_le
      rw [List.length_singleton] at hopen
      omega
    rw [readPredicates, opening]
    refine Outcome.bind_eq_ok.mpr ⟨_, hread, Outcome.bind_eq_ok.mpr
      ⟨u, readSign_eq_ok_iff.mpr hclose, ?_⟩⟩
    dsimp only
    rw [if_pos hlt]
    exact Outcome.bind_eq_ok.mpr ⟨_, ih hrest, rfl⟩

end XPath
end CosmeticFilter
