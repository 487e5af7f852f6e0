import CosmeticFilter.Proofs.StyleSheet.SingleRule

/-!
# Comments in rules

A rule with a comment is refused, but `/*` in a quoted string is no comment. Where the strings are
is decided twice. The reader that cuts rules knows whether a character is escaped: a backslash takes
the next character with it, within strings and outside. The search for comments knows only the
character before: a quote right behind a backslash does not close a string, even if that backslash
is itself escaped, and outside strings every quote opens one, escaped or not. From the first quote
that they take differently on, one of the two is in a string where the other is not.

* `ruleQuote`, `commentQuote`: the quote that is open behind a text, for either reader;
* `CommentBegins`: `/*` stands outside the strings of a reader;
* `hasComment_iff`: what the search for comments finds;
* `readsAlike`, `alikeFrom_iff`: the texts whose quotes both readers take alike;
* `compileRule_comment_iff`: which rules are refused for a comment;
* `not_compileRule_comment_iff`: an escaped backslash at the end of a string.
-/

namespace CosmeticFilter
namespace StyleSheet

variable {s : Nesting} {quote previous : Option Char} {c : Char} {t : Text}

/-! ### Strings -/

/-- The quote that is open behind a text for the reader that cuts rules. -/
def ruleQuote (t : Text) : Option Char := (Nesting.top.after .roundAndSquare t).quote

/-- The quote that is open behind a character for the search for comments, which knows the quote
that was open and the character before. -/
def quoteStep (quote previous : Option Char) (c : Char) : Option Char :=
  match quote with
  | some q => if c = q ∧ previous ≠ some '\\' then none else some q
  | none => if c = '"' ∨ c = '\'' then some c else none

/-- The quote that is open for the search for comments when it has read on. -/
def quoteFrom (quote previous : Option Char) : Text → Option Char
  | [] => quote
  | c :: r => quoteFrom (quoteStep quote previous c) (some c) r

/-- The quote that is open behind a text for the search for comments. -/
def commentQuote (t : Text) : Option Char := quoteFrom none none t

/-- Somewhere in the text stands `/*`, and no quote is open before it. Whether the slash is escaped
does not matter. -/
def CommentBegins (quoteBehind : Text → Option Char) (t : Text) : Prop :=
  ∃ x y, t = x ++ '/' :: '*' :: y ∧ quoteBehind x = none

/-- The quote is one of the two quotation marks. -/
def IsMark (quote : Option Char) : Prop := ∀ q ∈ quote, q = '"' ∨ q = '\''

theorem isMark_none : IsMark none := fun _ h => absurd h (by simp)

theorem isMark_some (h : c = '"' ∨ c = '\'') : IsMark (some c) := by
  rintro q ⟨⟩
  exact h

theorem isMark_quoteStep (h : IsMark quote) : IsMark (quoteStep quote previous c) := by
  unfold quoteStep
  cases quote with
  | some q =>
    by_cases hclose : c = q ∧ previous ≠ some '\\'
    · simp only [if_pos hclose]
      exact isMark_none
    · simp only [if_neg hclose]
      exact h
  | none =>
    by_cases hopen : c = '"' ∨ c = '\''
    · simp only [if_pos hopen]
      exact isMark_some hopen
    · simp only [if_neg hopen]
      exact isMark_none

/-! ### The search for comments -/

/-- A slash neither opens nor closes a string. -/
theorem quoteStep_slash (h : IsMark quote) : quoteStep quote previous '/' = quote := by
  cases quote with
  | none => simp [quoteStep]
  | some q =>
    have hne : '/' ≠ q := by rcases h q rfl with rfl | rfl <;> decide
    simp [quoteStep, hne]

/-- A comment begins at a star behind a slash, outside strings. -/
theorem hasCommentFrom_cons (quote previous : Option Char) (c : Char) (r : Text) :
    hasCommentFrom quote previous (c :: r) =
      (decide (quote = none ∧ previous = some '/' ∧ c = '*') ||
        hasCommentFrom (quoteStep quote previous c) (some c) r) := by
  cases quote with
  | some q => simp [hasCommentFrom, quoteStep]
  | none =>
    rw [hasCommentFrom, quoteStep]
    by_cases hopen : c = '"' ∨ c = '\''
    · have hstar : c ≠ '*' := by rcases hopen with rfl | rfl <;> decide
      simp [hopen, hstar]
    · by_cases hstar : c = '*' ∧ previous = some '/'
      · simp [hstar]
      · simp [hopen, hstar, and_comm]

/-- The search finds a comment whose slash is the character before, or one that is still to come. -/
theorem hasCommentFrom_iff (h : IsMark quote) :
    hasCommentFrom quote previous t = true ↔
      (quote = none ∧ previous = some '/' ∧ t.head? = some '*') ∨
        ∃ x y, t = x ++ '/' :: '*' :: y ∧ quoteFrom quote previous x = none := by
  induction t generalizing quote previous with
  | nil => simp [hasCommentFrom]
  | cons c r ih =>
    rw [hasCommentFrom_cons, Bool.or_eq_true, decide_eq_true_iff, ih (isMark_quoteStep h),
      List.head?_cons, Option.some_inj, Option.some_inj]
    refine or_congr_right ⟨?_, ?_⟩
    · rintro (⟨hquote, rfl, hstar⟩ | ⟨x, y, rfl, hx⟩)
      · obtain ⟨y, rfl⟩ := List.head?_eq_some_iff.mp hstar
        rw [quoteStep_slash h] at hquote
        exact ⟨[], y, rfl, hquote⟩
      · exact ⟨c :: x, y, rfl, hx⟩
    · rintro ⟨x, y, heq, hx⟩
      cases x with
      | nil =>
        obtain ⟨rfl, rfl⟩ := List.cons.inj heq
        exact .inl ⟨(quoteStep_slash h).trans hx, rfl, rfl⟩
      | cons d x =>
        obtain ⟨rfl, rfl⟩ := List.cons.inj heq
        exact .inr ⟨x, y, rfl, hx⟩

theorem hasComment_iff : hasComment t = true ↔ CommentBegins commentQuote t := by
  rw [hasComment, hasCommentFrom_iff isMark_none]
  simp [CommentBegins, commentQuote]

/-! ### The two readers -/

/-- Both readers take the character alike: it is no quote behind a backslash, or it is escaped
exactly if it stands in a string that it would close otherwise. -/
def alikeAt (s : Nesting) (previous : Option Char) (c : Char) : Bool :=
  previous != some '\\' || (c != '"' && c != '\'') ||
    match s.quote with
    | none => !s.escaped
    | some q => c != q || s.escaped

/-- Both readers take every character of the rest of a text alike. -/
def alikeFrom (s : Nesting) (previous : Option Char) : Text → Bool
  | [] => true
  | c :: r => alikeAt s previous c && alikeFrom (s.step .roundAndSquare c) (some c) r

/-- Both readers take every quote of the text alike: behind a backslash, a quote outside strings is
not escaped, and one that could close a string is. -/
def readsAlike (t : Text) : Bool := alikeFrom .top none t

/-- What the character before says about the state of the reader that cuts rules. -/
structure IsBehind (s : Nesting) (previous : Option Char) : Prop where
  /-- A character is escaped only behind a backslash. -/
  previous_of_escaped : s.escaped = true → previous = some '\\'
  /-- Only a quotation mark opens a string. -/
  isMark : IsMark s.quote

theorem isBehind_top : IsBehind .top none := ⟨fun h => absurd h (by decide), isMark_none⟩

/-- The reader that cuts rules passes over escaped characters, and otherwise it does not look at the
character before. -/
theorem quote_step (h : IsMark s.quote) (c : Char) :
    (s.step .roundAndSquare c).quote =
      if s.escaped then s.quote else quoteStep s.quote none c := by
  obtain ⟨quote, depth, escaped⟩ := s
  cases escaped with
  | true => rfl
  | false =>
    cases quote with
    | some q =>
      by_cases hc : c = '\\'
      · subst hc
        have hne : '\\' ≠ q := by rcases h q rfl with rfl | rfl <;> decide
        simp [Nesting.step, quoteStep, hne]
      · by_cases hclose : c = q
        · subst hclose
          simp [Nesting.step, quoteStep, hc]
        · simp [Nesting.step, quoteStep, hc, hclose]
    | none =>
      by_cases hc : c = '\\'
      · subst hc
        rfl
      · by_cases hopen : c = '"' ∨ c = '\''
        · simp [Nesting.step, quoteStep, hc, hopen]
        · simp only [Nesting.step, quoteStep, hc, hopen]
          cases Brackets.roundAndSquare.opens c <;> cases Brackets.roundAndSquare.closes c <;> rfl

/-- A character is escaped behind a backslash that is not. -/
theorem escaped_step (s : Nesting) (c : Char) :
    (s.step .roundAndSquare c).escaped = (!s.escaped && c == '\\') := by
  obtain ⟨quote, depth, escaped⟩ := s
  cases escaped with
  | true => rfl
  | false =>
    by_cases hc : c = '\\'
    · subst hc
      rfl
    · rw [beq_eq_false_iff_ne.mpr hc]
      cases quote with
      | some q =>
        by_cases hclose : c = q
        · subst hclose
          simp [Nesting.step, hc]
        · simp [Nesting.step, hc, hclose]
      | none =>
        simp only [Nesting.step, hc, if_false]
        split_ifs <;> rfl

theorem IsBehind.step (h : IsBehind s previous) (c : Char) :
    IsBehind (s.step .roundAndSquare c) (some c) where
  previous_of_escaped hescaped := by
    rw [escaped_step, Bool.and_eq_true, beq_iff_eq] at hescaped
    rw [hescaped.2]
  isMark := by
    rw [quote_step h.isMark]
    cases s.escaped
    · exact isMark_quoteStep h.isMark
    · exact h.isMark

/-- One character leaves the same quote open for both readers exactly if they take it alike. -/
theorem IsBehind.quote_step_eq_iff (h : IsBehind s previous) (c : Char) :
    quoteStep s.quote previous c = (s.step .roundAndSquare c).quote ↔
      alikeAt s previous c = true := by
  rw [quote_step h.isMark]
  obtain ⟨quote, depth, escaped⟩ := s
  have hmark : ∀ q ∈ quote, q = '"' ∨ q = '\'' := h.isMark
  cases escaped with
  | true =>
    obtain rfl : previous = some '\\' := h.previous_of_escaped rfl
    cases quote with
    | none => simp [quoteStep, alikeAt]
    | some q => simp [quoteStep, alikeAt]
  | false =>
    cases quote with
    | none => simp [quoteStep, alikeAt]
    | some q =>
      by_cases hclose : c = q
      · subst hclose
        have hquote : c = '"' ∨ c = '\'' := hmark c rfl
        by_cases hprevious : previous = some '\\'
        · simp [quoteStep, alikeAt, hprevious]
          exact hquote.resolve_left
        · simp [quoteStep, alikeAt, hprevious]
      · simp [quoteStep, alikeAt, hclose]

/-- A text leaves the same quote open for both readers all along exactly if they take all of its
characters alike. -/
theorem alikeFrom_iff (h : IsBehind s previous) :
    alikeFrom s previous t = true ↔
      ∀ x, x <+: t → quoteFrom s.quote previous x = (s.after .roundAndSquare x).quote := by
  induction t generalizing s previous with
  | nil =>
    refine iff_of_true rfl fun x hx => ?_
    rw [List.prefix_nil.mp hx]
    rfl
  | cons c r ih =>
    rw [alikeFrom, Bool.and_eq_true, ← h.quote_step_eq_iff, ih (h.step c)]
    constructor
    · rintro ⟨hfirst, hlater⟩ x hx
      cases x with
      | nil => rfl
      | cons d x =>
        obtain ⟨rfl, hprefix⟩ := List.cons_prefix_cons.mp hx
        rw [quoteFrom, hfirst, Nesting.after_cons]
        exact hlater x hprefix
    · intro hall
      have hfirst : quoteStep s.quote previous c = (s.step .roundAndSquare c).quote :=
        hall [c] (List.cons_prefix_cons.mpr ⟨rfl, List.nil_prefix⟩)
      refine ⟨hfirst, fun x hx => ?_⟩
      have hlater := hall (c :: x) (List.cons_prefix_cons.mpr ⟨rfl, hx⟩)
      rwa [quoteFrom, hfirst, Nesting.after_cons] at hlater

theorem readsAlike_iff :
    readsAlike t = true ↔ ∀ x, x <+: t → commentQuote x = ruleQuote x :=
  alikeFrom_iff isBehind_top

/-- Readers that have the same quotes open find the same comments. -/
theorem commentBegins_congr {q q' : Text → Option Char} (h : ∀ x, x <+: t → q x = q' x) :
    CommentBegins q t ↔ CommentBegins q' t := by
  refine exists₂_congr fun x y => and_congr_right ?_
  rintro rfl
  rw [h x (List.prefix_append _ _)]

/-! ### Rules -/

variable {cache : Extended.Cache} {r rule x y : Text}

theorem stripRemoval_ne_comment : stripRemoval t ≠ .error (.comment r) := by
  intro h
  unfold stripRemoval at h
  simp only at h
  split at h
  · cases h
  · split_ifs at h
    cases h
  · cases h

theorem readSelector_ne_comment : (readSelector cache t).1 ≠ .error (.comment r) := by
  intro h
  unfold readSelector at h
  split at h <;> cases h

theorem ruleOf_ne_comment {selector block : Text} {marked : Bool} {tree : Extended.Selector} :
    ruleOf rule selector marked tree block ≠ .error (.comment r) := by
  intro h
  unfold ruleOf at h
  split at h
  · cases h
  · simp only at h
    split at h <;> cases h

theorem compileCandidate_ne_comment :
    (compileCandidate cache rule x y).1 ≠ .error (.comment r) := by
  intro h
  unfold compileCandidate at h
  split at h
  · rename_i e hstrip
    obtain rfl := Except.error.inj h
    exact stripRemoval_ne_comment hstrip
  · split_ifs at h
    · cases h
    · split at h
      · rename_i selector marked _ _ _ e cache' hread
        obtain rfl := Except.error.inj h
        exact readSelector_ne_comment (congrArg Prod.fst hread)
      · exact ruleOf_ne_comment h

theorem compileFirst_ne_comment {candidates : List (Text × Text)} :
    (compileFirst cache rule candidates).1 ≠ some (.error (.comment r)) := by
  intro h
  unfold compileFirst at h
  split at h
  · cases h
  · split at h
    · cases h
    · rename_i e cache' hcandidate
      split at h
      · cases h
      · obtain rfl := Except.error.inj (Option.some_inj.mp h)
        exact compileCandidate_ne_comment (congrArg Prod.fst hcandidate)

theorem compileBare_ne_comment : (compileBare cache rule).1 ≠ .error (.comment r) := by
  intro h
  unfold compileBare at h
  split at h
  · rename_i e hstrip
    obtain rfl := Except.error.inj h
    exact stripRemoval_ne_comment hstrip
  · split at h
    · rename_i e cache' hread
      obtain rfl := Except.error.inj h
      exact readSelector_ne_comment (congrArg Prod.fst hread)
    · split_ifs at h
      cases h

/-- A rule that starts with a selector is refused for a comment if the search finds one. -/
theorem exists_compileRule_comment_iff (hne : Text.trim t ≠ [])
    (hblock : (Text.trim t).head? ≠ some '\x7b') (hat : (Text.trim t).head? ≠ some '@') :
    (∃ r, (compileRule cache t).1 = .error (.comment r)) ↔ hasComment (Text.trim t) = true := by
  unfold compileRule checkSupported
  simp only [if_neg hne, if_neg hblock, if_neg hat]
  cases hasComment (Text.trim t) with
  | true => simp
  | false =>
    refine iff_of_false ?_ Bool.false_ne_true
    rintro ⟨r, h⟩
    simp only [if_neg Bool.false_ne_true] at h
    split at h
    · rename_i result cache' hfirst
      obtain rfl : result = .error (.comment r) := h
      exact compileFirst_ne_comment (congrArg Prod.fst hfirst)
    · exact compileBare_ne_comment h

/-- **Rules with comments.** A rule that starts with a selector is refused for a comment exactly if
`/*` stands outside the strings that the search for comments sees. Both readers see the same strings
all along exactly if they take the quotes of the rule alike, and then the rule is refused exactly if
`/*` stands outside the strings that the reader sees that cuts rules. -/
theorem compileRule_comment_iff (hne : Text.trim t ≠ [])
    (hblock : (Text.trim t).head? ≠ some '\x7b') (hat : (Text.trim t).head? ≠ some '@')
    (cache : Extended.Cache) :
    ((∃ r, (compileRule cache t).1 = .error (.comment r)) ↔
        CommentBegins commentQuote (Text.trim t)) ∧
      (readsAlike (Text.trim t) = true ↔
        ∀ x, x <+: Text.trim t → commentQuote x = ruleQuote x) ∧
      (readsAlike (Text.trim t) = true →
        ((∃ r, (compileRule cache t).1 = .error (.comment r)) ↔
          CommentBegins ruleQuote (Text.trim t))) := by
  have hcomment : (∃ r, (compileRule cache t).1 = .error (.comment r)) ↔
      CommentBegins commentQuote (Text.trim t) :=
    (exists_compileRule_comment_iff hne hblock hat).trans hasComment_iff
  exact ⟨hcomment, readsAlike_iff,
    fun h => hcomment.trans (commentBegins_congr (readsAlike_iff.mp h))⟩

/-- A string with an escaped quote, an escaped backslash and `/*` in it, and a comment. -/
def commentedRule : Text := "a[b=\"\\\"/*\\\\ \"] \x7b c: d /* e */ \x7d".toList

/-- Both readers see the same string, and the comment behind it. -/
theorem compileRule_comment_iff_commentedRule :
    Text.trim commentedRule ≠ [] ∧ (Text.trim commentedRule).head? ≠ some '\x7b' ∧
      (Text.trim commentedRule).head? ≠ some '@' ∧ readsAlike (Text.trim commentedRule) = true ∧
      CommentBegins ruleQuote (Text.trim commentedRule) ∧
      ∃ r, (compileRule .empty commentedRule).1 = .error (.comment r) := by
  have hne : Text.trim commentedRule ≠ [] := by decide
  have hblock : (Text.trim commentedRule).head? ≠ some '\x7b' := by decide
  have hat : (Text.trim commentedRule).head? ≠ some '@' := by decide
  have halike : readsAlike (Text.trim commentedRule) = true := by decide
  have hbegins : CommentBegins ruleQuote (Text.trim commentedRule) :=
    ⟨"a[b=\"\\\"/*\\\\ \"] \x7b c: d ".toList, " e */ \x7d".toList, by decide, by decide⟩
  exact ⟨hne, hblock, hat, halike, hbegins,
    ((compileRule_comment_iff hne hblock hat .empty).2.2 halike).mpr hbegins⟩

/-- The string ends in an escaped backslash, so that the search for comments does not see its end:
the comment behind it is not found. -/
theorem not_compileRule_comment_iff :
    ¬ ∀ t : Text, Text.trim t ≠ [] → (Text.trim t).head? ≠ some '\x7b' →
      (Text.trim t).head? ≠ some '@' →
      ((∃ r, (compileRule .empty t).1 = .error (.comment r)) ↔
        CommentBegins ruleQuote (Text.trim t)) := by
  intro h
  have hrule := h "a[b=\"\\\\\"] \x7b c: d /* e */ \x7d".toList (by decide) (by decide) (by decide)
  have hbegins : CommentBegins ruleQuote
      (Text.trim "a[b=\"\\\\\"] \x7b c: d /* e */ \x7d".toList) :=
    ⟨"a[b=\"\\\\\"] \x7b c: d ".toList, " e */ \x7d".toList, by decide, by decide⟩
  have hfound := (exists_compileRule_comment_iff (by decide) (by decide) (by decide)).mp
    (hrule.mpr hbegins)
  exact absurd hfound (by decide)

end StyleSheet
end CosmeticFilter
