import CosmeticFilter.Proofs.Css.Names
import CosmeticFilter.Proofs.Extended.Places

/-!
# Where a compound ends

A compound ends in front of a blank or a combinator, but not in front of any one: names, attribute
selectors and arguments may hold some. The reader of selectors reads all of these to know. A reader
that only counts brackets, and knows quotes and backslashes, looks for the first blank or combinator
outside everything. It finds the same end, unless

* a name takes a blank: one outside ASCII, or one behind the digits of an escape. The latter does
  no harm at the end of a compound, where the compound ends in front of the blank as well;
* the square brackets in an argument are not nested, as the reader of selectors counts round
  brackets alone there.

What is read of a compound up to there is the compound.

* `takesBlank`, `NamePlace.isPassed`: the names of which neither is true;
* `Scans`: a text whose start is passed over by the reader that counts brackets;
* `scans_takeIdent`, `scans_readSimple`, `scans_readConditions`: names, conditions and compounds;
* `isPassedArgument_of_round`: arguments without square brackets.
-/

namespace CosmeticFilter
namespace Css

open Nesting (Uncut)

/-- A compound may end in front of the character. -/
def endsCompound (c : Char) : Bool := Text.isBlank c || isCombinator c

/-- A reader that counts brackets passes over the text, and stands outside everything behind it. -/
def IsPassed (t : Text) : Prop := Uncut .roundAndSquare endsCompound .top t .top

instance (t : Text) : Decidable (IsPassed t) :=
  decidable_of_iff (Nesting.cut .roundAndSquare endsCompound .top t = none ∧
      Nesting.top.after .roundAndSquare t = .top)
    ⟨fun h => ⟨h.1, h.2⟩, fun h => ⟨h.1, h.2⟩⟩

/-! ### Names and arguments -/

/-- The escape, which stands behind its backslash, is spelled by digits and a blank. -/
def escapeTakesBlank (t : Text) : Bool :=
  match (t.take 6).takeWhile isHexDigit with
  | [] => false
  | digits => (t.drop digits.length).head?.any Text.isBlank

/-- The name takes a blank, and not as the last character of a compound. -/
def takesBlank : Text → Bool
  | [] => false
  | c :: r =>
    if c = '\\' then
      escapeTakesBlank r && !(takeEscape r).2.head?.all endsCompound ||
        takesBlank (takeEscape r).2
    else isIdentChar c && (Text.isBlank c || takesBlank r)
termination_by t => t.length
decreasing_by
  · have := length_takeEscape_snd_le r
    simp only [List.length_cons]
    omega
  · simp

/-- The argument with its brackets, if there is one, is passed over. -/
def isPassedArgument (t : Text) : Bool :=
  match readArgument t with
  | .ok (some a, _) => decide (IsPassed ('(' :: (a ++ [')'])))
  | _ => true

/-- The name, and an argument behind it, are passed over. What stands in an attribute selector is in
any case. -/
def NamePlace.isPassed (n : NamePlace) : Bool :=
  n.kind == .attributeName || !takesBlank n.text &&
    (n.kind != .pseudoClassName || isPassedArgument n.rest)

variable {p q b r t u mid rest : Text} {c : Char}

theorem takesBlank_of_isPassed {n : NamePlace} (h : n.isPassed = true)
    (hkind : (n.kind == .attributeName) = false) : takesBlank n.text = false := by
  rw [NamePlace.isPassed, hkind, Bool.false_or, Bool.and_eq_true, Bool.not_eq_true'] at h
  exact h.1

theorem isPassedArgument_of_isPassed {n : NamePlace} (h : n.isPassed = true)
    (hkind : n.kind = .pseudoClassName) : isPassedArgument n.rest = true := by
  rw [NamePlace.isPassed, hkind] at h
  exact (Bool.and_eq_true_iff.mp h).2

theorem endsCompound_of_isIdentChar (hc : isIdentChar c = true) (hblank : Text.isBlank c = false) :
    endsCompound c = false := by
  rw [endsCompound, hblank, Bool.false_or, ← Bool.not_eq_true]
  intro hcombinator
  rcases isCombinator_cases hcombinator with rfl | rfl | rfl <;> cases hc

theorem not_isDelimiter_of_endsCompound (hc : endsCompound c = true) :
    Brackets.roundAndSquare.isDelimiter c = false := by
  rw [endsCompound, Bool.or_eq_true] at hc
  rcases hc with hblank | hcombinator
  · exact Nesting.not_isDelimiter_of_isBlank hblank
  · rcases isCombinator_cases hcombinator with rfl | rfl | rfl <;> rfl

theorem ne_backslash_of_endsCompound (hc : endsCompound c = true) : c ≠ '\\' := by
  rintro rfl
  cases hc

theorem isPassed_of_forall
    (h : ∀ c ∈ t, Brackets.roundAndSquare.isDelimiter c = false ∧ endsCompound c = false) :
    IsPassed t := .of_forall h

theorem isPassed_singleton (hc : Brackets.roundAndSquare.isDelimiter c = false)
    (hend : endsCompound c = false) : IsPassed [c] :=
  isPassed_of_forall fun d hd => by rw [List.mem_singleton.mp hd]; exact ⟨hc, hend⟩

theorem isPassed_name (h : ∀ c ∈ t, isIdentChar c = true ∧ Text.isBlank c = false) : IsPassed t :=
  isPassed_of_forall fun c hc => ⟨not_isDelimiter_of_isIdentChar (h c hc).1,
    endsCompound_of_isIdentChar (h c hc).1 (h c hc).2⟩

theorem takesBlank_backslash (h : takesBlank ('\\' :: r) = false) :
    (escapeTakesBlank r = true → ∀ c ∈ (takeEscape r).2.head?, endsCompound c = true) ∧
      takesBlank (takeEscape r).2 = false := by
  rw [takesBlank, if_pos rfl, Bool.or_eq_false_iff, Bool.and_eq_false_imp] at h
  refine ⟨fun hblank => ?_, h.2⟩
  have hall := h.1 hblank
  rwa [Bool.not_eq_false', Option.all_eq_true] at hall

theorem takesBlank_cons (hc : isIdentChar c = true) (h : takesBlank (c :: r) = false) :
    Text.isBlank c = false ∧ takesBlank r = false := by
  rw [takesBlank, if_neg (plain_of_isIdentChar hc).1, hc, Bool.true_and, Bool.or_eq_false_iff] at h
  exact h

/-- Without escapes, a name can only take a blank outside ASCII. -/
theorem takesBlank_of_isPlain (ht : IsPlain t)
    (hblank : ∀ c ∈ t, Text.isBlank c = true → isIdentChar c = false) : takesBlank t = false := by
  induction t with
  | nil => rw [takesBlank]
  | cons c r ih =>
    obtain ⟨hc, hr⟩ := List.forall_mem_cons.mp hblank
    rw [takesBlank, if_neg (ht c (List.mem_cons_self ..)), ih (ht.suffix (List.suffix_cons c r)) hr,
      Bool.or_false, Bool.and_eq_false_imp]
    intro hident
    rw [← Bool.not_eq_true]
    intro hc'
    rw [hc hc'] at hident
    cases hident

/-! ### Texts whose start is passed over -/

/-- The text starts with a part that is passed over. Between it and the rest there may be a blank,
which belongs to an escape; a compound ends there then. -/
structure Scans (t q b rest : Text) : Prop where
  /-- The parts of the text. -/
  eq : t = q ++ (b ++ rest)
  /-- The blank of an escape at the end of a compound. -/
  blank : b = [] ∨
    (∃ c, Text.isBlank c = true ∧ b = [c]) ∧ ∀ c ∈ rest.head?, endsCompound c = true
  /-- No compound ends in the first part. -/
  cut_eq_none : Nesting.cut .roundAndSquare endsCompound .top q = none
  /-- If there is more, the first part is closed, and no backslash waits for a character. -/
  after_eq : b ++ rest ≠ [] → Nesting.top.after .roundAndSquare q = .top

namespace Scans

theorem nil (t : Text) : Scans t [] [] t := ⟨rfl, .inl rfl, rfl, fun _ => rfl⟩

theorem of_isPassed (hp : IsPassed p) (t : Text) : Scans (p ++ t) p [] t :=
  ⟨rfl, .inl rfl, hp.cut_eq_none, fun _ => hp.after_eq⟩

theorem isPassed (h : Scans t q b rest) (hne : b ++ rest ≠ []) : IsPassed q :=
  ⟨h.cut_eq_none, h.after_eq hne⟩

theorem prepend (hp : IsPassed p) (h : Scans t q b rest) : Scans (p ++ t) (p ++ q) b rest := by
  refine ⟨by rw [h.eq, List.append_assoc], h.blank, ?_, fun hne => ?_⟩
  · rw [Nesting.cut_append_eq_none_iff, hp.after_eq]
    exact ⟨hp.cut_eq_none, h.cut_eq_none⟩
  · exact (hp.append (h.isPassed hne)).after_eq

theorem cons (h : Scans t q b rest) (hc : Brackets.roundAndSquare.isDelimiter c = false)
    (hend : endsCompound c = false) : Scans (c :: t) (c :: q) b rest :=
  h.prepend (isPassed_singleton hc hend)

/-- Where no compound ends, no blank was taken. -/
theorem eq_append (h : Scans t q b (c :: r)) (hend : endsCompound c = false) :
    t = q ++ c :: r ∧ IsPassed q := by
  have hb : b = [] := by
    refine h.blank.resolve_right fun hblank => ?_
    rw [hblank.2 c rfl] at hend
    cases hend
  subst hb
  exact ⟨h.eq, h.isPassed (List.cons_ne_nil c r)⟩

end Scans

/-! ### Names -/

theorem takeIdent_nil : takeIdent [] = ([], []) := by rw [takeIdent]

/-- No name starts where a compound ends, as it would start with a blank. -/
theorem takeIdent_of_endsCompound (h : ∀ c ∈ t.head?, endsCompound c = true)
    (hname : takesBlank t = false) : takeIdent t = ([], t) := by
  refine takeIdent_of_head fun c hc => ?_
  obtain ⟨r, rfl⟩ := List.head?_eq_some_iff.mp (Option.mem_def.mp hc)
  have hend := h c hc
  refine ⟨Bool.eq_false_iff.mpr fun hident => ?_, ne_backslash_of_endsCompound hend⟩
  rw [endsCompound_of_isIdentChar hident (takesBlank_cons hident hname).1] at hend
  cases hend

theorem isPassed_digits {d : Char} {ds : Text} (hds : ∀ c ∈ d :: ds, isHexDigit c = true) :
    IsPassed ('\\' :: d :: ds) := by
  refine (Uncut.escape rfl d).append (t := ['\\', d]) (isPassed_name fun c hc => ?_)
  have hdigit := hds c (List.mem_cons_of_mem d hc)
  exact ⟨isIdentChar_of_isHexDigit hdigit, not_blank_of_isHexDigit hdigit⟩

/-- Digits behind a backslash, and the rest of the name. -/
theorem takeIdent_digits {d : Char} {ds n : Text} (hds : ∀ c ∈ d :: ds, isHexDigit c = true)
    (hlength : (d :: ds).length ≤ 6)
    (hq : ∀ c ∈ q.head?, Text.isBlank c = false ∧
      ((d :: ds).length = 6 ∨ isHexDigit c = false)) (hread : takeIdent q = (n, [])) :
    takeIdent ('\\' :: (d :: ds ++ q)) = (charOfCode (hexValue (d :: ds)) :: n, []) := by
  have hnext : (d :: ds).length = 6 ∨ ∀ c ∈ q.head?, isHexDigit c = false := by
    by_cases hsix : (d :: ds).length = 6
    · exact .inl hsix
    · exact .inr fun c hc => (hq c hc).2.resolve_left hsix
  rw [takeIdent_backslash, takeEscape_digits hds hlength hnext,
    dropOneBlank_of_not_blank fun c hc => (hq c hc).1, hread]
  rfl

/-- Digits behind a backslash are passed over with the rest of the name. Where it goes on, no blank
follows them. -/
theorem scans_takeDigits {d : Char} {ds v n : Text} (hds : ∀ c ∈ d :: ds, isHexDigit c = true)
    (hlength : (d :: ds).length ≤ 6)
    (hv : (d :: ds).length = 6 ∨ ∀ c ∈ v.head?, isHexDigit c = false)
    (hnot : ∀ c ∈ v.head?, Text.isBlank c = false) (h : Scans v q b rest)
    (hread : takeIdent q = (n, [])) :
    Scans ('\\' :: (d :: ds ++ v)) ('\\' :: (d :: ds ++ q)) b rest ∧
      takeIdent ('\\' :: (d :: ds ++ q)) = (charOfCode (hexValue (d :: ds)) :: n, []) := by
  refine ⟨h.prepend (isPassed_digits hds), takeIdent_digits hds hlength (fun c hc => ?_) hread⟩
  have hhead : c ∈ v.head? := by
    obtain ⟨q, rfl⟩ := List.head?_eq_some_iff.mp (Option.mem_def.mp hc)
    rw [h.eq]
    rfl
  exact ⟨hnot c hhead, hv.imp id fun hv => hv c hhead⟩

/-- Digits behind a backslash at the end of a compound are passed over, but for the blank behind
them. -/
theorem scans_lastDigits {d e : Char} {ds v : Text} (hds : ∀ c ∈ d :: ds, isHexDigit c = true)
    (hlength : (d :: ds).length ≤ 6) (he : Text.isBlank e = true)
    (hend : ∀ c ∈ v.head?, endsCompound c = true) :
    Scans ('\\' :: (d :: ds ++ e :: v)) ('\\' :: d :: ds) [e] v ∧
      takeIdent ('\\' :: d :: ds) = ([charOfCode (hexValue (d :: ds))], []) := by
  have hpassed := isPassed_digits hds
  refine ⟨⟨by simp, .inr ⟨⟨e, he, rfl⟩, hend⟩, hpassed.cut_eq_none, fun _ => hpassed.after_eq⟩, ?_⟩
  have hread := takeIdent_digits (q := []) hds hlength (fun c hc => absurd hc (by simp))
    takeIdent_nil
  rwa [List.append_nil] at hread

/-- An escape is passed over, but for the blank behind its digits. -/
theorem scans_takeEscape {n : Text} (hname : takesBlank (takeEscape r).2 = false)
    (hblank : escapeTakesBlank r = true → ∀ c ∈ (takeEscape r).2.head?, endsCompound c = true)
    (h : Scans (takeEscape r).2 q b rest) (hread : takeIdent q = (n, []))
    (hrest : takeIdent (takeEscape r).2 = (n, rest)) :
    ∃ q' b', Scans ('\\' :: r) q' b' rest ∧ takeIdent q' = ((takeEscape r).1 :: n, []) := by
  rcases escape_cases r with rfl | ⟨c, u, rfl, hc⟩ | ⟨d, ds, v, rfl, hds, hlength, hv⟩
  · -- the backslash stands at the end of the text
    obtain ⟨rfl, hmore⟩ := List.append_eq_nil_iff.mp h.eq.symm
    obtain ⟨-, rfl⟩ := List.append_eq_nil_iff.mp hmore
    refine ⟨['\\'], [], ⟨rfl, .inl rfl, rfl, fun hne => absurd rfl hne⟩, ?_⟩
    rw [takeIdent_backslash, show takeEscape [] = (replacement, []) from rfl, hread]
    rfl
  · rw [takeEscape_cons hc] at h ⊢
    refine ⟨'\\' :: c :: q, b, h.prepend (p := ['\\', c]) (.escape rfl c), ?_⟩
    rw [takeIdent_backslash, takeEscape_cons hc, hread]
    rfl
  · rw [takeEscape_digits hds hlength hv] at h hname hblank hrest ⊢
    have hspace : escapeTakesBlank (d :: ds ++ v) = v.head?.any Text.isBlank := by
      rw [escapeTakesBlank, takeWhile_digits hds hlength hv]
      simp only [List.drop_left]
    rw [hspace] at hblank
    cases he : v.head?.any Text.isBlank with
    | true =>
      -- the blank is the last character of the name
      obtain ⟨e, hhead, heblank⟩ := (Option.any_eq_true _ _).mp he
      obtain ⟨v, rfl⟩ := List.head?_eq_some_iff.mp hhead
      rw [dropOneBlank, if_pos heblank] at hname hblank hrest
      rw [takeIdent_of_endsCompound (hblank he) hname] at hrest
      obtain ⟨rfl, rfl⟩ := Prod.mk.inj hrest
      exact ⟨_, _, scans_lastDigits hds hlength heblank (hblank he)⟩
    | false =>
      have hnot : ∀ c ∈ v.head?, Text.isBlank c = false := by
        intro c hc
        rw [Option.mem_def.mp hc, Option.any_some] at he
        exact he
      rw [dropOneBlank_of_not_blank hnot] at h
      exact ⟨_, _, scans_takeDigits hds hlength hv hnot h hread⟩

/-- A name is passed over, but for the blank of an escape at its end. -/
theorem scans_takeIdent (h : takesBlank t = false) :
    ∃ q b, Scans t q b (takeIdent t).2 ∧ takeIdent q = ((takeIdent t).1, []) := by
  fun_induction takeIdent t with
  | case1 => exact ⟨[], [], .nil [], takeIdent_nil⟩
  | case2 r ih =>
    obtain ⟨hblank, hname⟩ := takesBlank_backslash h
    obtain ⟨q, b, hscans, hread⟩ := ih hname
    exact scans_takeEscape hname hblank hscans hread rfl
  | case3 c r hc hident ih =>
    obtain ⟨hblank, hname⟩ := takesBlank_cons hident h
    obtain ⟨q, b, hscans, hread⟩ := ih hname
    refine ⟨c :: q, b, hscans.cons (not_isDelimiter_of_isIdentChar hident)
      (endsCompound_of_isIdentChar hident hblank), ?_⟩
    rw [takeIdent_cons hc, if_pos hident, hread]
    rfl
  | case4 c r => exact ⟨[], [], .nil _, takeIdent_nil⟩

theorem scans_readIdent {kind : NameKind} {n : Text} (h : readIdent kind t = .ok (n, rest))
    (hname : takesBlank t = false) :
    ∃ q b, Scans t q b rest ∧ readIdent kind q = .ok (n, []) := by
  obtain ⟨htake, hne⟩ := readIdent_eq_ok.mp h
  obtain ⟨q, b, hscans, hread⟩ := scans_takeIdent hname
  rw [htake] at hscans hread
  exact ⟨q, b, hscans, readIdent_eq_ok.mpr ⟨hread, hne⟩⟩

/-- A minus at the start of an identifier does not stand alone. -/
theorem takeIdent_ne_nil_of_minus {d : Char} (h : startsIdent ('-' :: d :: r) = true) :
    (takeIdent (d :: r)).1 ≠ [] := by
  intro hnil
  by_cases hd : d = '\\'
  · rw [hd, takeIdent_backslash] at hnil
    cases hnil
  rw [startsIdent, if_pos rfl, Bool.or_eq_true, Bool.or_eq_true, beq_iff_eq, beq_iff_eq] at h
  have hident : isIdentChar d = true := by
    rcases h with (hletter | rfl) | hescape
    · rw [isIdentChar, hletter]
      rfl
    · decide
    · exact absurd hescape hd
  rw [takeIdent_cons hd, if_pos hident] at hnil
  cases hnil

/-- A name that starts like an identifier still does without what follows it. -/
theorem startsIdent_of_scans {n : Text} (h : Scans t q b rest) (ht : takeIdent t = (n, rest))
    (hq : takeIdent q = (n, [])) (hne : n ≠ []) (hstart : startsIdent t = true) :
    startsIdent q = true := by
  match q with
  | [] =>
    rw [takeIdent_nil] at hq
    exact absurd (Prod.mk.inj hq).1.symm hne
  | c :: d :: q =>
    rw [h.eq] at hstart
    exact hstart
  | [c] =>
    obtain ⟨r, rfl⟩ : ∃ r, t = c :: r := ⟨_, h.eq⟩
    cases r with
    | nil => exact hstart
    | cons d r =>
      have hmore : b ++ rest = d :: r := (List.cons.inj h.eq).2.symm
      have hescape : c ≠ '\\' := by
        rintro rfl
        exact absurd (h.after_eq (hmore ▸ List.cons_ne_nil d r)) (by decide)
      have hminus : c ≠ '-' := by
        rintro rfl
        rw [takeIdent_cons hescape, if_pos (by decide)] at ht
        rw [takeIdent_cons hescape, if_pos (by decide), takeIdent_nil] at hq
        have hname : '-' :: (takeIdent (d :: r)).1 = ['-'] :=
          (congrArg Prod.fst ht).trans (congrArg Prod.fst hq).symm
        exact takeIdent_ne_nil_of_minus hstart (List.cons.inj hname).2
      rw [startsIdent_cons hminus hescape] at hstart ⊢
      exact hstart

/-! ### Arguments -/

/-- An argument stands in round brackets, or there is none. -/
theorem readArgument_cases {a : Option Text} (h : readArgument t = .ok (a, rest)) :
    (a = none ∧ rest = t) ∨ ∃ x, a = some x ∧ t = '(' :: (x ++ ')' :: rest) ∧
      takeArgument? .top (x ++ ')' :: rest) = some (x, rest) := by
  cases t with
  | nil =>
    obtain ⟨rfl, rfl⟩ := Prod.mk.inj (Except.ok.inj h)
    exact .inl ⟨rfl, rfl⟩
  | cons c r =>
    rw [readArgument] at h
    split at h
    · rename_i hc
      split at h
      · rename_i x u htaken
        obtain ⟨rfl, rfl⟩ := Prod.mk.inj (Except.ok.inj h)
        obtain rfl := Extended.eq_append_of_takeArgument? htaken
        exact .inr ⟨x, rfl, hc ▸ rfl, htaken⟩
      · cases h
    · obtain ⟨rfl, rfl⟩ := Prod.mk.inj (Except.ok.inj h)
      exact .inl ⟨rfl, rfl⟩

/-- Without square brackets, the two readers of brackets do the same. -/
theorem step_roundAndSquare {s : Nesting} (hc : c ≠ '[' ∧ c ≠ ']') :
    s.step .roundAndSquare c = s.step .round c := by
  have hopens : Brackets.roundAndSquare.opens c = Brackets.round.opens c := by
    simp [Brackets.opens, hc.1]
  have hcloses : Brackets.roundAndSquare.closes c = Brackets.round.closes c := by
    simp [Brackets.closes, hc.2]
  unfold Nesting.step
  rw [hopens, hcloses]

/-- A reader that is one bracket ahead stays so, up to the bracket that ends an argument. -/
theorem step_ahead {s : Nesting} (hopen : ¬ (s.isTop = true ∧ c = ')')) :
    Nesting.step .round ⟨s.quote, s.depth + 1, s.escaped⟩ c =
      ⟨(s.step .round c).quote, (s.step .round c).depth + 1, (s.step .round c).escaped⟩ := by
  obtain ⟨quote, depth, escaped⟩ := s
  simp only [Nesting.step, Brackets.opens, Brackets.closes, beq_iff_eq]
  cases escaped with
  | true => rfl
  | false =>
    cases quote with
    | some q =>
      simp only [Bool.false_eq_true, if_false]
      split_ifs <;> rfl
    | none =>
      simp only [Bool.false_eq_true, if_false]
      split_ifs with h1 h2 h3 h4 <;> try rfl
      have hdepth : depth ≠ 0 := by
        rintro rfl
        exact hopen ⟨rfl, h4⟩
      rw [Nat.sub_add_cancel (Nat.pos_of_ne_zero hdepth)]
      rfl

theorem uncut_of_takeArgument? {s : Nesting} {a : Text} (ha : ∀ c ∈ a, c ≠ '[' ∧ c ≠ ']')
    (h : takeArgument? s (a ++ ')' :: rest) = some (a, rest)) :
    Uncut .roundAndSquare endsCompound ⟨s.quote, s.depth + 1, s.escaped⟩ a ⟨none, 1, false⟩ := by
  induction a generalizing s with
  | nil =>
    rw [List.nil_append, takeArgument?] at h
    split at h
    · rename_i hclose
      rw [Nesting.isTop_iff.mp hclose.1]
      exact .nil
    · obtain ⟨_, -, heq⟩ := Option.map_eq_some_iff.mp h
      cases heq
  | cons c a ih =>
    rw [List.cons_append, takeArgument?] at h
    split at h
    · cases h
    · rename_i hopen
      obtain ⟨⟨a', rest'⟩, htail, heq⟩ := Option.map_eq_some_iff.mp h
      obtain ⟨ha', rfl⟩ := Prod.mk.inj heq
      obtain rfl := (List.cons.inj ha').2
      obtain ⟨hc, ha⟩ := List.forall_mem_cons.mp ha
      have hstep := Uncut.inside (b := .roundAndSquare) (p := endsCompound) (c := c)
        (s := ⟨s.quote, s.depth + 1, s.escaped⟩) (by simp [Nesting.isTop])
      rw [step_roundAndSquare hc, step_ahead hopen] at hstep
      exact hstep.append (ih ha htail)

/-- An argument without square brackets is passed over. -/
theorem isPassedArgument_of_round
    (h : ∀ a rest, readArgument t = .ok (some a, rest) → ∀ c ∈ a, c ≠ '[' ∧ c ≠ ']') :
    isPassedArgument t = true := by
  rw [isPassedArgument]
  split
  · rename_i a rest hread
    rcases readArgument_cases hread with ⟨hnone, -⟩ | ⟨a', heq, rfl, htaken⟩
    · cases hnone
    · obtain rfl := Option.some_inj.mp heq
      refine decide_eq_true ?_
      exact (Uncut.delimiter (c := '(') rfl).append (t := ['('])
        ((uncut_of_takeArgument? (h a rest hread) htaken).append (.delimiter (c := ')') rfl))
  · rfl

/-! ### Conditions -/

/-- An attribute selector is passed over, whatever its value holds. -/
theorem isPassed_attribute {content : Text} (h : Passes none none content) :
    IsPassed ('[' :: (content ++ [']'])) :=
  Uncut.append (t := ['[']) (.delimiter rfl) ((h.nesting endsCompound).append (.delimiter rfl))

/-- A name and an argument are passed over. -/
theorem scans_readNamed {isElement : Bool} {x : Simple} (h : readNamed isElement t = .ok (x, rest))
    (hname : takesBlank t = false) (hargument : isPassedArgument (takeIdent t).2 = true) :
    ∃ q b, Scans t q b rest ∧ readNamed isElement q = .ok (x, []) := by
  obtain ⟨name, mid, a, hident, hread, hcondition⟩ := readNamed_eq_ok.mp h
  obtain ⟨q, b, hscans, hname'⟩ := scans_readIdent hident hname
  rcases readArgument_cases hread with ⟨rfl, rfl⟩ | ⟨a, rfl, rfl, htaken⟩
  · exact ⟨q, b, hscans, readNamed_eq_ok.mpr ⟨name, [], none, hname', rfl, hcondition⟩⟩
  · obtain ⟨htake, hne⟩ := readIdent_eq_ok.mp hident
    have hgroup : IsPassed ('(' :: (a ++ [')'])) := by
      rw [htake, isPassedArgument, hread] at hargument
      exact of_decide_eq_true hargument
    obtain ⟨rfl, hpassed⟩ := hscans.eq_append (by decide)
    -- the name is read up to the bracket, whatever stands behind that
    obtain ⟨p, hp, -, hreads⟩ := exists_append_of_takeIdent (q ++ '(' :: (a ++ ')' :: rest))
    rw [htake] at hp hreads
    obtain rfl := List.append_cancel_right hp
    refine ⟨q ++ '(' :: (a ++ [')']), [], ?_, readNamed_eq_ok.mpr ⟨name, _, some a,
      readIdent_eq_ok.mpr ⟨hreads ('(' :: (a ++ [')'])) rfl, hne⟩, ?_, hcondition⟩⟩
    · have happend := Scans.of_isPassed (hpassed.append hgroup) rest
      rwa [List.append_assoc, List.cons_append, List.append_assoc, List.singleton_append]
        at happend
    · rw [readArgument, if_pos rfl, takeArgument?_append htaken]

theorem scans_readPseudo {x : Simple} (h : readPseudo t = .ok (x, rest))
    (hn : (⟨.pseudoClassName, if t.head? = some ':' then t.tail else t⟩ : NamePlace).isPassed =
      true) :
    ∃ q b, Scans t q b rest ∧ readPseudo q = .ok (x, []) := by
  have hname := takesBlank_of_isPassed hn rfl
  have hargument := isPassedArgument_of_isPassed hn rfl
  rw [NamePlace.rest] at hargument
  simp only at hname hargument
  rw [readPseudo_eq] at h
  split at h
  · rename_i hcolon
    obtain ⟨r, rfl⟩ := List.head?_eq_some_iff.mp hcolon
    rw [if_pos hcolon] at hname hargument
    obtain ⟨q, b, hscans, hread⟩ := scans_readNamed h hname hargument
    refine ⟨':' :: q, b, hscans.cons rfl rfl, ?_⟩
    rw [readPseudo_eq, List.head?_cons, if_pos rfl]
    exact hread
  · rename_i hcolon
    rw [if_neg hcolon] at hname hargument
    obtain ⟨q, b, hscans, hread⟩ := scans_readNamed h hname hargument
    refine ⟨q, b, hscans, ?_⟩
    rw [readPseudo_eq, if_neg, hread]
    intro hhead
    obtain ⟨r, rfl⟩ := List.head?_eq_some_iff.mp hhead
    rw [hscans.eq] at hcolon
    exact hcolon rfl

/-- A condition is passed over, but for the blank of an escape at its end. -/
theorem scans_readSimple {isFirst : Bool} {x : Simple}
    (h : readSimple isFirst t = .ok (some (x, rest)))
    (hn : ∀ n ∈ namePlace? t, n.isPassed = true) :
    ∃ q b, Scans t q b rest ∧ readSimple isFirst q = .ok (some (x, [])) := by
  simp only [readSimple_eq_some_iff] at h ⊢
  cases h with
  | universal => exact ⟨['*'], [], .of_isPassed (isPassed_singleton rfl rfl) _, .universal⟩
  | hasClass hread =>
    obtain ⟨q, b, hscans, hread'⟩ :=
      scans_readIdent hread (takesBlank_of_isPassed (hn _ rfl) rfl)
    exact ⟨'.' :: q, b, hscans.cons rfl rfl, .hasClass hread'⟩
  | hasId hread =>
    obtain ⟨q, b, hscans, hread'⟩ :=
      scans_readIdent hread (takesBlank_of_isPassed (hn _ rfl) rfl)
    exact ⟨'#' :: q, b, hscans.cons rfl rfl, .hasId hread'⟩
  | test hread =>
    obtain ⟨content, rfl, hpasses, hreads⟩ := exists_passes_of_readAttribute hread
    have happend := Scans.of_isPassed (isPassed_attribute hpasses) rest
    rw [List.cons_append, List.append_assoc, List.singleton_append] at happend
    exact ⟨_, [], happend, .test (hreads [])⟩
  | pseudo hread =>
    obtain ⟨q, b, hscans, hread'⟩ := scans_readPseudo hread (hn _ rfl)
    exact ⟨':' :: q, b, hscans.cons rfl rfl, .pseudo hread'⟩
  | @tag c r rest n hstart hread =>
    have hmark := ne_mark_of_startsIdent hstart
    have hplace : namePlace? (c :: r) = some ⟨.typeName, c :: r⟩ := by
      rw [namePlace?, if_neg (hmark _ (by simp)), if_neg (hmark _ (by simp)),
        if_neg (hmark _ (by simp)), if_neg (hmark _ (by simp)), if_neg (hmark _ (by simp))]
    obtain ⟨q, b, hscans, hread'⟩ :=
      scans_readIdent hread (takesBlank_of_isPassed (hn _ hplace) rfl)
    obtain ⟨htake, hne⟩ := readIdent_eq_ok.mp hread
    have hstart' := startsIdent_of_scans hscans htake (readIdent_eq_ok.mp hread').1 hne hstart
    cases q with
    | nil => cases hstart'
    | cons d q => exact ⟨d :: q, b, hscans, .tag hstart' hread'⟩

/-! ### Compounds -/

theorem mark_cases (hc : c ∈ ['.', '#', '[', ':']) :
    endsCompound c = false ∧ isIdentChar c = false ∧ c ≠ '\\' ∧ c ≠ '(' := by
  simp only [List.mem_cons, List.not_mem_nil, or_false] at hc
  rcases hc with rfl | rfl | rfl | rfl <;> decide

/-- Another condition starts with a mark. -/
theorem exists_mark_of_readSimple {x : Simple} (h : readSimple false t = .ok (some (x, rest))) :
    ∃ c r, t = c :: r ∧ c ∈ ['.', '#', '[', ':'] := by
  rw [readSimple_eq_some_iff] at h
  cases h with
  | hasClass => exact ⟨'.', _, rfl, by simp⟩
  | hasId => exact ⟨'#', _, rfl, by simp⟩
  | test => exact ⟨'[', _, rfl, by simp⟩
  | pseudo => exact ⟨':', _, rfl, by simp⟩

/-- What follows a compound starts with a blank or a combinator. -/
theorem endsCompound_of_readConditions {isFirst : Bool} {xs : Compound}
    (h : readConditions isFirst t = .ok (xs, rest)) :
    ∀ c ∈ rest.head?, endsCompound c = true := by
  have hread := readsConditions_of_readConditions h
  clear h
  induction hread with
  | done hend =>
    intro c hc
    obtain ⟨r, rfl⟩ := List.head?_eq_some_iff.mp (Option.mem_def.mp hc)
    exact (readSimple_cons_eq_none_iff.mp hend).1
  | more _ _ ih => exact ih

/-- The blank of an escape at the end of a compound may as well be left to what follows. -/
theorem readOn_blank_append {left : List (Combinator × Compound)} {x : Compound}
    (hc : Text.isBlank c = true) (hr : ∀ d ∈ r.head?, endsCompound d = true) :
    readOn left x (c :: r) = readOn left x r := by
  have hcombinator : readCombinator (c :: r) = readCombinator r := by
    unfold readCombinator
    rw [Text.trimStart_cons_of_blank hc]
    cases hstart : Text.trimStart r with
    | nil => rfl
    | cons d u =>
      cases hchar : Combinator.ofChar? d with
      | some k => simp only [hchar]
      | none =>
        -- the next compound starts behind blanks in either case
        have hd := Text.not_blank_of_trimStart hstart
        have hfirst : (c :: r).head? ≠ some d := by
          rintro ⟨⟩
          rw [hc] at hd
          cases hd
        have hfirst' : r.head? ≠ some d := fun hhead => by
          have hend := hr d hhead
          rw [endsCompound, hd, Bool.false_or, ← Combinator.ofChar?_isSome, hchar] at hend
          cases hend
        simp only [hchar, if_neg hfirst, if_neg hfirst']
  unfold readOn
  rw [hcombinator]

theorem Scans.readOn_eq {left : List (Combinator × Compound)} {x : Compound}
    (h : Scans t q b rest) : readOn left x (b ++ rest) = readOn left x rest := by
  rcases h.blank with rfl | ⟨⟨c, hc, rfl⟩, hrest⟩
  · rfl
  · exact readOn_blank_append hc hrest

/-- **The end of a compound.** A compound is passed over, but for the blank of an escape at its end,
and what is read of it up to there are the same conditions. -/
theorem scans_readConditions {isFirst : Bool} {xs : Compound}
    (h : readConditions isFirst t = .ok (xs, rest))
    (hn : ∀ n ∈ namesOfConditions isFirst t, n.isPassed = true) :
    ∃ q b, Scans t q b rest ∧ readConditions isFirst q = .ok (xs, []) := by
  have hread := readsConditions_of_readConditions h
  clear h
  induction hread with
  | done => exact ⟨[], [], .nil _, readConditions_of_none rfl⟩
  | @more isFirst t mid rest x xs hsome hmore ih =>
    rw [namesOfConditions_of_some hsome] at hn
    obtain ⟨q, b, hscans, hread⟩ := scans_readSimple hsome fun n hplace =>
      hn n (List.mem_append_left _ (Option.mem_toList.mpr hplace))
    obtain ⟨q', b', hscans', hread'⟩ := ih fun n hmem => hn n (List.mem_append_right _ hmem)
    cases hmore with
    | done hend =>
      refine ⟨q, b, hscans, ?_⟩
      rw [readConditions_of_some hread, readConditions_of_none rfl]
      rfl
    | @more _ _ mid' _ x' xs' hsome' hmore' =>
      obtain ⟨c, r, rfl, hmark⟩ := exists_mark_of_readSimple hsome'
      obtain ⟨hend, hdetached⟩ := mark_cases hmark
      obtain ⟨rfl, hpassed⟩ := hscans.eq_append hend
      have hhead : ∀ d ∈ q'.head?, d = c := by
        intro d hd
        obtain ⟨u, rfl⟩ := List.head?_eq_some_iff.mp (Option.mem_def.mp hd)
        exact (List.cons.inj hscans'.eq).1.symm
      refine ⟨q ++ q', b', hscans'.prepend hpassed, ?_⟩
      -- the condition ends at the mark of the next one, whatever stands behind the mark
      have hapart : Apart q (c :: r) q' := .inr ⟨fun d hd => by
        rw [hhead d hd]
        exact (Bool.or_eq_false_iff.mp hend).1, fun hnil => absurd hnil (List.cons_ne_nil c r)⟩
      have hdetached' : Detached q' := fun d hd => by
        rw [hhead d hd]
        exact hdetached
      obtain ⟨r', -, hr', hexchange⟩ :=
        readSimple_exchange hapart hdetached' hsome (Nat.le_refl _)
      obtain rfl : r' = [] := List.self_eq_append_left.mp hr'
      rw [readConditions_of_some hexchange, List.nil_append, hread']
      rfl

end Css
end CosmeticFilter
