import CosmeticFilter.Proofs.Css.Alternatives
import CosmeticFilter.Proofs.Css.ReadAlike

/-!
# Characters that no selector goes on with

A native selector is complete, or it is not a selector. Behind a complete one, a character that
belongs to no name and is no mark is an error at once: whatever follows it, the whole is no
selector, and blanks in front of the character do not help. This is not seen from the end of the
selector alone. A reader that has come to the end may have stood within a name, and there an escape
may still take a blank, and a name any character beyond ASCII.

* `isForeign`, `StartsForeign`: such a character, at the start of a text but for blanks;
* `Meets`: such a text behind another one that leaves no backslash for the character;
* `Halts`: a reader that has read a text stops in front of what it meets;
* `not_readChain_append`, `not_ofText_append`: a selector or a list that meets such a text;
* `not_ofText_append_star`: neither does a selector go on with `*`.
-/

namespace CosmeticFilter
namespace Css

open Extended (endsInEscape endsInEscape_cons)

/-! ### Foreign characters -/

/-- The character belongs to no name, is no mark and escapes nothing. -/
def isForeign (c : Char) : Bool := !isIdentChar c && !Extended.isMark c && c != '\\'

/-- The text starts with a foreign character, but for blanks. -/
inductive StartsForeign : Text → Prop where
  /-- A foreign character. -/
  | foreign {c : Char} (y : Text) : isForeign c = true → StartsForeign (c :: y)
  /-- A blank in front of it. -/
  | blank {c : Char} {v : Text} : Text.isBlank c = true → StartsForeign v → StartsForeign (c :: v)

variable {ε α : Type} {c : Char} {t u v : Text}

theorem isForeign_iff :
    isForeign c = true ↔ isIdentChar c = false ∧ Extended.isMark c = false ∧ c ≠ '\\' := by
  simp [isForeign, and_assoc]

theorem not_blank_of_isForeign (hc : isForeign c = true) : Text.isBlank c = false := by
  obtain ⟨-, hmark, -⟩ := isForeign_iff.mp hc
  by_contra hblank
  rw [Extended.isMark_of_blank (Bool.not_eq_false _ ▸ hblank)] at hmark
  exact absurd hmark (by simp)

theorem ne_of_isForeign (hc : isForeign c = true) {d : Char} (hd : isForeign d = false) :
    c ≠ d := by
  rintro rfl
  rw [hc] at hd
  exact absurd hd (by simp)

theorem not_isCombinator_of_isForeign (hc : isForeign c = true) : isCombinator c = false := by
  unfold isCombinator
  rw [beq_eq_false_iff_ne.mpr (ne_of_isForeign hc (by decide)),
    beq_eq_false_iff_ne.mpr (ne_of_isForeign hc (by decide)),
    beq_eq_false_iff_ne.mpr (ne_of_isForeign hc (by decide))]
  rfl

theorem readSimple_foreign (hc : isForeign c = true) (isFirst : Bool) (y : Text) :
    readSimple isFirst (c :: y) = .error (.unexpected c) := by
  have hne : ∀ d, isForeign d = false → c ≠ d := fun d hd => ne_of_isForeign hc hd
  have hstart : startsIdent (c :: y) = false := by
    rw [startsIdent_cons (hne _ (by decide)) (hne _ (by decide))]
    obtain ⟨hident, -, -⟩ := isForeign_iff.mp hc
    rw [isIdentChar, Bool.or_eq_false_iff, Bool.or_eq_false_iff] at hident
    exact hident.1.1
  rw [readSimple, if_neg fun h => hne _ (by decide) h.1, if_neg (hne _ (by decide)),
    if_neg (hne _ (by decide)), if_neg (hne _ (by decide)), if_neg (hne _ (by decide)),
    hstart, not_blank_of_isForeign hc, not_isCombinator_of_isForeign hc]
  simp

/-- No selector starts with a foreign character. -/
theorem not_readChain_foreign (hc : isForeign c = true) (left : List (Combinator × Compound))
    (y : Text) (s : Complex) : readChain left (c :: y) ≠ .ok s := by
  intro h
  rw [readChain_eq] at h
  obtain ⟨⟨compound, rest⟩, hcompound, -⟩ := Outcome.bind_eq_ok.mp h
  rcases readConditions_eq_ok (readCompound_eq_ok.mp hcompound).1 with
    ⟨hnone, -⟩ | ⟨_, _, _, hsome, -⟩
  · rw [readSimple_foreign hc] at hnone
    exact absurd hnone (by simp)
  · rw [readSimple_foreign hc] at hsome
    exact absurd hsome (by simp)

namespace StartsForeign

theorem ne_nil (hv : StartsForeign v) : v ≠ [] := by
  cases hv <;> exact List.cons_ne_nil _ _

theorem blank_append (hv : StartsForeign v) (hu : ∀ c ∈ u, Text.isBlank c = true) :
    StartsForeign (u ++ v) := by
  induction u with
  | nil => exact hv
  | cons c u ih =>
    obtain ⟨hc, hu⟩ := List.forall_mem_cons.mp hu
    exact .blank hc (ih hu)

theorem exists_trimStart (hv : StartsForeign v) :
    ∃ c y, Text.trimStart v = c :: y ∧ isForeign c = true := by
  induction hv with
  | foreign y hc => exact ⟨_, y, Text.trimStart_cons_of_not_blank (not_blank_of_isForeign hc) y, hc⟩
  | blank hb _ ih =>
    rw [Text.trimStart_cons_of_blank hb]
    exact ih

theorem trimEnd (hv : StartsForeign v) : StartsForeign (Text.trimEnd v) := by
  induction hv with
  | @foreign c y hc =>
    have hlast : ∀ d ∈ [c].getLast?, Text.isBlank d = false := by
      rintro d ⟨⟩
      exact not_blank_of_isForeign hc
    rw [← List.singleton_append, Text.trimEnd_append_of_last hlast]
    exact .foreign _ hc
  | @blank c v hb _ ih =>
    rw [← List.singleton_append, Text.trimEnd_append ih.ne_nil]
    exact .blank hb ih

theorem not_isHexDigit_head? (hv : StartsForeign v) : ∀ c ∈ v.head?, isHexDigit c = false := by
  intro c hc
  rw [← Bool.not_eq_true]
  intro hdigit
  cases hv with
  | foreign y hforeign =>
    obtain rfl := Option.some_inj.mp hc
    rw [isForeign, isIdentChar_of_isHexDigit hdigit] at hforeign
    exact absurd hforeign (by simp)
  | blank hb _ =>
    obtain rfl := Option.some_inj.mp hc
    rw [not_blank_of_isHexDigit hdigit] at hb
    exact absurd hb (by simp)

theorem dropOneBlank (hv : StartsForeign v) : StartsForeign (Css.dropOneBlank v) := by
  cases hv with
  | foreign y hc =>
    rw [Css.dropOneBlank, if_neg (by rw [not_blank_of_isForeign hc]; exact Bool.false_ne_true)]
    exact .foreign y hc
  | blank hb hv =>
    rw [Css.dropOneBlank, if_pos hb]
    exact hv

/-- A name takes blanks beyond ASCII, but no foreign character. -/
theorem takeIdent (hv : StartsForeign v) : StartsForeign (Css.takeIdent v).2 := by
  induction hv with
  | foreign y hc =>
    obtain ⟨hident, -, hslash⟩ := isForeign_iff.mp hc
    rw [takeIdent_cons hslash, if_neg (by rw [hident]; exact Bool.false_ne_true)]
    exact .foreign y hc
  | blank hb hv ih =>
    rw [takeIdent_cons (ne_backslash_of_isBlank hb)]
    split
    · exact ih
    · exact .blank hb hv

end StartsForeign

/-! ### Names -/

/-- The text `v` starts with a foreign character, but for blanks, and if the text `t` ends in a
backslash that waits for its character, that is a blank. -/
structure Meets (t v : Text) : Prop where
  /-- What follows. -/
  foreign : StartsForeign v
  /-- The seam. -/
  escape : endsInEscape t = true → ∀ c ∈ v.head?, Text.isBlank c = true

theorem Meets.rest {r : Text} (h : Meets t v) (hr : IsRest r t) : Meets r v := by
  refine ⟨h.foreign, fun hescape => h.escape ?_⟩
  by_contra hnot
  rw [hr.escape (Bool.not_eq_true _ ▸ hnot)] at hescape
  exact absurd hescape (by simp)

theorem Meets.tail {r : Text} (h : Meets (c :: r) v) (hc : c ≠ '\\') : Meets r v :=
  h.rest (.cons hc r)

/-- What is left of two texts, where `rest` is left of the first one: the second text is left as it
is, or the first one has been taken whole and the second one is left but for its first blanks. -/
def LeftOf (v rest rest' : Text) : Prop :=
  rest' = rest ++ v ∨ rest = [] ∧ StartsForeign rest'

theorem isRest_of_takeEscape (r : Text) : IsRest (takeEscape r).2 ('\\' :: r) := by
  obtain ⟨r', hr', hrest, -⟩ := takeEscape_exchange (b := []) (w := []) (apart_nil ('\\' :: r) [])
    detached_nil (Nat.zero_le _)
  rw [List.append_nil, List.append_nil] at hrest
  rw [hrest]
  exact hr'

/-- An escape ends with the first text, or takes a blank of the second. -/
theorem takeEscape_meets (h : Meets ('\\' :: t) v) :
    LeftOf v (takeEscape t).2 (takeEscape (t ++ v)).2 := by
  rcases escape_cases t with rfl | ⟨c, u, rfl, hc⟩ | ⟨d, ds, u, rfl, hds, hlength, hu⟩
  · obtain ⟨hv, hescape⟩ := h
    cases hv with
    | foreign y hc =>
      have hblank := hescape rfl _ rfl
      rw [not_blank_of_isForeign hc] at hblank
      exact absurd hblank (by simp)
    | blank hb hv =>
      rw [List.nil_append, takeEscape_cons (by
        rw [← Bool.not_eq_true]
        intro hdigit
        rw [not_blank_of_isHexDigit hdigit] at hb
        exact absurd hb (by simp))]
      exact Or.inr ⟨rfl, hv⟩
  · rw [List.cons_append, takeEscape_cons hc, takeEscape_cons hc]
    exact Or.inl rfl
  · cases u with
    | nil =>
      rw [List.append_nil, takeEscape_digits hds hlength (.inr h.foreign.not_isHexDigit_head?)]
      rw [← List.append_nil (d :: ds), takeEscape_digits hds hlength hu]
      exact Or.inr ⟨rfl, h.foreign.dropOneBlank⟩
    | cons e u =>
      rw [List.append_assoc, takeEscape_digits hds hlength hu,
        takeEscape_digits (u := e :: u ++ v) hds hlength hu, List.cons_append, dropOneBlank,
        dropOneBlank]
      split <;> exact Or.inl rfl

theorem takeIdent_meets (h : Meets t v) : LeftOf v (takeIdent t).2 (takeIdent (t ++ v)).2 := by
  fun_induction takeIdent t with
  | case1 => exact Or.inr ⟨rfl, h.foreign.takeIdent⟩
  | case2 r ih =>
    rw [List.cons_append, takeIdent_backslash, Text.onto_snd, Text.onto_snd]
    rcases takeEscape_meets h with heq | ⟨hnil, hforeign⟩
    · rw [heq]
      exact ih (h.rest (isRest_of_takeEscape r))
    · rw [hnil, takeIdent]
      exact Or.inr ⟨rfl, hforeign.takeIdent⟩
  | case3 c r hc hident ih =>
    rw [List.cons_append, takeIdent_cons hc, if_pos hident]
    exact ih (h.tail hc)
  | case4 c r hc hident =>
    rw [List.cons_append, takeIdent_cons hc, if_neg hident]
    exact Or.inl rfl

/-! ### Conditions -/

/-- A reader that has read a text stops in front of what the text meets, if it reads both. -/
def Halts (read : Text → Except ε (α × Text)) : Prop :=
  ∀ ⦃t v : Text⦄ ⦃x x' : α⦄ ⦃rest rest' : Text⦄, Meets t v → read t = .ok (x, rest) →
    read (t ++ v) = .ok (x', rest') → LeftOf v rest rest'

theorem halts_readIdent (kind : NameKind) : Halts (readIdent kind) := by
  intro t v x x' rest rest' h hread hread'
  have hleft := takeIdent_meets h
  rw [(readIdent_eq_ok.mp hread).1, (readIdent_eq_ok.mp hread').1] at hleft
  exact hleft

theorem halts_readAttribute : Halts readAttribute := by
  intro t v x x' rest rest' _ hread hread'
  obtain ⟨content, rfl, hgroup⟩ := exists_group_of_readAttribute hread
  rw [List.append_assoc, List.cons_append, (hgroup (rest ++ v)).2] at hread'
  exact Or.inl (Prod.mk.inj (Except.ok.inj hread')).2.symm

/-- An argument does not start with a foreign character. -/
theorem StartsForeign.readArgument (hv : StartsForeign v) : Css.readArgument v = .ok (none, v) := by
  have hopen : ∀ c ∈ v.head?, c ≠ '(' := by
    cases hv with
    | foreign y hc =>
      rintro d ⟨⟩
      exact ne_of_isForeign hc (by decide)
    | blank hb hv =>
      rintro d ⟨⟩ rfl
      exact absurd hb (by decide)
  cases v with
  | nil => rfl
  | cons c r => exact readArgument_cons (hopen c rfl) r

theorem readArgument_meets (hv : StartsForeign v) {a a' : Option Text} {rest rest' : Text}
    (hread : readArgument t = .ok (a, rest)) (hread' : readArgument (t ++ v) = .ok (a', rest')) :
    rest' = rest ++ v := by
  cases t with
  | nil =>
    rw [List.nil_append, hv.readArgument] at hread'
    obtain ⟨-, rfl⟩ := Prod.mk.inj (Except.ok.inj hread)
    exact (Prod.mk.inj (Except.ok.inj hread')).2.symm
  | cons c r =>
    by_cases hopen : c = '('
    · rw [List.cons_append, readArgument, if_pos hopen] at hread'
      rw [readArgument, if_pos hopen] at hread
      cases hargument : takeArgument? .top r with
      | none =>
        rw [hargument] at hread
        exact absurd hread (by simp)
      | some taken =>
        rw [hargument] at hread
        obtain ⟨-, rfl⟩ := Prod.mk.inj (Except.ok.inj hread)
        rw [← List.append_nil r] at hargument
        obtain ⟨r', -, -, hrest, hargument'⟩ :=
          takeArgument?_exchange (w := v) hargument (Nat.zero_le _)
        rw [List.append_nil] at hrest
        rw [hargument'] at hread'
        rw [← (Prod.mk.inj (Except.ok.inj hread')).2, hrest]
    · rw [List.cons_append, readArgument_cons hopen] at hread'
      rw [readArgument_cons hopen] at hread
      obtain ⟨-, rfl⟩ := Prod.mk.inj (Except.ok.inj hread)
      exact (Prod.mk.inj (Except.ok.inj hread')).2.symm

theorem halts_readNamed (isElement : Bool) : Halts (readNamed isElement) := by
  intro t v x x' rest rest' h hread hread'
  obtain ⟨name, mid, a, hname, hargument, -⟩ := readNamed_eq_ok.mp hread
  obtain ⟨name', mid', a', hname', hargument', -⟩ := readNamed_eq_ok.mp hread'
  rcases halts_readIdent _ h hname hname' with rfl | ⟨rfl, hforeign⟩
  · exact Or.inl (readArgument_meets h.foreign hargument hargument')
  · rw [hforeign.readArgument] at hargument'
    obtain ⟨-, rfl⟩ := Prod.mk.inj (Except.ok.inj hargument)
    obtain ⟨-, rfl⟩ := Prod.mk.inj (Except.ok.inj hargument')
    exact Or.inr ⟨rfl, hforeign⟩

theorem halts_readPseudo : Halts readPseudo := by
  intro t v x x' rest rest' h hread hread'
  cases t with
  | nil => exact absurd hread (consumes_readPseudo.ne_ok x rest)
  | cons c r =>
    rw [List.cons_append, readPseudo_eq, List.head?_cons, List.tail_cons] at hread'
    rw [readPseudo_eq, List.head?_cons, List.tail_cons] at hread
    split at hread
    · rename_i hcolon
      rw [if_pos hcolon] at hread'
      have hc : c ≠ '\\' := by
        rw [Option.some_inj.mp hcolon]
        decide
      exact halts_readNamed true (h.tail hc) hread hread'
    · rename_i hcolon
      rw [if_neg hcolon, ← List.cons_append] at hread'
      exact halts_readNamed false h hread hread'

/-- A reader behind the first character. -/
theorem Halts.cons {read : Text → Except Error (α × Text)} (hread : Halts read)
    {r rest rest' : Text} {y y' : α} (h : Meets (c :: r) v) (hc : c ≠ '\\')
    (hok : read r = .ok (y, rest)) (hok' : read (r ++ v) = .ok (y', rest')) :
    LeftOf v rest rest' :=
  hread (h.tail hc) hok hok'

theorem readSimple_meets {isFirst : Bool} {x x' : Simple} {rest rest' : Text} (h : Meets t v)
    (hok : readSimple isFirst t = .ok (some (x, rest)))
    (hok' : readSimple isFirst (t ++ v) = .ok (some (x', rest'))) : LeftOf v rest rest' := by
  have hread' := readsSimple_of_readSimple hok'
  -- the first character is the same in both texts, and with it the reader
  cases readsSimple_of_readSimple hok with
  | universal =>
    cases hread' with
    | universal => exact Or.inl rfl
    | tag hstart => exact absurd hstart (by simp [not_startsIdent_mark])
  | hasClass hn =>
    cases hread' with
    | hasClass hn' => exact (halts_readIdent _).cons h (by decide) hn hn'
    | tag hstart => exact absurd hstart (by simp [not_startsIdent_mark])
  | hasId hn =>
    cases hread' with
    | hasId hn' => exact (halts_readIdent _).cons h (by decide) hn hn'
    | tag hstart => exact absurd hstart (by simp [not_startsIdent_mark])
  | test ha =>
    cases hread' with
    | test ha' => exact halts_readAttribute.cons h (by decide) ha ha'
    | tag hstart => exact absurd hstart (by simp [not_startsIdent_mark])
  | pseudo hy =>
    cases hread' with
    | pseudo hy' => exact halts_readPseudo.cons h (by decide) hy hy'
    | tag hstart => exact absurd hstart (by simp [not_startsIdent_mark])
  | tag hstart hn =>
    cases hread' with
    | tag _ hn' => exact halts_readIdent _ h hn hn'
    | _ => exact absurd hstart (by simp [not_startsIdent_mark])

/-! ### Compounds -/

/-- Conditions do not start with a foreign character, so there is a blank in front of it. -/
theorem readConditions_foreign (hv : StartsForeign v) {x : Compound} {rest : Text}
    (h : readConditions false v = .ok (x, rest)) :
    rest = v ∧ ∀ c ∈ v.head?, Text.isBlank c = true := by
  cases hv with
  | foreign y hc =>
    rcases readConditions_eq_ok h with ⟨hnone, -⟩ | ⟨_, _, _, hsome, -⟩
    · rw [readSimple_foreign hc] at hnone
      exact absurd hnone (by simp)
    · rw [readSimple_foreign hc] at hsome
      exact absurd hsome (by simp)
  | @blank c y hb hv =>
    have hnone : readSimple false (c :: y) = .ok none :=
      readSimple_cons_eq_none_iff.mpr ⟨by rw [hb, Bool.true_or], fun h => Bool.false_ne_true h.1⟩
    rw [readConditions_of_none hnone] at h
    refine ⟨(Prod.mk.inj (Except.ok.inj h)).2.symm, ?_⟩
    rintro d ⟨⟩
    exact hb

/-- A compound that has been read is read as before, or it has come to its end, and a blank
follows. -/
theorem readConditions_meets {isFirst : Bool} {x x' : Compound} {rest rest' : Text}
    (h : Meets t v) (hfirst : isFirst = true → t ≠ [])
    (hok : readConditions isFirst t = .ok (x, rest))
    (hok' : readConditions isFirst (t ++ v) = .ok (x', rest')) :
    rest ≠ [] ∧ rest' = rest ++ v ∨
      rest = [] ∧ StartsForeign rest' ∧ ∀ c ∈ rest'.head?, Text.isBlank c = true := by
  -- at the end of the first text
  have hend : ∀ {w : Text} {y : Compound}, StartsForeign w →
      readConditions false w = .ok (y, rest') →
      StartsForeign rest' ∧ ∀ c ∈ rest'.head?, Text.isBlank c = true := by
    intro w y hw hread
    obtain ⟨rfl, hblank⟩ := readConditions_foreign hw hread
    exact ⟨hw, hblank⟩
  have hread := readsConditions_of_readConditions hok
  clear hok
  induction hread generalizing x' with
  | @done isFirst t hnone =>
    cases t with
    | nil =>
      obtain rfl : isFirst = false := Bool.eq_false_iff.mpr fun htrue => hfirst htrue rfl
      exact Or.inr ⟨rfl, hend h.foreign hok'⟩
    | cons c r =>
      rw [List.cons_append, readConditions_of_none (readSimple_none_cons hnone (r ++ v))] at hok'
      exact Or.inl ⟨List.cons_ne_nil c r, (Prod.mk.inj (Except.ok.inj hok')).2.symm⟩
  | @more isFirst t mid rest y more hsome hmore ih =>
    rcases readConditions_eq_ok hok' with ⟨hnone', -⟩ | ⟨y', mid', more', hsome', hmore', -⟩
    · cases t with
      | nil => cases hsome
      | cons c r =>
        rw [readSimple_none_cons (v := r) hnone'] at hsome
        exact absurd hsome (by simp)
    · rcases readSimple_meets h hsome hsome' with rfl | ⟨rfl, hforeign⟩
      · exact ih (h.rest (isRest_of_readSimple hsome))
          (fun hfalse => absurd hfalse Bool.false_ne_true) hmore'
      · cases hmore with
        | done => exact Or.inr ⟨rfl, hend hforeign hmore'⟩
        | more hsome => cases hsome

/-! ### Selectors -/

/-- What follows a combinator is an end of the text. -/
theorem isRest_of_readCombinator_eq_some {k : Combinator}
    (h : readCombinator t = .ok (some (k, u))) : IsRest u t := by
  have hstart := IsRest.trimStart t
  obtain ⟨c, r, htrim, ⟨hchar, rfl, -⟩ | ⟨-, -, rfl, -⟩⟩ := readCombinator_eq_some h
  · rw [htrim] at hstart
    exact (IsRest.trimStart r).trans ((IsRest.cons (plain_of_ofChar? hchar).1 r).trans hstart)
  · rw [← htrim]
    exact hstart

/-- Behind a blank, a foreign character would have to start a compound. -/
theorem not_readOn_foreign (hv : StartsForeign v) (hblank : ∀ c ∈ v.head?, Text.isBlank c = true)
    (left : List (Combinator × Compound)) (compound : Compound) (s : Complex) :
    readOn left compound v ≠ .ok s := by
  obtain ⟨c, y, hstart, hc⟩ := hv.exists_trimStart
  have hhead : v.head? ≠ some c := by
    intro hhead
    have hb := hblank c hhead
    rw [not_blank_of_isForeign hc] at hb
    exact absurd hb (by simp)
  rw [readOn_descendant (not_isCombinator_of_isForeign hc) hstart hhead]
  exact not_readChain_foreign hc _ y s

/-- A compound ends in front of what follows it, or a foreign character stands behind it. -/
theorem readCompound_meets {x x' : Compound} {rest rest' : Text} (h : Meets t v)
    (hok : readCompound t = .ok (x, rest)) (hok' : readCompound (t ++ v) = .ok (x', rest')) :
    rest ≠ [] ∧ rest' = rest ++ v ∨
      rest = [] ∧ StartsForeign rest' ∧ ∀ c ∈ rest'.head?, Text.isBlank c = true :=
  readConditions_meets h (fun _ => ne_nil_of_readCompound hok) (readCompound_eq_ok.mp hok).1
    (readCompound_eq_ok.mp hok').1

/-- A selector is none any more when a foreign character follows. -/
theorem not_readChain_append {left left' : List (Combinator × Compound)} {s : Complex}
    (h : Meets t v) (ht : readChain left t = .ok s) (s' : Complex) :
    readChain left' (t ++ v) ≠ .ok s' := by
  have hread := readsChain_of_readChain ht
  clear ht
  induction hread generalizing left' with
  | last hcompound hend =>
    intro ht'
    rw [readChain_eq] at ht'
    obtain ⟨⟨compound', rest'⟩, hcompound', hon'⟩ := Outcome.bind_eq_ok.mp ht'
    rcases readCompound_meets h hcompound hcompound' with ⟨hrest, rfl⟩ | ⟨-, hforeign, hblank⟩
    · -- the compound is followed by blanks, and these by the foreign character
      have hall := Text.trimStart_eq_nil_iff.mp hend
      refine not_readOn_foreign (h.foreign.blank_append hall) (fun c hc => ?_) _ _ s' hon'
      rw [List.head?_append_of_ne_nil _ hrest] at hc
      exact hall c (List.mem_of_mem_head? hc)
    · exact not_readOn_foreign hforeign hblank _ _ s' hon'
  | more hcompound hcombinator _ ih =>
    intro ht'
    rw [readChain_eq] at ht'
    obtain ⟨⟨compound', rest'⟩, hcompound', hon'⟩ := Outcome.bind_eq_ok.mp ht'
    rcases readCompound_meets h hcompound hcompound' with ⟨-, rfl⟩ | ⟨-, hforeign, hblank⟩
    · have hrest := (isRest_of_readCombinator_eq_some hcombinator).trans
        (isRest_of_readConditions (readCompound_eq_ok.mp hcompound).1)
      exact ih (h.rest hrest)
        ((readOn_of_combinator (readCombinator_append hcombinator v)).symm.trans hon')
    · exact not_readOn_foreign hforeign hblank _ _ s' hon'

/-! ### Lists -/

/-- The text without the blanks around it meets what follows it and the blanks behind it. -/
theorem Meets.trim (h : Meets t v) (hne : Text.trim t ≠ []) :
    ∃ w, Meets (Text.trim t) w ∧ Text.trim (t ++ v) = Text.trim t ++ w := by
  obtain ⟨b, hb, hstart⟩ := Text.exists_append_trimEnd (Text.trimStart t)
  have hstart : Text.trimStart t = Text.trim t ++ b := hstart
  have hforeign := (h.foreign.blank_append hb).trimEnd
  refine ⟨Text.trimEnd (b ++ v), ⟨hforeign, fun hescape => ?_⟩, ?_⟩
  · rw [Text.head?_trimEnd hforeign.ne_nil]
    cases b with
    | nil =>
      rw [List.append_nil] at hstart
      exact (h.rest (.trimStart t)).escape (hstart ▸ hescape)
    | cons c b =>
      rintro d ⟨⟩
      exact hb _ (List.mem_cons_self ..)
  · have hnil : Text.trimStart t ≠ [] := by
      rw [hstart]
      exact List.append_ne_nil_of_left_ne_nil hne b
    rw [Text.trim, Text.trimStart_append hnil, hstart, List.append_assoc,
      Text.trimEnd_append hforeign.ne_nil]

theorem not_complex_ofText_append {x : Complex} (h : Meets t v) (ht : Complex.ofText t = .ok x)
    (x' : Complex) : Complex.ofText (t ++ v) ≠ .ok x' := by
  intro ht'
  unfold Complex.ofText at ht ht'
  cases htrim : Text.trim t with
  | nil =>
    rw [htrim] at ht
    exact absurd ht (by simp)
  | cons c r =>
    obtain ⟨w, hw, hall⟩ := h.trim (by rw [htrim]; exact List.cons_ne_nil c r)
    rw [htrim] at ht hw hall
    rw [hall, List.cons_append] at ht'
    simp only at ht ht'
    cases hchar : Combinator.ofChar? c with
    | none =>
      rw [hchar] at ht ht'
      exact not_readChain_append hw ht x' ht'
    | some k =>
      rw [hchar] at ht ht'
      have hne : Text.trimStart r ≠ [] := ne_nil_of_readChain ht
      have hr := hw.rest ((IsRest.trimStart r).trans (.cons (plain_of_ofChar? hchar).1 r))
      simp only [Text.trimStart_append hne] at ht'
      exact not_readChain_append hr ht x' ht'

theorem not_complex_ofText_foreign (hv : StartsForeign v) (x : Complex) :
    Complex.ofText v ≠ .ok x := by
  intro h
  obtain ⟨c, y, hstart, hc⟩ := hv.exists_trimStart
  have hlast : ∀ d ∈ [c].getLast?, Text.isBlank d = false := by
    rintro d ⟨⟩
    exact not_blank_of_isForeign hc
  have htrim : Text.trim v = c :: Text.trimEnd y := by
    rw [Text.trim, hstart, ← List.singleton_append, Text.trimEnd_append_of_last hlast]
    rfl
  have hhead : ∀ d ∈ (Text.trim v).head?, isCombinator d = false := by
    rw [htrim]
    rintro d ⟨⟩
    exact not_isCombinator_of_isForeign hc
  rw [complex_ofText_eq (by rw [htrim]; exact List.cons_ne_nil _ _) hhead, htrim] at h
  exact not_readChain_foreign hc [] _ x h

/-- The first part of a text before a comma starts like the text. -/
theorem StartsForeign.of_split (hv : StartsForeign v) {s : Nesting} {x : Text} {xs : List Text}
    (h : s.split .roundAndSquare (· == ',') v = x :: xs) :
    StartsForeign x ∧ x.head? = v.head? := by
  have hcons : ∀ {s : Nesting} {x : Text} {xs : List Text} {c : Char} {y : Text}, c ≠ ',' →
      s.split .roundAndSquare (· == ',') (c :: y) = x :: xs →
      ∃ w ws, (s.step .roundAndSquare c).split .roundAndSquare (· == ',') y = w :: ws ∧
        x = c :: w := by
    intro s x xs c y hc hsplit
    obtain ⟨w, ws, hw⟩ := List.exists_cons_of_ne_nil
      (Nesting.split_ne_nil .roundAndSquare (· == ',') (s.step .roundAndSquare c) y)
    rw [Nesting.split, if_neg, hw] at hsplit
    · exact ⟨w, ws, hw, (List.cons.inj hsplit).1.symm⟩
    · rw [Nesting.cutsAt, beq_eq_false_iff_ne.mpr hc, Bool.and_false]
      exact Bool.false_ne_true
  induction hv generalizing s x xs with
  | foreign y hc =>
    obtain ⟨w, ws, -, rfl⟩ := hcons (ne_of_isForeign hc (by decide)) h
    exact ⟨.foreign w hc, rfl⟩
  | blank hb _ ih =>
    obtain ⟨w, ws, hw, rfl⟩ := hcons (by rintro rfl; exact absurd hb (by decide)) h
    exact ⟨.blank hb (ih hw).1, rfl⟩

/-- **A list of selectors that is complete is none any more when a foreign character follows.** -/
theorem not_ofText_append (h : Meets t v)
    (ht : Text.trim t = [] ∨ ∃ s, Selector.ofText t = .ok s) (s' : Selector) :
    Selector.ofText (t ++ v) ≠ .ok s' := by
  intro ht'
  obtain ⟨-, hparts'⟩ := exists_ofText_iff.mp ⟨s', ht'⟩
  rcases ht with hblank | hread
  · have hall := h.foreign.blank_append (Text.trim_eq_nil_iff.mp hblank)
    obtain ⟨x, xs, hsplit⟩ := List.exists_cons_of_ne_nil
      (Nesting.split_ne_nil .roundAndSquare (· == ',') .top (t ++ v))
    obtain ⟨y, hy⟩ := hparts' x (by rw [parts, hsplit]; exact List.mem_cons_self ..)
    exact not_complex_ofText_foreign (hall.of_split hsplit).1 y hy
  · obtain ⟨-, hparts⟩ := exists_ofText_iff.mp hread
    obtain ⟨front, last, x, xs, hlast, hx, hboth⟩ :=
      Nesting.split_append (b := .roundAndSquare) (p := (· == ',')) (s := .top) t v
    obtain ⟨hforeign, hhead⟩ := h.foreign.of_split hx
    have hmeets : Meets last x := by
      refine ⟨hforeign, fun hescape => ?_⟩
      rw [hhead]
      exact h.escape ((Nesting.endsInEscape_of_split hlast).symm.trans hescape)
    obtain ⟨y, hy⟩ := hparts last (by rw [parts, hlast]; simp)
    obtain ⟨y', hy'⟩ := hparts' (last ++ x) (by rw [parts, hboth]; simp)
    exact not_complex_ofText_append hmeets hy y' hy'

/-! ### A star -/

/-- The star can only follow a compound that has ended before. -/
theorem readCompound_append_star {x x' : Compound} {rest rest' : Text}
    (hescape : endsInEscape t = false) (h : readCompound t = .ok (x, rest))
    (h' : readCompound (t ++ ['*']) = .ok (x', rest')) : rest ≠ [] ∧ rest' = rest ++ ['*'] := by
  have hconditions := (readCompound_eq_ok.mp h).1
  have hstar : Apart t [] ['*'] := .inr ⟨by simp; decide, fun _ _ => hescape⟩
  rw [← List.append_nil t] at hconditions
  obtain ⟨r, -, hr, hexchange⟩ := readConditions_exchange (w := ['*']) hstar
    (by simp [Detached]; decide) hconditions (Nat.zero_le _)
  rw [List.append_nil] at hr
  subst hr
  rw [List.isEmpty_eq_false_iff.mpr (ne_nil_of_readCompound h), Bool.and_false,
    (readCompound_eq_ok.mp h').1] at hexchange
  by_cases hnil : rest = []
  · -- the star would have to be a condition
    have herror : readConditions false ['*'] = .error (.unexpected '*') := by decide +kernel
    rw [if_pos hnil, herror] at hexchange
    exact absurd hexchange (by simp [Except.map])
  · rw [if_neg hnil] at hexchange
    exact ⟨hnil, (Prod.mk.inj (Except.ok.inj hexchange)).2⟩

/-- A selector that does not end with a blank is none any more when `*` follows. -/
theorem not_readChain_append_star {left left' : List (Combinator × Compound)} {s : Complex}
    (hescape : endsInEscape t = false) (hlast : ∀ c ∈ t.getLast?, Text.isBlank c = false)
    (ht : readChain left t = .ok s) (s' : Complex) : readChain left' (t ++ ['*']) ≠ .ok s' := by
  have hread := readsChain_of_readChain ht
  clear ht
  induction hread generalizing left' with
  | last hcompound hend =>
    intro ht'
    rw [readChain_eq] at ht'
    obtain ⟨⟨compound', rest'⟩, hcompound', -⟩ := Outcome.bind_eq_ok.mp ht'
    obtain ⟨hrest, -⟩ := readCompound_append_star hescape hcompound hcompound'
    have hsuffix := (isRest_of_readConditions (readCompound_eq_ok.mp hcompound).1).suffix
    rw [getLast?_of_suffix hsuffix hrest] at hlast
    exact hrest (eq_nil_of_trimStart hlast hend)
  | more hcompound hcombinator _ ih =>
    intro ht'
    rw [readChain_eq] at ht'
    obtain ⟨⟨compound', rest'⟩, hcompound', hon'⟩ := Outcome.bind_eq_ok.mp ht'
    obtain ⟨-, rfl⟩ := readCompound_append_star hescape hcompound hcompound'
    have hu := (isRest_of_readCombinator_eq_some hcombinator).trans
      (isRest_of_readConditions (readCompound_eq_ok.mp hcompound).1)
    rw [getLast?_of_suffix hu.suffix (suffix_of_readCombinator hcombinator).2] at hlast
    exact ih (hu.escape hescape) hlast
      ((readOn_of_combinator (readCombinator_append hcombinator _)).symm.trans hon')

theorem not_complex_ofText_append_star {x : Complex} (hc : Stands c)
    (ht : Complex.ofText (t ++ [c]) = .ok x) (x' : Complex) :
    Complex.ofText (t ++ [c, '*']) ≠ .ok x' := by
  intro ht'
  unfold Complex.ofText at ht ht'
  have htrim : Text.trim (t ++ [c]) = Text.trimStart t ++ [c] :=
    Text.trim_append_cons hc.not_blank t []
  have htrim' : Text.trim (t ++ [c, '*']) = Text.trimStart t ++ [c] ++ ['*'] := by
    rw [Text.trim_append_cons hc.not_blank, List.append_assoc]
    rfl
  have hescape := Extended.endsInEscape_concat hc.ne_backslash (Text.trimStart t)
  have hlast : ∀ d ∈ (Text.trimStart t ++ [c]).getLast?, Text.isBlank d = false := by
    rw [List.getLast?_concat]
    rintro d ⟨⟩
    exact hc.not_blank
  rw [htrim] at ht
  rw [htrim'] at ht'
  generalize Text.trimStart t ++ [c] = u at ht ht' hescape hlast
  cases u with
  | nil => exact absurd ht (by simp)
  | cons d r =>
    rw [List.cons_append] at ht'
    simp only at ht ht'
    cases hchar : Combinator.ofChar? d with
    | none =>
      rw [hchar] at ht ht'
      exact not_readChain_append_star hescape hlast ht x' ht'
    | some k =>
      rw [hchar] at ht ht'
      have hne : Text.trimStart r ≠ [] := ne_nil_of_readChain ht
      have hr := (IsRest.trimStart r).trans (.cons (plain_of_ofChar? hchar).1 r)
      simp only [Text.trimStart_append hne] at ht'
      refine not_readChain_append_star (hr.escape hescape) ?_ ht x' ht'
      rw [← getLast?_of_suffix hr.suffix hne]
      exact hlast

/-- A list of selectors that does not end with a blank is none any more when `*` follows. -/
theorem not_ofText_append_star {s : Selector} (hc : Stands c) (hcomma : c ≠ ',')
    (ht : Selector.ofText (t ++ [c]) = .ok s) (s' : Selector) :
    Selector.ofText (t ++ [c, '*']) ≠ .ok s' := by
  intro ht'
  obtain ⟨-, hparts⟩ := exists_ofText_iff.mp ⟨s, ht⟩
  obtain ⟨-, hparts'⟩ := exists_ofText_iff.mp ⟨s', ht'⟩
  have hcut : ∀ (n : Nesting) (d : Char), d ≠ ',' →
      ¬ Nesting.cutsAt .roundAndSquare (· == ',') n d = true := fun n d hd => by
    rw [Nesting.cutsAt, beq_eq_false_iff_ne.mpr hd, Bool.and_false]
    exact Bool.false_ne_true
  obtain ⟨front, last, y, ys, hu, hy, hboth⟩ :=
    Nesting.split_append (b := .roundAndSquare) (p := (· == ',')) (s := .top) t [c]
  obtain ⟨front', last', z, zs, hu', hz, hboth'⟩ :=
    Nesting.split_append (b := .roundAndSquare) (p := (· == ',')) (s := .top) t [c, '*']
  obtain ⟨rfl, hsame⟩ := List.append_inj' (hu.symm.trans hu') rfl
  obtain rfl := (List.cons.inj hsame).1
  rw [Nesting.split, if_neg (hcut _ _ hcomma)] at hy hz
  rw [Nesting.split, if_neg (hcut _ _ (by decide))] at hz
  obtain ⟨rfl, rfl⟩ := List.cons.inj hy
  obtain ⟨rfl, rfl⟩ := List.cons.inj hz
  obtain ⟨x, hx⟩ := hparts (last ++ [c]) (by rw [parts, hboth]; simp)
  obtain ⟨x', hx'⟩ := hparts' (last ++ [c, '*']) (by rw [parts, hboth']; simp)
  exact not_complex_ofText_append_star hc hx x' hx'

end Css
end CosmeticFilter
