import CosmeticFilter.Proofs.Css.Conditions
import CosmeticFilter.Proofs.Extended.Chunks
import CosmeticFilter.Proofs.Text.Trim

/-!
# What a reader leaves unread

A reader of native selectors that stops in front of some end of a text has not looked at that end,
but for its first character, and stops there in the same way if the end is replaced by another one
that does not go on with a name or an argument. This is stated of each reader in turn, from names up
to the conditions of a compound. Escapes need care: one at the very end of what is read would take
a blank of the new end with it, and a lone backslash any character.

* `Detached`, `Apart`: the text does not go on with a name or an argument, nor with an escape;
* `IsRest`: an end of a text that starts with no half of an escape;
* `LeavesUnread`: the reader does not depend on what it leaves unread;
* `LeavesUnread.trimStart`, `LeavesUnread.bind`: readers that are put together;
* `readConditions_exchange`: the conditions of a compound.
-/

namespace CosmeticFilter
namespace Css

open Extended (endsInEscape endsInEscape_cons endsInEscape_escape)

/-- The text has no escapes. -/
def IsPlain (t : Text) : Prop := ∀ c ∈ t, c ≠ '\\'

/-- The text does not go on with a name or an argument. -/
def Detached (t : Text) : Prop := ∀ c ∈ t.head?, isIdentChar c = false ∧ c ≠ '\\' ∧ c ≠ '('

theorem isPlain_iff {t : Text} : IsPlain t ↔ '\\' ∉ t := by
  constructor
  · exact fun h hmem => h _ hmem rfl
  · rintro h c hc rfl
    exact h hc

instance (t : Text) : Decidable (IsPlain t) := decidable_of_iff _ isPlain_iff.symm

theorem IsPlain.suffix {r t : Text} (h : IsPlain t) (hr : r <:+ t) : IsPlain r :=
  fun c hc => h c (hr.mem hc)

/-- Without escapes, no backslash waits for a character. -/
theorem endsInEscape_of_plain {t : Text} (ht : IsPlain t) : endsInEscape t = false := by
  induction t using Extended.escape_induction with
  | nil => rfl
  | lone => exact absurd rfl (ht '\\' (List.mem_singleton_self _))
  | escape e r ih => exact absurd rfl (ht '\\' (List.mem_cons_self ..))
  | plain c r hc ih =>
    rw [endsInEscape_cons hc]
    exact ih fun d hd => ht d (List.mem_cons_of_mem _ hd)

/-- The text is an end of another one, and does not start with half of an escape of it. -/
structure IsRest (r' r : Text) : Prop where
  /-- It is an end of the text. -/
  suffix : r' <:+ r
  /-- A backslash at its end waits for a character only if it does in the whole text. -/
  escape : endsInEscape r = false → endsInEscape r' = false

theorem IsRest.refl (r : Text) : IsRest r r := ⟨List.suffix_refl r, id⟩

theorem IsRest.trans {r r' r'' : Text} (h : IsRest r'' r') (h' : IsRest r' r) : IsRest r'' r :=
  ⟨h.suffix.trans h'.suffix, fun he => h.escape (h'.escape he)⟩

theorem IsRest.cons {c : Char} (hc : c ≠ '\\') (r : Text) : IsRest r (c :: r) :=
  ⟨List.suffix_cons .., fun he => (endsInEscape_cons hc r).symm.trans he⟩

theorem IsRest.pair (c : Char) (r : Text) : IsRest r ('\\' :: c :: r) :=
  ⟨(List.suffix_cons ..).trans (List.suffix_cons ..),
    fun he => (endsInEscape_escape c r).symm.trans he⟩

theorem ne_backslash_of_isBlank {c : Char} (h : Text.isBlank c = true) : c ≠ '\\' := by
  rintro rfl
  exact absurd h (by decide)

theorem IsRest.trimStart (r : Text) : IsRest (Text.trimStart r) r := by
  induction r with
  | nil => exact .refl []
  | cons c r ih =>
    cases hblank : Text.isBlank c with
    | true =>
      rw [Text.trimStart_cons_of_blank hblank]
      exact ih.trans (.cons (ne_backslash_of_isBlank hblank) r)
    | false =>
      rw [Text.trimStart_cons_of_not_blank hblank]
      exact .refl _

/-- No escape of the text reaches into `w` where the text goes on with `w` in place of `b`. -/
def Apart (r b w : Text) : Prop :=
  IsPlain r ∨ (∀ c ∈ w.head?, Text.isBlank c = false) ∧
    (b = [] → w ≠ [] → endsInEscape r = false)

theorem Apart.rest {r r' b w : Text} (h : Apart r b w) (hr : IsRest r' r) : Apart r' b w := by
  rcases h with hplain | ⟨hblank, hescape⟩
  · exact Or.inl (hplain.suffix hr.suffix)
  · exact Or.inr ⟨hblank, fun hb hw => hr.escape (hescape hb hw)⟩

theorem Apart.tail {c : Char} {r b w : Text} (h : Apart (c :: r) b w) (hc : c ≠ '\\') :
    Apart r b w := h.rest (.cons hc r)

theorem apart_nil (r b : Text) : Apart r b [] :=
  Or.inr ⟨fun _ hc => absurd hc (by simp), fun _ hne => absurd rfl hne⟩

/-- What the reader leaves unread may be replaced. -/
def LeavesUnread {ε α : Type} (read : Text → Except ε (α × Text)) (b w : Text) : Prop :=
  ∀ (r : Text) (x : α) (rest : Text), Apart r b w → read (r ++ b) = .ok (x, rest) →
    b.length ≤ rest.length →
    ∃ r', IsRest r' r ∧ rest = r' ++ b ∧ read (r ++ w) = .ok (x, r' ++ w)

/-- The reader takes at least one character. -/
def Consumes {ε α : Type} (read : Text → Except ε (α × Text)) : Prop :=
  ∀ (t : Text) (x : α) (rest : Text), read t = .ok (x, rest) → rest.length < t.length

variable {ε α β : Type} {b w : Text}

/-- Blanks in front of what is read. -/
theorem LeavesUnread.trimStart {read : Text → Except ε (α × Text)}
    (h : LeavesUnread read b w) (hread : Consumes read) :
    LeavesUnread (fun t => read (Text.trimStart t)) b w := by
  intro r x rest hr hok hb
  simp only at hok ⊢
  by_cases hnil : Text.trimStart r = []
  · -- the reader would have to take something of the end
    rw [Text.trimStart_append_of_blank hnil] at hok
    have hlt := hread _ _ _ hok
    have hle := Text.length_trimStart_le b
    omega
  · rw [Text.trimStart_append hnil] at hok
    obtain ⟨r', hr', hrest, hok'⟩ := h _ _ _ (hr.rest (.trimStart r)) hok hb
    refine ⟨r', hr'.trans (.trimStart r), hrest, ?_⟩
    rw [Text.trimStart_append hnil]
    exact hok'

/-- One reader after the other. -/
theorem LeavesUnread.bind {first : Text → Except ε (α × Text)}
    {next : α → Text → Except ε (β × Text)} (hfirst : LeavesUnread first b w)
    (hnext : ∀ x, LeavesUnread (next x) b w)
    (hlength : ∀ x t y rest, next x t = .ok (y, rest) → rest.length ≤ t.length) :
    LeavesUnread (fun t => first t >>= fun taken => next taken.1 taken.2) b w := by
  intro r y rest hr hok hb
  obtain ⟨⟨x, mid⟩, hx, hy⟩ := Outcome.bind_eq_ok.mp hok
  have hmid := hlength _ _ _ _ hy
  simp only at hmid
  obtain ⟨r', hr', hmid', hx'⟩ := hfirst r x mid hr hx (by omega)
  rw [hmid'] at hy
  obtain ⟨r'', hr'', hrest, hy'⟩ := hnext x r' y rest (hr.rest hr') hy hb
  refine ⟨r'', hr''.trans hr', hrest, ?_⟩
  exact Outcome.bind_eq_ok.mpr ⟨_, hx', hy'⟩

/-! ### Names and strings -/

theorem takeIdent_cons {c : Char} (hc : c ≠ '\\') (r : Text) :
    takeIdent (c :: r) = if isIdentChar c then Text.onto c (takeIdent r) else ([], c :: r) := by
  rw [takeIdent, if_neg hc]

/-- A name without escapes is spelled as it is. -/
theorem takeIdent_eq_append {t : Text} (ht : IsPlain t) :
    (takeIdent t).1 ++ (takeIdent t).2 = t := by
  induction t with
  | nil => rw [takeIdent]; rfl
  | cons c r ih =>
    rw [takeIdent_cons (ht c (List.mem_cons_self ..))]
    split
    · rw [Text.onto_fst, Text.onto_snd, List.cons_append,
        ih fun d hd => ht d (List.mem_cons_of_mem _ hd)]
    · rfl

theorem takeIdent_detached (h : Detached w) : takeIdent w = ([], w) := by
  cases w with
  | nil => rw [takeIdent]
  | cons c r =>
    obtain ⟨hident, hescape, -⟩ := h c rfl
    rw [takeIdent_cons hescape, if_neg (by rw [hident]; exact Bool.false_ne_true)]

/-- A text that is left as it is starts with no name. -/
theorem not_isIdentChar_of_takeIdent (h : b.length ≤ (takeIdent b).2.length) :
    ∀ c ∈ b.head?, isIdentChar c = false ∧ c ≠ '\\' := by
  have hnil : (takeIdent b).1 = [] := by
    by_contra hne
    have := length_takeIdent_snd_lt hne
    omega
  intro c hc
  cases b with
  | nil => exact absurd hc (by simp)
  | cons d r =>
    obtain rfl := Option.some_inj.mp hc
    rw [takeIdent] at hnil
    by_cases hescape : d = '\\'
    · rw [if_pos hescape] at hnil
      exact absurd hnil (List.cons_ne_nil _ _)
    · rw [if_neg hescape] at hnil
      cases hident : isIdentChar d with
      | false => exact ⟨rfl, hescape⟩
      | true =>
        rw [if_pos hident] at hnil
        exact absurd hnil (List.cons_ne_nil _ _)

/-- The digits that belong to an escape. -/
theorem takeWhile_digits {d : Char} {ds u : Text} (hd : ∀ c ∈ d :: ds, isHexDigit c = true)
    (hlength : (d :: ds).length ≤ 6)
    (hu : (d :: ds).length = 6 ∨ ∀ c ∈ u.head?, isHexDigit c = false) :
    ((d :: ds ++ u).take 6).takeWhile isHexDigit = d :: ds := by
  rw [List.take_append, List.take_of_length_le hlength, List.takeWhile_append_of_pos hd]
  have hnone : (u.take (6 - (d :: ds).length)).takeWhile isHexDigit = [] := by
    rcases hu with heq | hhead
    · rw [heq, Nat.sub_self]
      rfl
    · cases u with
      | nil => simp
      | cons c u =>
        cases hn : 6 - (d :: ds).length with
        | zero => rfl
        | succ n => rw [List.take_succ_cons, List.takeWhile_cons_of_neg (by simp [hhead c rfl])]
  rw [hnone, List.append_nil]

/-- Up to six hexadecimal digits behind a backslash make one escape. -/
theorem takeEscape_digits {d : Char} {ds u : Text} (hd : ∀ c ∈ d :: ds, isHexDigit c = true)
    (hlength : (d :: ds).length ≤ 6)
    (hu : (d :: ds).length = 6 ∨ ∀ c ∈ u.head?, isHexDigit c = false) :
    takeEscape (d :: ds ++ u) = (charOfCode (hexValue (d :: ds)), dropOneBlank u) := by
  unfold takeEscape
  rw [takeWhile_digits hd hlength hu]
  simp only [List.drop_left]

theorem takeEscape_cons {c : Char} (hc : isHexDigit c = false) (u : Text) :
    takeEscape (c :: u) = (c, u) := by
  unfold takeEscape
  rw [List.take_succ_cons, List.takeWhile_cons_of_neg (by simp [hc])]
  rfl

/-- A hexadecimal digit may stand in a name. -/
theorem isIdentChar_of_isHexDigit {c : Char} (h : isHexDigit c = true) : isIdentChar c = true := by
  have halpha : c.isAlpha = (c.isUpper || c.isLower) := rfl
  unfold isHexDigit at h
  unfold isIdentChar isIdentStart
  rw [Bool.or_eq_true, Bool.or_eq_true] at h
  rw [halpha]
  rcases h with (hdigit | hlower) | hupper
  · simp [hdigit]
  · have hc : c.isLower = true := by
      simp only [Bool.and_eq_true, decide_eq_true_eq, Char.le_def] at hlower
      exact Bool.and_eq_true_iff.mpr ⟨decide_eq_true hlower.1,
        decide_eq_true (UInt32.le_trans hlower.2 (by decide))⟩
    simp [hc]
  · have hc : c.isUpper = true := by
      simp only [Bool.and_eq_true, decide_eq_true_eq, Char.le_def] at hupper
      exact decide_eq_true ⟨hupper.1, UInt32.le_trans hupper.2 (by decide)⟩
    simp [hc]

/-- Lowering its case makes nothing a name character. -/
theorem isIdentChar_of_toLower {c : Char} (h : isIdentChar c.toLower = true) :
    isIdentChar c = true := by
  by_cases hupper : 'A' ≤ c ∧ c ≤ 'Z'
  · have halpha : c.isAlpha = true := (Bool.or_eq_true _ _).mpr (.inl (decide_eq_true hupper))
    rw [isIdentChar, isIdentStart, halpha]
    rfl
  · have hsame : c.toLower = c := by
      unfold Char.toLower
      exact dif_neg hupper
    rwa [hsame] at h

/-- At most so many digits at the start of a text. -/
theorem exists_digits (n : Nat) (t : Text) :
    ∃ ds u, t = ds ++ u ∧ (∀ c ∈ ds, isHexDigit c = true) ∧ ds.length ≤ n ∧
      (ds.length = n ∨ ∀ c ∈ u.head?, isHexDigit c = false) := by
  induction n generalizing t with
  | zero => exact ⟨[], t, rfl, fun _ hc => absurd hc List.not_mem_nil, Nat.le_refl _, Or.inl rfl⟩
  | succ n ih =>
    cases t with
    | nil => exact ⟨[], [], rfl, fun _ hc => absurd hc List.not_mem_nil, Nat.zero_le _,
        Or.inr fun _ hc => absurd hc (by simp)⟩
    | cons d r =>
      cases hd : isHexDigit d with
      | false =>
        refine ⟨[], d :: r, rfl, fun _ hc => absurd hc List.not_mem_nil, Nat.zero_le _,
          Or.inr fun c hc => ?_⟩
        rw [← Option.some_inj.mp hc]
        exact hd
      | true =>
        obtain ⟨ds, u, rfl, hds, hlength, hu⟩ := ih r
        refine ⟨d :: ds, u, rfl, ?_, Nat.succ_le_succ hlength, hu.imp (congrArg _) id⟩
        intro c hc
        rcases List.mem_cons.mp hc with rfl | hc
        · exact hd
        · exact hds c hc

/-- An escape takes all digits that belong to it. -/
theorem length_takeEscape_digits_le {d : Char} (ds u : Text)
    (hd : ∀ c ∈ d :: ds, isHexDigit c = true) (hlength : (d :: ds).length ≤ 6) :
    (takeEscape (d :: ds ++ u)).2.length ≤ u.length := by
  obtain ⟨ds', u', rfl, hds', hlength', hu'⟩ := exists_digits (6 - (d :: ds).length) u
  have hall : ∀ c ∈ d :: (ds ++ ds'), isHexDigit c = true := by
    intro c hc
    rcases List.mem_append.mp (show c ∈ d :: ds ++ ds' from hc) with hc | hc
    · exact hd c hc
    · exact hds' c hc
  have heq : d :: ds ++ (ds' ++ u') = d :: (ds ++ ds') ++ u' := by simp
  rw [heq, takeEscape_digits hall]
  · have := length_dropOneBlank_le u'
    simp only [List.length_append]
    omega
  · simp only [List.length_cons, List.length_append] at hlength hlength' ⊢
    omega
  · refine hu'.imp (fun hn => ?_) id
    simp only [List.length_cons, List.length_append] at hlength hn ⊢
    omega

theorem IsRest.digits {ds : Text} (hds : ∀ c ∈ ds, isHexDigit c = true) (u : Text) :
    IsRest u (ds ++ u) := by
  induction ds with
  | nil => exact .refl u
  | cons d ds ih =>
    have hd : d ≠ '\\' := by
      rintro rfl
      exact absurd (hds _ (List.mem_cons_self ..)) (by decide)
    exact (ih fun c hc => hds c (List.mem_cons_of_mem _ hc)).trans (.cons hd _)

theorem IsRest.dropOneBlank (u : Text) : IsRest (dropOneBlank u) u := by
  cases u with
  | nil => exact .refl []
  | cons c r =>
    rw [Css.dropOneBlank]
    split
    · rename_i hblank
      exact .cons (ne_backslash_of_isBlank hblank) r
    · exact .refl _

theorem dropOneBlank_of_not_blank {u : Text} (h : ∀ c ∈ u.head?, Text.isBlank c = false) :
    dropOneBlank u = u := by
  cases u with
  | nil => rfl
  | cons c r => rw [dropOneBlank, if_neg (by rw [h c rfl]; exact Bool.false_ne_true)]

theorem not_blank_of_length_dropOneBlank (h : b.length ≤ (dropOneBlank b).length) :
    ∀ c ∈ b.head?, Text.isBlank c = false := by
  intro c hc
  cases b with
  | nil => exact absurd hc (by simp)
  | cons d r =>
    obtain rfl := Option.some_inj.mp hc
    cases hblank : Text.isBlank d with
    | false => rfl
    | true =>
      rw [dropOneBlank, if_pos hblank, List.length_cons] at h
      omega

theorem length_takeEscape_snd_lt (c : Char) (u : Text) :
    (takeEscape (c :: u)).2.length < (c :: u).length := by
  cases hc : isHexDigit c with
  | false =>
    rw [takeEscape_cons hc]
    exact Nat.lt_succ_self _
  | true =>
    have hle := length_takeEscape_digits_le [] u
      (fun d hd => by rw [List.mem_singleton.mp hd]; exact hc) (by simp)
    exact Nat.lt_succ_of_le hle

/-- An escape behind its backslash. -/
theorem takeEscape_exchange {r : Text} (hr : Apart ('\\' :: r) b w) (hw : Detached w)
    (hb : b.length ≤ (takeEscape (r ++ b)).2.length) :
    ∃ r', IsRest r' ('\\' :: r) ∧ (takeEscape (r ++ b)).2 = r' ++ b ∧
      takeEscape (r ++ w) = ((takeEscape (r ++ b)).1, r' ++ w) := by
  obtain ⟨hblank, hescape⟩ := hr.resolve_left fun hplain =>
    hplain '\\' (List.mem_cons_self ..) rfl
  cases r with
  | nil =>
    -- a lone backslash takes a character of either end, so there is none
    rw [List.nil_append] at hb
    have hnil : b = [] := by
      cases b with
      | nil => rfl
      | cons c u => exact absurd hb (Nat.not_le.mpr (length_takeEscape_snd_lt c u))
    have hwnil : w = [] := by
      by_contra hne
      exact absurd (hescape hnil hne) (by simp [endsInEscape])
    rw [hnil, hwnil]
    exact ⟨[], ⟨List.nil_suffix, fun _ => rfl⟩, rfl, rfl⟩
  | cons c u =>
    cases hc : isHexDigit c with
    | false =>
      rw [List.cons_append, List.cons_append, takeEscape_cons hc, takeEscape_cons hc]
      exact ⟨u, .pair c u, rfl, rfl⟩
    | true =>
      obtain ⟨ds, v, rfl, hds, hlength, hv⟩ := exists_digits 5 u
      have hall : ∀ d ∈ c :: ds, isHexDigit d = true := by
        intro d hd
        rcases List.mem_cons.mp hd with rfl | hd
        · exact hc
        · exact hds d hd
      have hlength : (c :: ds).length ≤ 6 := Nat.succ_le_succ hlength
      have hv : (c :: ds).length = 6 ∨ ∀ d ∈ v.head?, isHexDigit d = false :=
        hv.imp (congrArg _) id
      have hrest : IsRest v ('\\' :: c :: (ds ++ v)) := (IsRest.digits hds v).trans (.pair c _)
      have hassoc : ∀ e : Text, c :: (ds ++ v) ++ e = c :: ds ++ (v ++ e) := fun e => by simp
      rw [hassoc, hassoc] at *
      cases v with
      | cons d v =>
        have hhead : ∀ e : Text, (c :: ds).length = 6 ∨
            ∀ d' ∈ (d :: v ++ e).head?, isHexDigit d' = false := fun e => hv
        have hdrop : ∀ e : Text, dropOneBlank (d :: v ++ e) = dropOneBlank (d :: v) ++ e := by
          intro e
          rw [List.cons_append, dropOneBlank, dropOneBlank]
          split <;> rfl
        rw [takeEscape_digits hall hlength (hhead b), takeEscape_digits hall hlength (hhead w),
          hdrop, hdrop]
        exact ⟨_, (IsRest.dropOneBlank (d :: v)).trans hrest, rfl, rfl⟩
      | nil =>
        -- the escape would take digits and a blank of the ends
        rw [List.nil_append] at hb ⊢
        have hb' : (c :: ds).length = 6 ∨ ∀ d ∈ b.head?, isHexDigit d = false := by
          by_contra hnot
          rw [not_or] at hnot
          refine hnot.2 fun d hd => ?_
          cases b with
          | nil => exact absurd hd (by simp)
          | cons d' b =>
            obtain rfl := Option.some_inj.mp hd
            by_contra hdigit
            have hle := length_takeEscape_digits_le (d := c) (ds ++ [d']) b
              (fun e he => ?_) ?_
            · rw [show c :: (ds ++ [d']) ++ b = c :: ds ++ d' :: b by simp] at hle
              rw [List.length_cons] at hb
              omega
            · rcases List.mem_append.mp (show e ∈ c :: ds ++ [d'] from he) with he | he
              · exact hall e he
              · rw [List.mem_singleton.mp he]
                exact Bool.not_eq_false _ ▸ hdigit
            · have := hnot.1
              simp only [List.length_cons, List.length_append, List.length_nil] at hlength this ⊢
              omega
        have hw' : (c :: ds).length = 6 ∨ ∀ d ∈ w.head?, isHexDigit d = false := by
          refine Or.inr fun d hd => ?_
          have hident := (hw d hd).1
          by_contra hdigit
          rw [isIdentChar_of_isHexDigit (Bool.not_eq_false _ ▸ hdigit)] at hident
          exact absurd hident (by simp)
        rw [takeEscape_digits hall hlength hb'] at hb ⊢
        rw [List.nil_append, takeEscape_digits hall hlength hw',
          dropOneBlank_of_not_blank (not_blank_of_length_dropOneBlank hb),
          dropOneBlank_of_not_blank hblank]
        exact ⟨[], hrest, rfl, rfl⟩

theorem takeIdent_backslash (r : Text) :
    takeIdent ('\\' :: r) = Text.onto (takeEscape r).1 (takeIdent (takeEscape r).2) := by
  rw [takeIdent, if_pos rfl]

theorem takeIdent_exchange {r : Text} (hr : Apart r b w) (hw : Detached w)
    (hb : b.length ≤ (takeIdent (r ++ b)).2.length) :
    ∃ r', IsRest r' r ∧ (takeIdent (r ++ b)).2 = r' ++ b ∧
      takeIdent (r ++ w) = ((takeIdent (r ++ b)).1, r' ++ w) := by
  induction hn : r.length using Nat.strong_induction_on generalizing r with
  | _ n ih =>
    subst hn
    cases r with
    | nil =>
      rw [List.nil_append] at hb ⊢
      have hident : takeIdent b = ([], b) := by
        cases b with
        | nil => rw [takeIdent]
        | cons d u =>
          obtain ⟨hident, hescape⟩ := not_isIdentChar_of_takeIdent hb d rfl
          rw [takeIdent_cons hescape, if_neg (by rw [hident]; exact Bool.false_ne_true)]
      rw [hident]
      exact ⟨[], .refl _, rfl, takeIdent_detached hw⟩
    | cons c r =>
      rw [List.cons_append] at hb ⊢
      rw [List.cons_append]
      by_cases hc : c = '\\'
      · subst hc
        rw [takeIdent_backslash] at hb ⊢
        rw [takeIdent_backslash, Text.onto_fst, Text.onto_snd]
        rw [Text.onto_snd] at hb
        have hle := length_takeIdent_snd_le (takeEscape (r ++ b)).2
        obtain ⟨r₁, hr₁, hrest, htake⟩ := takeEscape_exchange hr hw (Nat.le_trans hb hle)
        rw [hrest] at hb ⊢
        have hlt : r₁.length < ('\\' :: r).length := by
          have := length_takeEscape_snd_le (r ++ b)
          rw [hrest, List.length_append, List.length_append] at this
          rw [List.length_cons]
          omega
        obtain ⟨r', hr', hrest', htake'⟩ := ih r₁.length hlt (hr.rest hr₁) hb rfl
        refine ⟨r', hr'.trans hr₁, hrest', ?_⟩
        rw [htake, htake']
        rfl
      · rw [takeIdent_cons hc] at hb ⊢
        rw [takeIdent_cons hc]
        by_cases hident : isIdentChar c = true
        · rw [if_pos hident] at hb ⊢
          rw [if_pos hident]
          obtain ⟨r', hr', hrest, htake⟩ := ih r.length (Nat.lt_succ_self _) (hr.tail hc) hb rfl
          refine ⟨r', hr'.trans (.cons hc r), hrest, ?_⟩
          rw [htake]
          rfl
        · rw [if_neg hident, if_neg hident]
          exact ⟨c :: r, .refl _, rfl, rfl⟩

/-- An identifier is read if it is not empty. -/
theorem readIdent_eq_ok {kind : NameKind} {t name rest : Text} :
    readIdent kind t = .ok (name, rest) ↔ takeIdent t = (name, rest) ∧ name ≠ [] := by
  rw [readIdent]
  constructor
  · intro h
    split at h
    · exact absurd h (by simp)
    · rename_i hne
      have heq := Except.ok.inj h
      rw [heq] at hne
      exact ⟨heq, hne⟩
  · rintro ⟨heq, hne⟩
    rw [heq, if_neg hne]

theorem leavesUnread_readIdent (kind : NameKind) (hw : Detached w) :
    LeavesUnread (readIdent kind) b w := by
  intro r x rest hr hok hb
  obtain ⟨heq, hne⟩ := readIdent_eq_ok.mp hok
  obtain ⟨r', hr', hrest, htake⟩ := takeIdent_exchange hr hw (b := b) (by rw [heq]; exact hb)
  rw [heq] at hrest htake
  exact ⟨r', hr', hrest, readIdent_eq_ok.mpr ⟨htake, hne⟩⟩

theorem consumes_readIdent (kind : NameKind) : Consumes (readIdent kind) :=
  fun _ _ _ h => length_lt_of_readIdent h

theorem takeString?_cons {quote c : Char} (hquote : c ≠ quote) (hc : c ≠ '\\') (r : Text) :
    takeString? quote (c :: r) = (takeString? quote r).map (Text.onto c) := by
  rw [takeString?, if_neg hquote, if_neg hc]

theorem takeString?_backslash {quote : Char} (hquote : '\\' ≠ quote) (r : Text) :
    takeString? quote ('\\' :: r) =
      (takeString? quote (takeEscape r).2).map (Text.onto (takeEscape r).1) := by
  rw [takeString?, if_neg hquote, if_pos rfl]

theorem takeString?_exchange {quote : Char} (hquote : quote ≠ '\\') {r s rest : Text}
    (hr : Apart r b w) (hw : Detached w) (h : takeString? quote (r ++ b) = some (s, rest))
    (hb : b.length ≤ rest.length) :
    ∃ r', IsRest r' r ∧ rest = r' ++ b ∧ takeString? quote (r ++ w) = some (s, r' ++ w) := by
  induction hn : r.length using Nat.strong_induction_on generalizing r s with
  | _ n ih =>
    subst hn
    cases r with
    | nil =>
      have hlt := length_takeString?_snd_lt h
      rw [List.nil_append] at hlt
      omega
    | cons c r =>
      rw [List.cons_append] at h ⊢
      by_cases hclose : c = quote
      · rw [takeString?, if_pos hclose] at h ⊢
        obtain ⟨rfl, rfl⟩ := Prod.mk.inj (Option.some_inj.mp h)
        exact ⟨r, .cons (hclose ▸ hquote) r, rfl, rfl⟩
      by_cases hc : c = '\\'
      · subst hc
        rw [takeString?_backslash hclose] at h ⊢
        obtain ⟨⟨s', rest'⟩, htail, heq⟩ := Option.map_eq_some_iff.mp h
        obtain ⟨rfl, rfl⟩ := Prod.mk.inj heq
        have hle : rest'.length < (takeEscape (r ++ b)).2.length := length_takeString?_snd_lt htail
        obtain ⟨r₁, hr₁, hmid, htake⟩ :=
          takeEscape_exchange hr hw (Nat.le_of_lt (Nat.lt_of_le_of_lt hb hle))
        rw [hmid] at htail
        have hlt : r₁.length < ('\\' :: r).length := by
          have := length_takeEscape_snd_le (r ++ b)
          rw [hmid, List.length_append, List.length_append] at this
          rw [List.length_cons]
          omega
        obtain ⟨r', hr', hrest, htail'⟩ := ih r₁.length hlt (hr.rest hr₁) htail rfl
        refine ⟨r', hr'.trans hr₁, hrest, ?_⟩
        rw [htake, htail']
        rfl
      · rw [takeString?_cons hclose hc] at h ⊢
        obtain ⟨⟨s', rest'⟩, htail, heq⟩ := Option.map_eq_some_iff.mp h
        obtain ⟨rfl, rfl⟩ := Prod.mk.inj heq
        obtain ⟨r', hr', hrest, htail'⟩ := ih r.length (Nat.lt_succ_self _) (hr.tail hc) htail rfl
        refine ⟨r', hr'.trans (.cons hc r), hrest, ?_⟩
        rw [htail']
        rfl

/-! ### Attribute selectors -/

theorem leavesUnread_ok (x : α) :
    LeavesUnread (fun t => (.ok (x, t) : Except ε (α × Text))) b w := by
  intro r y rest _ hok _
  obtain ⟨rfl, rfl⟩ := Prod.mk.inj (Except.ok.inj hok)
  exact ⟨r, .refl _, rfl, rfl⟩

theorem consumes_readComparison : Consumes readComparison := by
  intro t x rest h
  cases t with
  | nil => exact absurd h (by simp [readComparison])
  | cons c r =>
    rw [readComparison] at h
    split at h
    · rw [← (Prod.mk.inj (Except.ok.inj h)).2]
      exact Nat.lt_succ_self _
    · split at h
      · rw [← (Prod.mk.inj (Except.ok.inj h)).2]
        exact Nat.lt_succ_self _
      · split at h
        · exact absurd h (by simp)
        · split at h
          · rw [← (Prod.mk.inj (Except.ok.inj h)).2, List.length_tail, List.length_cons]
            omega
          · exact absurd h (by simp)

theorem ne_backslash_of_ofChar? {c : Char} {k : Comparison} (h : Comparison.ofChar? c = some k) :
    c ≠ '\\' := by
  rintro rfl
  rw [show Comparison.ofChar? '\\' = none from by decide] at h
  exact absurd h (by simp)

theorem leavesUnread_readComparison : LeavesUnread readComparison b w := by
  intro r x rest hr hok hb
  cases r with
  | nil =>
    have hlt := consumes_readComparison _ _ _ hok
    rw [List.nil_append] at hlt
    omega
  | cons c r =>
    rw [List.cons_append, readComparison] at hok
    rw [List.cons_append, readComparison]
    by_cases hclose : c = ']'
    · rw [if_pos hclose] at hok ⊢
      obtain ⟨rfl, rfl⟩ := Prod.mk.inj (Except.ok.inj hok)
      exact ⟨r, .cons (hclose ▸ by decide) r, rfl, rfl⟩
    · rw [if_neg hclose] at hok ⊢
      by_cases hequals : c = '='
      · rw [if_pos hequals] at hok ⊢
        obtain ⟨rfl, rfl⟩ := Prod.mk.inj (Except.ok.inj hok)
        exact ⟨r, .cons (hequals ▸ by decide) r, rfl, rfl⟩
      · rw [if_neg hequals] at hok ⊢
        cases hkind : Comparison.ofChar? c with
        | none =>
          rw [hkind] at hok
          exact absurd hok (by simp)
        | some k =>
          simp only [hkind] at hok ⊢
          cases r with
          | nil =>
            -- the equals sign would stand in the end
            split at hok
            · obtain ⟨-, rfl⟩ := Prod.mk.inj (Except.ok.inj hok)
              rename_i hhead
              cases b with
              | nil => exact absurd hhead (by simp)
              | cons d b =>
                rw [List.nil_append, List.tail_cons, List.length_cons] at hb
                omega
            · exact absurd hok (by simp)
          | cons d r =>
            rw [List.cons_append, List.head?_cons, List.tail_cons] at hok ⊢
            split at hok
            · rename_i hhead
              obtain ⟨rfl, rfl⟩ := Prod.mk.inj (Except.ok.inj hok)
              have hd : d ≠ '\\' := by
                rw [Option.some_inj.mp hhead]
                decide
              exact ⟨r, (IsRest.cons hd r).trans (.cons (ne_backslash_of_ofChar? hkind) _), rfl,
                if_pos hhead⟩
            · exact absurd hok (by simp)

theorem consumes_readValue : Consumes readValue := by
  intro t x rest h
  cases t with
  | nil => exact absurd h (by simp [readValue])
  | cons c r =>
    rw [readValue] at h
    split at h
    · split at h
      · rename_i taken found
        obtain rfl := Except.ok.inj h
        have := length_takeString?_snd_lt found
        rw [List.length_cons]
        omega
      · exact absurd h (by simp)
    · split at h
      · exact length_lt_of_readIdent h
      · exact absurd h (by simp)

/-- Whether a name can start is seen from its first two characters. -/
theorem startsIdent_exchange {c : Char} {r x rest : Text} {kind : NameKind}
    (h : startsIdent (c :: r ++ b) = true)
    (hok : readIdent kind (c :: r ++ b) = .ok (x, rest)) (hb : b.length ≤ rest.length) :
    startsIdent (c :: r ++ w) = true := by
  cases r with
  | cons d r => exact h
  | nil =>
    rw [List.singleton_append] at h hok ⊢
    have heq : (takeIdent (c :: b)).2 = rest := by rw [(readIdent_eq_ok.mp hok).1]
    by_cases hescape : c = '\\'
    · -- the escape would take a character of the end
      subst hescape
      rw [takeIdent_backslash, Text.onto_snd] at heq
      have hle := length_takeIdent_snd_le (takeEscape b).2
      cases b with
      | nil => exact absurd h (by decide)
      | cons d u =>
        have hlt := length_takeEscape_snd_lt d u
        rw [heq] at hle
        omega
    by_cases hminus : c = '-'
    · -- the name would go on in the end
      subst hminus
      rw [takeIdent_cons hescape, if_pos (by decide), Text.onto_snd] at heq
      rw [← heq] at hb
      cases b with
      | nil => exact absurd h (by decide)
      | cons d u =>
        obtain ⟨hident, hescape⟩ := not_isIdentChar_of_takeIdent hb d rfl
        rw [isIdentChar, Bool.or_eq_false_iff, Bool.or_eq_false_iff] at hident
        rw [startsIdent, if_pos rfl, hident.1.1, hident.2, beq_eq_false_iff_ne.mpr hescape] at h
        exact absurd h (by decide)
    · rw [startsIdent_cons hminus hescape] at h ⊢
      exact h

theorem leavesUnread_readValue (hw : Detached w) : LeavesUnread readValue b w := by
  intro r x rest hr hok hb
  cases r with
  | nil =>
    have hlt := consumes_readValue _ _ _ hok
    rw [List.nil_append] at hlt
    omega
  | cons c r =>
    rw [List.cons_append, readValue] at hok
    rw [List.cons_append, readValue]
    by_cases hquote : c = '"' ∨ c = '\''
    · have hc : c ≠ '\\' := by rcases hquote with rfl | rfl <;> decide
      rw [if_pos hquote] at hok ⊢
      cases hstring : takeString? c (r ++ b) with
      | none =>
        rw [hstring] at hok
        exact absurd hok (by simp)
      | some taken =>
        rw [hstring] at hok
        obtain rfl := Except.ok.inj hok
        obtain ⟨r', hr', hrest, hstring'⟩ := takeString?_exchange hc (hr.tail hc) hw
          hstring hb
        refine ⟨r', hr'.trans (.cons hc r), hrest, ?_⟩
        rw [hstring']
    · rw [if_neg hquote] at hok ⊢
      split at hok
      · rename_i hstart
        rw [← List.cons_append] at hstart hok ⊢
        have hstart' : (startsIdent (c :: r ++ w) || c.isDigit) = true := by
          rcases Bool.or_eq_true_iff.mp hstart with hstart | hdigit
          · rw [startsIdent_exchange hstart hok hb, Bool.true_or]
          · rw [hdigit, Bool.or_true]
        rw [if_pos hstart']
        exact leavesUnread_readIdent _ hw (c :: r) x rest hr hok hb
      · exact absurd hok (by simp)

/-- What ends an attribute selector: the letter for letter case, and the bracket. -/
def readFlag (t : Text) : Except Error (Bool × Text) :=
  (readClosingBracket (readCaseFlag t).2).map fun rest => ((readCaseFlag t).1, rest)

theorem consumes_readFlag : Consumes readFlag := by
  intro t x rest h
  obtain ⟨rest', hclose, heq⟩ := Outcome.map_eq_ok.mp h
  obtain ⟨-, rfl⟩ := Prod.mk.inj heq
  have := length_lt_of_readClosingBracket hclose
  have := length_readCaseFlag_le t
  omega

theorem leavesUnread_readClosingBracket :
    LeavesUnread (fun t => (readClosingBracket t).map fun rest => ((), rest)) b w := by
  intro r x rest hr hok hb
  obtain ⟨rest', hclose, heq⟩ := Outcome.map_eq_ok.mp hok
  obtain ⟨-, rfl⟩ := Prod.mk.inj heq
  cases r with
  | nil =>
    have hlt := length_lt_of_readClosingBracket hclose
    rw [List.nil_append] at hlt
    omega
  | cons c r =>
    rw [List.cons_append, readClosingBracket] at hclose
    split at hclose
    · rename_i hc
      refine ⟨r, .cons (hc ▸ by decide) r, (Except.ok.inj hclose).symm, ?_⟩
      show (readClosingBracket (c :: (r ++ w))).map _ = _
      rw [readClosingBracket, if_pos hc]
      rfl
    · exact absurd hclose (by simp)

theorem leavesUnread_readFlag : LeavesUnread readFlag b w := by
  have hclosing : LeavesUnread
      (fun t => (readClosingBracket (Text.trimStart t)).map fun rest => ((), rest)) b w := by
    refine leavesUnread_readClosingBracket.trimStart fun t x rest h => ?_
    obtain ⟨rest', hclose, heq⟩ := Outcome.map_eq_ok.mp h
    obtain ⟨-, rfl⟩ := Prod.mk.inj heq
    exact length_lt_of_readClosingBracket hclose
  intro r x rest hr hok hb
  cases r with
  | nil =>
    have hlt := consumes_readFlag _ _ _ hok
    rw [List.nil_append] at hlt
    omega
  | cons c r =>
    -- with a letter the bracket is looked for behind it, else right here
    have hletter : ∀ flag : Bool, c ≠ '\\' →
        (∀ u : Text, readCaseFlag (c :: u) = (flag, Text.trimStart u)) →
        ∃ r', IsRest r' (c :: r) ∧ rest = r' ++ b ∧ readFlag (c :: r ++ w) = .ok (x, r' ++ w) := by
      intro flag hc hflag
      rw [List.cons_append, readFlag, hflag] at hok
      obtain ⟨rest', hclose, heq⟩ := Outcome.map_eq_ok.mp hok
      obtain ⟨rfl, rfl⟩ := Prod.mk.inj heq
      obtain ⟨r', hsuffix, hrest, hclose'⟩ := hclosing r () rest' (hr.tail hc)
        (Outcome.map_eq_ok.mpr ⟨_, hclose, rfl⟩) hb
      obtain ⟨rest'', hclose'', heq'⟩ := Outcome.map_eq_ok.mp hclose'
      refine ⟨r', hsuffix.trans (.cons hc r), hrest, ?_⟩
      rw [List.cons_append, readFlag, hflag]
      exact Outcome.map_eq_ok.mpr ⟨_, hclose'', by rw [(Prod.mk.inj heq').2]⟩
    by_cases hi : c = 'i' ∨ c = 'I'
    · exact hletter true (by rcases hi with rfl | rfl <;> decide) fun u => by
        rw [readCaseFlag, if_pos hi]
    · by_cases hs : c = 's' ∨ c = 'S'
      · exact hletter false (by rcases hs with rfl | rfl <;> decide) fun u => by
          rw [readCaseFlag, if_neg hi, if_pos hs]
      · have hflag : ∀ u : Text, readCaseFlag (c :: u) = (false, c :: u) := fun u => by
          rw [readCaseFlag, if_neg hi, if_neg hs]
        rw [List.cons_append, readFlag, hflag] at hok
        obtain ⟨rest', hclose, heq⟩ := Outcome.map_eq_ok.mp hok
        obtain ⟨rfl, rfl⟩ := Prod.mk.inj heq
        obtain ⟨r', hsuffix, hrest, hclose'⟩ := leavesUnread_readClosingBracket (c :: r) () rest' hr
          (Outcome.map_eq_ok.mpr ⟨_, hclose, rfl⟩) hb
        obtain ⟨rest'', hclose'', heq'⟩ := Outcome.map_eq_ok.mp hclose'
        refine ⟨r', hsuffix, hrest, ?_⟩
        rw [List.cons_append, readFlag, hflag]
        exact Outcome.map_eq_ok.mpr ⟨_, hclose'', by rw [(Prod.mk.inj heq').2]⟩

/-- What follows the comparison of an attribute selector. -/
def finishAttribute (name : Text) : Option Comparison → Text → Except Error (AttributeTest × Text)
  | none, t => .ok (⟨Text.lower name, none, false⟩, t)
  | some comparison, t =>
    readValue (Text.trimStart t) >>= fun value =>
      readFlag (Text.trimStart value.2) >>= fun flag =>
        .ok (⟨Text.lower name, some (comparison, value.1), flag.1⟩, flag.2)

theorem readAttribute_eq (t : Text) :
    readAttribute t =
      readIdent .attributeName (Text.trimStart t) >>= fun name =>
        readComparison (Text.trimStart name.2) >>= fun comparison =>
          finishAttribute name.1 comparison.1 comparison.2 := by
  unfold readAttribute
  refine congrArg _ (funext fun name => ?_)
  simp only
  refine congrArg _ (funext fun comparison => ?_)
  obtain ⟨k, t⟩ := comparison
  cases k with
  | none => rfl
  | some k =>
    simp only [finishAttribute, readFlag]
    refine congrArg _ (funext fun value => ?_)
    cases readClosingBracket (readCaseFlag (Text.trimStart value.2)).2 <;> rfl

theorem Consumes.trimStart {read : Text → Except ε (α × Text)} (h : Consumes read) :
    Consumes fun t => read (Text.trimStart t) := fun t _ _ hok =>
  Nat.lt_of_lt_of_le (h _ _ _ hok) (Text.length_trimStart_le t)

theorem length_finishAttribute_le {name : Text} {k : Option Comparison} {t rest : Text}
    {test : AttributeTest} (h : finishAttribute name k t = .ok (test, rest)) :
    rest.length ≤ t.length := by
  cases k with
  | none => rw [← (Prod.mk.inj (Except.ok.inj h)).2]
  | some k =>
    obtain ⟨value, hvalue, h⟩ := Outcome.bind_eq_ok.mp h
    obtain ⟨flag, hflag, h⟩ := Outcome.bind_eq_ok.mp h
    rw [← (Prod.mk.inj (Except.ok.inj h)).2]
    have h₁ := consumes_readValue.trimStart t value.1 value.2 hvalue
    have h₂ := consumes_readFlag.trimStart value.2 flag.1 flag.2 hflag
    omega

theorem leavesUnread_finishAttribute (name : Text) (k : Option Comparison)
    (hw : Detached w) : LeavesUnread (finishAttribute name k) b w := by
  cases k with
  | none => exact leavesUnread_ok _
  | some k =>
    have hflag : ∀ value : Text, LeavesUnread (fun t =>
        readFlag (Text.trimStart t) >>= fun flag =>
          (.ok ((⟨Text.lower name, some (k, value), flag.1⟩ : AttributeTest), flag.2) :
            Except Error (AttributeTest × Text))) b w := by
      intro value
      refine (leavesUnread_readFlag.trimStart consumes_readFlag).bind
        (fun flag => leavesUnread_ok (⟨Text.lower name, some (k, value), flag⟩ : AttributeTest)) ?_
      intro flag t y rest h
      rw [(Prod.mk.inj (Except.ok.inj h)).2]
    refine ((leavesUnread_readValue hw).trimStart consumes_readValue).bind hflag ?_
    intro value t y rest h
    obtain ⟨flag, hflag, h⟩ := Outcome.bind_eq_ok.mp h
    rw [← (Prod.mk.inj (Except.ok.inj h)).2]
    exact Nat.le_of_lt (consumes_readFlag.trimStart t flag.1 flag.2 hflag)

theorem leavesUnread_readAttribute (hw : Detached w) : LeavesUnread readAttribute b w := by
  have hcomparison : ∀ name : Text, LeavesUnread (fun t =>
      readComparison (Text.trimStart t) >>= fun comparison =>
        finishAttribute name comparison.1 comparison.2) b w := by
    intro name
    refine (leavesUnread_readComparison.trimStart consumes_readComparison).bind
      (fun k => leavesUnread_finishAttribute name k hw) ?_
    intro k t y rest h
    exact length_finishAttribute_le h
  rw [funext readAttribute_eq]
  refine ((leavesUnread_readIdent _ hw).trimStart (consumes_readIdent _)).bind hcomparison ?_
  intro name t y rest h
  obtain ⟨k, hk, h⟩ := Outcome.bind_eq_ok.mp h
  have h₁ := consumes_readComparison.trimStart t k.1 k.2 hk
  have h₂ := length_finishAttribute_le h
  omega

/-! ### Pseudo-classes -/

/-- The text behind a reader, with the backslash that it has just passed over. -/
def owing (s : Nesting) (r : Text) : Text := if s.escaped then '\\' :: r else r

theorem endsInEscape_owing {s : Nesting} {c : Char} {r : Text}
    (h : endsInEscape (owing s (c :: r)) = false) :
    endsInEscape (owing (s.step .round c) r) = false := by
  unfold owing at h ⊢
  cases hs : s.escaped with
  | true =>
    rw [hs, if_pos rfl, endsInEscape_escape] at h
    rw [Nesting.step, if_pos hs]
    exact h
  | false =>
    have hescaped : ¬ s.escaped = true := by
      rw [hs]
      exact Bool.false_ne_true
    rw [hs, if_neg Bool.false_ne_true] at h
    by_cases hc : c = '\\'
    · subst hc
      rw [Nesting.step, if_neg hescaped, if_pos rfl]
      exact h
    · have hsettled : (s.step .round c).escaped = false := by
        rw [Nesting.step, if_neg hescaped, if_neg hc]
        grind
      rw [endsInEscape_cons hc] at h
      rw [hsettled]
      exact h

theorem takeArgument?_exchange {s : Nesting} {r a rest : Text}
    (h : takeArgument? s (r ++ b) = some (a, rest)) (hb : b.length ≤ rest.length) :
    ∃ r', r' <:+ r ∧ (endsInEscape (owing s r) = false → endsInEscape r' = false) ∧
      rest = r' ++ b ∧ takeArgument? s (r ++ w) = some (a, r' ++ w) := by
  induction r generalizing s a with
  | nil =>
    have hlt := length_lt_of_takeArgument? h
    rw [List.nil_append] at hlt
    omega
  | cons c r ih =>
    rw [List.cons_append, takeArgument?] at h
    rw [List.cons_append, takeArgument?]
    by_cases hclose : s.isTop = true ∧ c = ')'
    · rw [if_pos hclose] at h ⊢
      obtain ⟨rfl, rfl⟩ := Prod.mk.inj (Option.some_inj.mp h)
      refine ⟨r, List.suffix_cons .., fun hescape => ?_, rfl, rfl⟩
      obtain ⟨htop, rfl⟩ := hclose
      have hs : s.escaped = false := by
        rw [Nesting.isTop, Bool.and_eq_true, Bool.not_eq_true'] at htop
        exact htop.2
      rw [owing, hs, if_neg Bool.false_ne_true, endsInEscape_cons (by decide)] at hescape
      exact hescape
    · rw [if_neg hclose] at h ⊢
      obtain ⟨⟨a', rest'⟩, htail, heq⟩ := Option.map_eq_some_iff.mp h
      obtain ⟨rfl, rfl⟩ := Prod.mk.inj heq
      obtain ⟨r', hr', hescape, hrest, htail'⟩ := ih htail
      refine ⟨r', hr'.trans (List.suffix_cons ..), fun hr => hescape (endsInEscape_owing hr),
        hrest, ?_⟩
      rw [htail']
      rfl

/-- An argument has to follow its name at once. -/
theorem readArgument_cons {c : Char} (hc : c ≠ '(') (r : Text) :
    readArgument (c :: r) = .ok (none, c :: r) := by
  rw [readArgument, if_neg hc]

theorem leavesUnread_readArgument (hw : Detached w) : LeavesUnread readArgument b w := by
  intro r x rest hr hok hb
  cases r with
  | nil =>
    have hnone : readArgument w = .ok (none, w) := by
      cases w with
      | nil => rfl
      | cons d u => exact readArgument_cons (hw d rfl).2.2 u
    rw [List.nil_append] at hok
    cases b with
    | nil =>
      obtain ⟨rfl, rfl⟩ := Prod.mk.inj (Except.ok.inj hok)
      exact ⟨[], .refl _, rfl, hnone⟩
    | cons d u =>
      by_cases hopen : d = '('
      · rw [readArgument, if_pos hopen] at hok
        cases hargument : takeArgument? .top u with
        | none =>
          rw [hargument] at hok
          exact absurd hok (by simp)
        | some taken =>
          rw [hargument] at hok
          have hlt := length_lt_of_takeArgument? hargument
          rw [(Prod.mk.inj (Except.ok.inj hok)).2] at hlt
          rw [List.length_cons] at hb
          omega
      · rw [readArgument_cons hopen] at hok
        obtain ⟨rfl, rfl⟩ := Prod.mk.inj (Except.ok.inj hok)
        exact ⟨[], .refl _, rfl, hnone⟩
  | cons c r =>
    by_cases hopen : c = '('
    · rw [List.cons_append, readArgument, if_pos hopen] at hok
      rw [List.cons_append, readArgument, if_pos hopen]
      cases hargument : takeArgument? .top (r ++ b) with
      | none =>
        rw [hargument] at hok
        exact absurd hok (by simp)
      | some taken =>
        rw [hargument] at hok
        obtain ⟨rfl, rfl⟩ := Prod.mk.inj (Except.ok.inj hok)
        obtain ⟨r', hr', hescape, hrest, hargument'⟩ :=
          takeArgument?_exchange (w := w) hargument hb
        refine ⟨r', IsRest.trans ⟨hr', hescape⟩ (.cons (hopen ▸ by decide) r), hrest, ?_⟩
        rw [hargument']
    · rw [List.cons_append, readArgument_cons hopen] at hok ⊢
      obtain ⟨rfl, rfl⟩ := Prod.mk.inj (Except.ok.inj hok)
      exact ⟨c :: r, .refl _, rfl, rfl⟩

/-- The condition behind one colon or two that a name and an argument stand for. -/
def conditionOf (isElement : Bool) (name : Text) (argument : Option Text) : Except Error Simple :=
  if isElement then
    if isPseudoElement name then .ok .never else .error (.unknownPseudoElement (Text.lower name))
  else pseudoClassOf (Text.lower name) argument

/-- Reads a pseudo-class or a pseudo-element after its colons. -/
def readNamed (isElement : Bool) (t : Text) : Except Error (Simple × Text) :=
  readIdent .pseudoClassName t >>= fun name =>
    readArgument name.2 >>= fun argument =>
      conditionOf isElement name.1 argument.1 >>= fun condition => .ok (condition, argument.2)

theorem readNamed_eq_ok {isElement : Bool} {t rest : Text} {x : Simple} :
    readNamed isElement t = .ok (x, rest) ↔
      ∃ name mid a, readIdent .pseudoClassName t = .ok (name, mid) ∧
        readArgument mid = .ok (a, rest) ∧ conditionOf isElement name a = .ok x := by
  constructor
  · intro h
    obtain ⟨⟨name, mid⟩, hname, h⟩ := Outcome.bind_eq_ok.mp h
    obtain ⟨⟨a, rest'⟩, hargument, h⟩ := Outcome.bind_eq_ok.mp h
    obtain ⟨condition, hcondition, h⟩ := Outcome.bind_eq_ok.mp h
    obtain ⟨rfl, rfl⟩ := Prod.mk.inj (Except.ok.inj h)
    exact ⟨name, mid, a, hname, hargument, hcondition⟩
  · rintro ⟨name, mid, a, hname, hargument, hcondition⟩
    exact Outcome.bind_eq_ok.mpr ⟨_, hname, Outcome.bind_eq_ok.mpr ⟨_, hargument,
      Outcome.bind_eq_ok.mpr ⟨_, hcondition, rfl⟩⟩⟩

theorem readPseudo_eq (t : Text) :
    readPseudo t = if t.head? = some ':' then readNamed true t.tail else readNamed false t := by
  by_cases helement : t.head? = some ':'
  · rw [if_pos helement]
    unfold readPseudo readNamed
    simp only [helement, beq_self_eq_true, if_pos]
    refine congrArg _ (funext fun name => congrArg _ (funext fun argument => ?_))
    unfold conditionOf
    rw [if_pos rfl]
    split <;> rfl
  · rw [if_neg helement]
    unfold readPseudo readNamed
    simp only [beq_eq_false_iff_ne.mpr helement]
    rfl

theorem length_conditionOf_le {isElement : Bool} {name t rest : Text} {a : Option Text}
    {x : Simple}
    (h : (conditionOf isElement name a >>= fun condition => .ok (condition, t)) = .ok (x, rest)) :
    rest.length ≤ t.length := by
  obtain ⟨condition, -, h⟩ := Outcome.bind_eq_ok.mp h
  rw [(Prod.mk.inj (Except.ok.inj h)).2]

theorem consumes_readNamed (isElement : Bool) : Consumes (readNamed isElement) := by
  intro t x rest h
  obtain ⟨name, hname, h⟩ := Outcome.bind_eq_ok.mp h
  obtain ⟨argument, hargument, h⟩ := Outcome.bind_eq_ok.mp h
  have h₁ := length_lt_of_readIdent hname
  have h₂ := length_le_of_readArgument hargument
  have h₃ := length_conditionOf_le h
  omega

theorem leavesUnread_readNamed (isElement : Bool) (hw : Detached w) :
    LeavesUnread (readNamed isElement) b w := by
  have hcondition : ∀ (name : Text) (argument : Option Text), LeavesUnread (fun t =>
      conditionOf isElement name argument >>= fun condition =>
        (.ok (condition, t) : Except Error (Simple × Text))) b w := by
    intro name argument r x rest _ hok _
    obtain ⟨condition, hcondition, heq⟩ := Outcome.bind_eq_ok.mp hok
    obtain ⟨rfl, rfl⟩ := Prod.mk.inj (Except.ok.inj heq)
    exact ⟨r, .refl _, rfl, Outcome.bind_eq_ok.mpr ⟨_, hcondition, rfl⟩⟩
  have hargument : ∀ name : Text, LeavesUnread (fun t =>
      readArgument t >>= fun argument =>
        conditionOf isElement name argument.1 >>= fun condition =>
          (.ok (condition, argument.2) : Except Error (Simple × Text))) b w := by
    intro name
    refine (leavesUnread_readArgument hw).bind (hcondition name) ?_
    intro argument t y rest h
    exact length_conditionOf_le h
  refine (leavesUnread_readIdent _ hw).bind hargument ?_
  intro name t y rest h
  obtain ⟨argument, hargument, h⟩ := Outcome.bind_eq_ok.mp h
  have h₁ := length_le_of_readArgument hargument
  have h₂ := length_conditionOf_le h
  omega

theorem leavesUnread_readPseudo (hw : Detached w) : LeavesUnread readPseudo b w := by
  intro r x rest hr hok hb
  cases r with
  | nil =>
    have hlt := length_lt_of_readPseudo hok
    rw [List.nil_append] at hlt
    omega
  | cons c r =>
    rw [readPseudo_eq, List.cons_append, List.head?_cons, List.tail_cons] at hok
    rw [readPseudo_eq, List.cons_append, List.head?_cons, List.tail_cons]
    split at hok
    · rename_i helement
      have hc : c ≠ '\\' := by
        rw [Option.some_inj.mp helement]
        decide
      rw [if_pos helement]
      obtain ⟨r', hr', hrest, hok'⟩ :=
        leavesUnread_readNamed true hw r x rest (hr.tail hc) hok hb
      exact ⟨r', hr'.trans (.cons hc r), hrest, hok'⟩
    · rename_i helement
      rw [if_neg helement]
      exact leavesUnread_readNamed false hw (c :: r) x rest hr hok hb

/-! ### Compounds -/

/-- A reader behind the first character. -/
theorem LeavesUnread.cons {read : Text → Except ε (α × Text)} (h : LeavesUnread read b w)
    {c : Char} {r rest : Text} {x : α} (hc : c ≠ '\\') (hr : Apart (c :: r) b w)
    (hok : read (r ++ b) = .ok (x, rest)) (hb : b.length ≤ rest.length) :
    ∃ r', IsRest r' (c :: r) ∧ rest = r' ++ b ∧ read (r ++ w) = .ok (x, r' ++ w) := by
  obtain ⟨r', hr', hrest, hread⟩ := h r x rest (hr.tail hc) hok hb
  exact ⟨r', hr'.trans (.cons hc r), hrest, hread⟩

theorem readSimple_exchange {isFirst : Bool} {r rest : Text} {x : Simple} (hr : Apart r b w)
    (hw : Detached w) (hok : readSimple isFirst (r ++ b) = .ok (some (x, rest)))
    (hb : b.length ≤ rest.length) :
    ∃ r', IsRest r' r ∧ rest = r' ++ b ∧ readSimple isFirst (r ++ w) = .ok (some (x, r' ++ w)) := by
  cases r with
  | nil =>
    have hlt := length_lt_of_readSimple hok
    rw [List.nil_append] at hlt
    omega
  | cons c r =>
    simp only [readSimple_eq_some_iff, List.cons_append] at hok ⊢
    cases hok with
    | universal => exact ⟨r, .cons (by decide) r, rfl, .universal⟩
    | hasClass hread =>
      obtain ⟨r', hr', hrest, hread'⟩ :=
        (leavesUnread_readIdent _ hw).cons (by decide) hr hread hb
      exact ⟨r', hr', hrest, .hasClass hread'⟩
    | hasId hread =>
      obtain ⟨r', hr', hrest, hread'⟩ :=
        (leavesUnread_readIdent _ hw).cons (by decide) hr hread hb
      exact ⟨r', hr', hrest, .hasId hread'⟩
    | test hread =>
      obtain ⟨r', hr', hrest, hread'⟩ :=
        (leavesUnread_readAttribute hw).cons (by decide) hr hread hb
      exact ⟨r', hr', hrest, .test hread'⟩
    | pseudo hread =>
      obtain ⟨r', hr', hrest, hread'⟩ := (leavesUnread_readPseudo hw).cons (by decide) hr hread hb
      exact ⟨r', hr', hrest, .pseudo hread'⟩
    | tag hstart hread =>
      obtain ⟨r', hr', hrest, hread'⟩ := leavesUnread_readIdent _ hw (c :: r) _ rest hr hread hb
      exact ⟨r', hr', hrest, .tag (startsIdent_exchange hstart hread hb) hread'⟩

/-- The conditions of a compound. If all of the text is read, reading goes on in the end. -/
theorem readConditions_exchange {isFirst : Bool} {r rest : Text} {x : Compound} (hr : Apart r b w)
    (hw : Detached w) (hok : readConditions isFirst (r ++ b) = .ok (x, rest))
    (hb : b.length ≤ rest.length) :
    ∃ r', IsRest r' r ∧ rest = r' ++ b ∧
      readConditions isFirst (r ++ w) =
        if r' = [] then
          (readConditions (isFirst && r.isEmpty) w).map fun more => (x ++ more.1, more.2)
        else .ok (x, r' ++ w) := by
  have hread := readsConditions_of_readConditions hok
  clear hok
  generalize hall : r ++ b = t at hread
  induction hread generalizing r with
  | done hnone =>
    subst hall
    refine ⟨r, .refl _, rfl, ?_⟩
    cases r with
    | nil =>
      rw [if_pos rfl, List.nil_append, List.isEmpty_nil, Bool.and_true]
      cases readConditions _ w <;> rfl
    | cons c r =>
      rw [if_neg (List.cons_ne_nil _ _)]
      exact readConditions_of_none (readSimple_none_cons hnone (r ++ w))
  | more hsome hmore ih =>
    subst hall
    have hmid := length_le_of_readConditions hmore.readConditions_eq
    obtain ⟨r₁, hr₁, rfl, hsome'⟩ := readSimple_exchange hr hw hsome (by omega)
    obtain ⟨r', hr', hrest, hmore'⟩ := ih (hr.rest hr₁) hb rfl
    refine ⟨r', hr'.trans hr₁, hrest, ?_⟩
    have hne : r.isEmpty = false := by
      have hlt := length_lt_of_readSimple hsome
      cases r with
      | nil =>
        rw [List.nil_append, List.length_append] at hlt
        omega
      | cons c r => rfl
    rw [readConditions_of_some hsome', hmore', hne, Bool.and_false, Bool.false_and]
    split
    · cases readConditions false w <;> rfl
    · rfl

/-! ### What is left is an end of the text -/

theorem detached_nil : Detached [] := by
  rintro c ⟨⟩

theorem isRest_of_readSimple {isFirst : Bool} {t rest : Text} {x : Simple}
    (h : readSimple isFirst t = .ok (some (x, rest))) : IsRest rest t := by
  rw [← List.append_nil t] at h
  obtain ⟨r', hr, hrest, -⟩ :=
    readSimple_exchange (apart_nil t []) detached_nil h (Nat.zero_le _)
  rw [hrest, List.append_nil]
  exact hr

theorem isRest_of_readConditions {isFirst : Bool} {t rest : Text} {x : Compound}
    (h : readConditions isFirst t = .ok (x, rest)) : IsRest rest t := by
  rw [← List.append_nil t] at h
  obtain ⟨r', hr, hrest, -⟩ :=
    readConditions_exchange (apart_nil t []) detached_nil h (Nat.zero_le _)
  rw [hrest, List.append_nil]
  exact hr

end Css
end CosmeticFilter
