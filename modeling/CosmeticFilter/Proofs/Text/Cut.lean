import CosmeticFilter.Text.Nesting
import CosmeticFilter.Proofs.Text.Trim

/-!
# Cutting a text that goes on

A reader that has found its place in a text finds the same place when the text goes on, and one that
has not found it goes on in the state that it has reached.

* `cut_append_of_some`, `cut_append_of_none`: the first character outside everything;
* `cutFirst_append_of_some`, `cutFirst_eq_none_iff`, `cutFirst_eq_some_iff`: the first character of
  all;
* `cut_eq_none_of_forall`, `after_of_not_isDelimiter`: texts without what is looked for;
* `Uncut`: texts that the reader passes over, and that are put together;
* `Covers`: texts whose colons and closing brackets all stand inside something;
* `after_trimStart`, `cut_append_blank`: blanks at the ends do not count.
-/

namespace CosmeticFilter

namespace Text

variable {p : Char → Bool}

theorem cutFirst_append_of_some {t x y : Text} (h : cutFirst p t = some (x, y)) (u : Text) :
    cutFirst p (t ++ u) = some (x, y ++ u) := by
  induction t generalizing x with
  | nil => simp [cutFirst] at h
  | cons c r ih =>
    rw [List.cons_append, cutFirst]
    rw [cutFirst] at h
    by_cases hc : p c = true
    · rw [if_pos hc] at h ⊢
      obtain ⟨rfl, rfl⟩ := Prod.mk.inj (Option.some_inj.mp h)
      rfl
    · rw [if_neg hc] at h ⊢
      obtain ⟨⟨x', y'⟩, hcut, heq⟩ := Option.map_eq_some_iff.mp h
      obtain ⟨rfl, rfl⟩ := Prod.mk.inj heq
      rw [ih hcut]
      rfl

theorem cutFirst_eq_none_iff {t : Text} : cutFirst p t = none ↔ ∀ c ∈ t, p c = false := by
  induction t with
  | nil => simp [cutFirst]
  | cons c r ih =>
    rw [cutFirst, List.forall_mem_cons]
    by_cases hc : p c = true
    · rw [if_pos hc]
      simp [hc]
    · rw [if_neg hc, Option.map_eq_none_iff, ih]
      simp [hc]

/-- A text is cut at a character if that is the first one of its kind. -/
theorem cutFirst_eq_some_iff {t x y : Text} :
    cutFirst p t = some (x, y) ↔
      ∃ c, p c = true ∧ (∀ b ∈ x, p b = false) ∧ t = x ++ c :: y := by
  constructor
  · intro h
    obtain ⟨c, hc, rfl⟩ := cutFirst_eq_some h
    refine ⟨c, hc, cutFirst_eq_none_iff.mp ?_, rfl⟩
    -- Otherwise the cut is in front, and what stands before it is shorter.
    cases hx : cutFirst p x with
    | none => rfl
    | some cut =>
      rw [cutFirst_append_of_some hx] at h
      obtain ⟨b, -, hcut⟩ := cutFirst_eq_some hx
      have hlength := congrArg List.length hcut
      rw [(Prod.mk.inj (Option.some_inj.mp h)).1, List.length_append, List.length_cons] at hlength
      omega
  · rintro ⟨c, hc, hx, rfl⟩
    induction x with
    | nil => rw [List.nil_append, cutFirst, if_pos hc]
    | cons b x ih =>
      obtain ⟨hb, hx⟩ := List.forall_mem_cons.mp hx
      rw [List.cons_append, cutFirst, hb, ih hx]
      rfl

/-- A character of two texts that are put together stands in the first one or in the second. -/
theorem append_eq_append_cons {t u x y : Text} {c : Char} (h : t ++ u = x ++ c :: y) :
    (∃ y', t = x ++ c :: y' ∧ y = y' ++ u) ∨ ∃ x', x = t ++ x' ∧ u = x' ++ c :: y := by
  rcases List.append_eq_append_iff.mp h with ⟨x', hx, hu⟩ | ⟨z, ht, hz⟩
  · exact Or.inr ⟨x', hx, hu⟩
  · cases z with
    | nil => exact Or.inr ⟨[], by rw [ht, List.append_nil, List.append_nil], hz.symm⟩
    | cons d y' =>
      obtain ⟨rfl, rfl⟩ := List.cons.inj hz
      exact Or.inl ⟨y', ht, rfl⟩

end Text

namespace Nesting

variable {b : Brackets} {p : Char → Bool} {s : Nesting}

theorem cut_append_of_some {t x y : Text} {d : Char} (h : cut b p s t = some (x, d, y))
    (u : Text) : cut b p s (t ++ u) = some (x, d, y ++ u) := by
  induction t generalizing s x with
  | nil => simp [cut] at h
  | cons c r ih =>
    rw [List.cons_append, cut]
    rw [cut] at h
    by_cases hc : cutsAt b p s c = true
    · rw [if_pos hc] at h ⊢
      obtain ⟨rfl, rfl, rfl⟩ := h
      rfl
    · rw [if_neg hc] at h ⊢
      obtain ⟨⟨x', d', y'⟩, hcut, heq⟩ := Option.map_eq_some_iff.mp h
      obtain ⟨rfl, rfl, rfl⟩ := heq
      rw [ih hcut]
      rfl

theorem cut_append_of_none {t : Text} (h : cut b p s t = none) (u : Text) :
    cut b p s (t ++ u) =
      (cut b p (after b s t) u).map fun (x, d, y) => (t ++ x, d, y) := by
  induction t generalizing s with
  | nil =>
    rw [List.nil_append]
    exact (Option.map_id' ..).symm
  | cons c r ih =>
    rw [cut] at h
    by_cases hc : cutsAt b p s c = true
    · rw [if_pos hc] at h
      exact absurd h (by simp)
    · rw [if_neg hc, Option.map_eq_none_iff] at h
      rw [List.cons_append, cut, if_neg hc, ih h, Option.map_map, after_cons]
      rfl

/-- The character at which a text is cut is one of those asked for. -/
theorem prop_of_cut {t x y : Text} {d : Char} (h : cut b p s t = some (x, d, y)) :
    p d = true := by
  induction t generalizing s x with
  | nil => simp [cut] at h
  | cons c r ih =>
    rw [cut] at h
    by_cases hc : cutsAt b p s c = true
    · rw [if_pos hc] at h
      obtain ⟨-, rfl, -⟩ := h
      exact (Bool.and_eq_true_iff.mp hc).2
    · rw [if_neg hc] at h
      obtain ⟨⟨x', d', y'⟩, hcut, heq⟩ := Option.map_eq_some_iff.mp h
      obtain ⟨-, rfl, -⟩ := heq
      exact ih hcut

/-- A text is cut where the reader stands outside everything. -/
theorem isTop_of_cut {t x y : Text} {d : Char} (h : cut b p s t = some (x, d, y)) :
    (s.after b x).isTop = true := by
  induction t generalizing s x with
  | nil => simp [cut] at h
  | cons c r ih =>
    rw [cut] at h
    by_cases hc : cutsAt b p s c = true
    · rw [if_pos hc] at h
      obtain ⟨rfl, -, -⟩ := h
      exact (Bool.and_eq_true_iff.mp (Bool.and_eq_true_iff.mp hc).1).1
    · rw [if_neg hc] at h
      obtain ⟨⟨x', d', y'⟩, hcut, heq⟩ := Option.map_eq_some_iff.mp h
      obtain ⟨rfl, -, rfl⟩ := heq
      rw [after_cons]
      exact ih hcut

/-- A text is not cut before the place where it is cut. -/
theorem cut_eq_none_of_cut {t x y : Text} {d : Char} (h : cut b p s t = some (x, d, y)) :
    cut b p s x = none := by
  cases hx : cut b p s x with
  | none => rfl
  | some parts =>
    obtain ⟨x', d', y'⟩ := parts
    rw [cut_eq_some h, cut_append_of_some hx] at h
    have hy : y' ++ d :: y = y := congrArg (fun parts => parts.2.2) (Option.some_inj.mp h)
    have hlength := congrArg List.length hy
    rw [List.length_append, List.length_cons] at hlength
    omega

/-- A text is cut nowhere if none of its characters is looked for. -/
theorem cut_eq_none_of_forall {t : Text} (h : ∀ c ∈ t, p c = false) : cut b p s t = none := by
  induction t generalizing s with
  | nil => rfl
  | cons c r ih =>
    obtain ⟨hc, hr⟩ := List.forall_mem_cons.mp h
    rw [cut, if_neg (by simp [cutsAt, hc]), ih hr]
    rfl

/-- A text is cut at the first character that cuts it. -/
theorem cut_eq_some_iff {t x y : Text} {d : Char} :
    cut b p s t = some (x, d, y) ↔
      t = x ++ d :: y ∧ cut b p s x = none ∧ cutsAt b p (after b s x) d = true := by
  constructor
  · intro h
    obtain rfl := cut_eq_some h
    have hx := cut_eq_none_of_cut h
    refine ⟨rfl, hx, ?_⟩
    rw [cut_append_of_none hx, cut] at h
    by_contra hd
    rw [if_neg hd] at h
    obtain ⟨⟨x', d', y'⟩, hcut, heq⟩ := Option.map_eq_some_iff.mp h
    obtain ⟨⟨x'', d'', y''⟩, _, heq'⟩ := Option.map_eq_some_iff.mp hcut
    -- What stands before the cut would go on with the character itself.
    obtain ⟨rfl, -, -⟩ := heq'
    have hlength := congrArg (fun parts => parts.1.length) heq
    simp at hlength
  · rintro ⟨rfl, hx, hd⟩
    rw [cut_append_of_none hx, cut, if_pos hd]
    simp

section Imp

variable {q : Char → Bool} (hpq : ∀ c, p c = true → q c = true)
include hpq

/-- A text that is cut nowhere is not cut where less is looked for. -/
theorem cut_eq_none_of_imp {t : Text} (h : cut b q s t = none) : cut b p s t = none := by
  induction t generalizing s with
  | nil => rfl
  | cons c r ih =>
    rw [cut] at h ⊢
    by_cases hc : cutsAt b q s c = true
    · rw [if_pos hc] at h
      cases h
    · rw [if_neg hc, Option.map_eq_none_iff] at h
      rw [if_neg fun hp => hc ?_, ih h]
      · rfl
      · rw [cutsAt, Bool.and_eq_true] at hp ⊢
        exact ⟨hp.1, hpq c hp.2⟩

/-- The first of several characters that is one of fewer is the first of those. -/
theorem cut_eq_some_of_imp {t x y : Text} {d : Char} (h : cut b q s t = some (x, d, y))
    (hd : p d = true) : cut b p s t = some (x, d, y) := by
  obtain ⟨ht, hx, hcuts⟩ := cut_eq_some_iff.mp h
  refine cut_eq_some_iff.mpr ⟨ht, cut_eq_none_of_imp hpq hx, ?_⟩
  rw [cutsAt, Bool.and_eq_true] at hcuts ⊢
  exact ⟨hcuts.1, hd⟩

end Imp

/-- A character that is no mark changes nothing, unless it closes the quote. -/
theorem step_of_not_isDelimiter {c : Char} (hescaped : s.escaped = false)
    (hquote : ∀ q ∈ s.quote, c ≠ q) (h : b.isDelimiter c = false) : step b s c = s := by
  simp only [Brackets.isDelimiter, Bool.or_eq_false_iff, beq_eq_false_iff_ne] at h
  obtain ⟨⟨⟨⟨hescape, hdouble⟩, hsingle⟩, hopens⟩, hcloses⟩ := h
  obtain ⟨quote, depth, escaped⟩ := s
  obtain rfl : escaped = false := hescaped
  cases quote with
  | none => simp [step, hescape, hdouble, hsingle, hopens, hcloses]
  | some q => simp [step, hescape, hquote q rfl]

/-- Outside quotes, a text without marks changes nothing. -/
theorem after_of_not_isDelimiter {t : Text} (ht : ∀ c ∈ t, b.isDelimiter c = false) (depth : Nat) :
    after b ⟨none, depth, false⟩ t = ⟨none, depth, false⟩ := by
  induction t with
  | nil => rfl
  | cons c r ih =>
    obtain ⟨hc, hr⟩ := List.forall_mem_cons.mp ht
    rw [after_cons, step_of_not_isDelimiter rfl (by simp) hc]
    exact ih hr

/-- The quote that a reader is in is one of the two quotation marks. -/
theorem quote_after (t : Text) : ∀ q ∈ (after b top t).quote, q = '"' ∨ q = '\'' := by
  have hstep : ∀ (s : Nesting) (c : Char), (∀ q ∈ s.quote, q = '"' ∨ q = '\'') →
      ∀ q ∈ (step b s c).quote, q = '"' ∨ q = '\'' := by
    intro s c hs
    obtain ⟨quote, depth, escaped⟩ := s
    have hnone : ∀ q ∈ (none : Option Char), q = '"' ∨ q = '\'' := fun q hq => nomatch hq
    unfold step
    cases quote with
    | none =>
      simp only
      split_ifs with _ _ hopen
      · exact hnone
      · exact hnone
      · exact fun q hq => Option.some_inj.mp hq ▸ hopen
      all_goals exact hnone
    | some q =>
      simp only
      split_ifs
      · exact hs
      · exact hs
      · exact hnone
      · exact hs
  have hafter : ∀ (t : Text) (s : Nesting), (∀ q ∈ s.quote, q = '"' ∨ q = '\'') →
      ∀ q ∈ (after b s t).quote, q = '"' ∨ q = '\'' := by
    intro t
    induction t with
    | nil => exact fun s hs => hs
    | cons c r ih => exact fun s hs => ih _ (hstep s c hs)
  exact hafter t top fun q hq => absurd hq (by simp [top])

/-! ### Texts that are passed over -/

theorem cut_cons_eq_none_iff {c : Char} {r : Text} :
    cut b p s (c :: r) = none ↔ cutsAt b p s c = false ∧ cut b p (step b s c) r = none := by
  rw [cut]
  by_cases hc : cutsAt b p s c = true
  · simp [hc]
  · rw [if_neg hc, Option.map_eq_none_iff]
    simp [Bool.not_eq_true _ ▸ hc]

theorem cut_append_eq_none_iff {t u : Text} :
    cut b p s (t ++ u) = none ↔ cut b p s t = none ∧ cut b p (after b s t) u = none := by
  induction t generalizing s with
  | nil => simp [cut]
  | cons c r ih => rw [List.cons_append, cut_cons_eq_none_iff, cut_cons_eq_none_iff, ih, and_assoc,
      after_cons]

/-- The reader passes over the text from one place to another, and nothing in it is cut. -/
structure Uncut (b : Brackets) (p : Char → Bool) (s : Nesting) (t : Text) (s' : Nesting) :
    Prop where
  /-- No character is one to cut at. -/
  cut_eq_none : cut b p s t = none
  /-- Behind the text, the reader stands there. -/
  after_eq : after b s t = s'

namespace Uncut

variable {s' s'' : Nesting} {t u : Text}

theorem nil : Uncut b p s [] s := ⟨rfl, rfl⟩

theorem append (h : Uncut b p s t s') (h' : Uncut b p s' u s'') : Uncut b p s (t ++ u) s'' := by
  refine ⟨cut_append_eq_none_iff.mpr ⟨h.cut_eq_none, ?_⟩, ?_⟩
  · rw [h.after_eq]
    exact h'.cut_eq_none
  · rw [after_append, h.after_eq, h'.after_eq]

theorem singleton {c : Char} (hc : cutsAt b p s c = false) : Uncut b p s [c] (step b s c) :=
  ⟨cut_cons_eq_none_iff.mpr ⟨hc, rfl⟩, rfl⟩

/-- Nothing is cut at a mark. -/
theorem delimiter {c : Char} (hc : b.isDelimiter c = true) : Uncut b p s [c] (step b s c) :=
  singleton (by rw [cutsAt, hc, Bool.not_true, Bool.and_false, Bool.false_and])

/-- Nothing is cut within quotes or brackets, nor behind a backslash. -/
theorem inside {c : Char} (hs : s.isTop = false) : Uncut b p s [c] (step b s c) :=
  singleton (by rw [cutsAt, hs, Bool.false_and, Bool.false_and])

/-- A backslash takes the next character with it. -/
theorem escape (hs : s.escaped = false) (e : Char) : Uncut b p s ['\\', e] s := by
  have hslash : step b s '\\' = ⟨s.quote, s.depth, true⟩ := by rw [step, hs]; rfl
  have hnext : step b ⟨s.quote, s.depth, true⟩ e = s := by rw [step, if_pos rfl, ← hs]
  refine append (u := [e]) (delimiter (by cases b <;> rfl)) ?_
  rw [hslash]
  exact hnext ▸ inside (by simp [isTop])

/-- A text without marks, and without characters to cut at. -/
theorem of_forall {depth : Nat} (ht : ∀ c ∈ t, b.isDelimiter c = false ∧ p c = false) :
    Uncut b p ⟨none, depth, false⟩ t ⟨none, depth, false⟩ :=
  ⟨cut_eq_none_of_forall fun c hc => (ht c hc).2,
    after_of_not_isDelimiter (fun c hc => (ht c hc).1) depth⟩

end Uncut

/-! ### Blanks -/

/-- The reader stands between two characters, not after a backslash, and the quote that it may be in
is no blank. -/
structure Settled (s : Nesting) : Prop where
  /-- The next character is not escaped. -/
  not_escaped : s.escaped = false
  /-- A blank does not close the quote. -/
  quote_not_blank : ∀ q ∈ s.quote, Text.isBlank q = false

theorem settled_top : Settled top := ⟨rfl, fun _ hq => absurd hq (by simp [top])⟩

theorem isTop_iff {s : Nesting} : s.isTop = true ↔ s = top := by
  obtain ⟨quote, depth, escaped⟩ := s
  simp only [isTop, top, Bool.and_eq_true, Option.isNone_iff_eq_none, beq_iff_eq,
    Bool.not_eq_true', mk.injEq, and_assoc]

/-- A blank is no mark. -/
theorem not_isDelimiter_of_isBlank {c : Char} (h : Text.isBlank c = true) :
    b.isDelimiter c = false := by
  have hne : ∀ d : Char, Text.isBlank d = false → c ≠ d := by
    rintro d hd rfl
    rw [h] at hd
    exact absurd hd (by simp)
  cases b <;> simp [Brackets.isDelimiter, Brackets.opens, Brackets.closes, hne '\\' (by decide),
    hne '"' (by decide), hne '\'' (by decide), hne '(' (by decide), hne '[' (by decide),
    hne ')' (by decide), hne ']' (by decide)]

/-- A blank changes nothing. -/
theorem Settled.step_of_blank (hs : Settled s) {c : Char} (h : Text.isBlank c = true) :
    step b s c = s := by
  refine step_of_not_isDelimiter hs.not_escaped (fun q hq => ?_) (not_isDelimiter_of_isBlank h)
  rintro rfl
  rw [hs.quote_not_blank c hq] at h
  exact absurd h Bool.false_ne_true

theorem Settled.after_of_blank (hs : Settled s) {t : Text}
    (h : ∀ c ∈ t, Text.isBlank c = true) : after b s t = s := by
  induction t with
  | nil => rfl
  | cons c r ih =>
    rw [after_cons, hs.step_of_blank (h c (List.mem_cons_self ..))]
    exact ih fun d hd => h d (List.mem_cons_of_mem _ hd)

theorem Settled.step (hs : Settled s) {c : Char} (hc : c ≠ '\\') : Settled (step b s c) := by
  obtain ⟨quote, depth, escaped⟩ := s
  obtain ⟨rfl, hquote⟩ := hs
  unfold Nesting.step
  rw [if_neg Bool.false_ne_true, if_neg hc]
  cases quote with
  | some q =>
    simp only
    split
    · exact ⟨rfl, fun _ hq => absurd hq (by simp)⟩
    · exact ⟨rfl, hquote⟩
  | none =>
    simp only
    split
    · rename_i hquote
      refine ⟨rfl, fun q hq => ?_⟩
      rw [← Option.some_inj.mp hq]
      rcases hquote with rfl | rfl <;> decide
    · split
      · exact ⟨rfl, fun _ hq => absurd hq (by simp)⟩
      · split
        · exact ⟨rfl, fun _ hq => absurd hq (by simp)⟩
        · exact ⟨rfl, hquote⟩

/-- A backslash takes the next character with it. -/
theorem Settled.step_escape (hs : Settled s) (e : Char) :
    Nesting.step b (Nesting.step b s '\\') e = s := by
  obtain ⟨quote, depth, escaped⟩ := s
  obtain ⟨rfl, -⟩ := hs
  rfl

/-- Blanks at the start of a text do not change where its reader ends. -/
theorem after_trimStart (t : Text) : after b top (Text.trimStart t) = after b top t := by
  obtain ⟨x, hx, heq⟩ := Text.exists_trimStart_append t
  conv_rhs => rw [heq]
  rw [after_append, settled_top.after_of_blank hx]

/-- Where nothing is ever cut at a blank, blanks at the start are only passed over. -/
theorem cut_append_blank (hp : ∀ c, Text.isBlank c = true → p c = false) {x : Text}
    (h : ∀ c ∈ x, Text.isBlank c = true) (t : Text) :
    cut b p top (x ++ t) = (cut b p top t).map fun (y, d, z) => (x ++ y, d, z) := by
  rw [cut_append_of_none (cut_eq_none_of_forall fun c hc => hp c (h c hc)),
    settled_top.after_of_blank h]

theorem cut_trim_of_none (hp : ∀ c, Text.isBlank c = true → p c = false) {t : Text}
    (h : cut b p top t = none) : cut b p top (Text.trim t) = none := by
  obtain ⟨x, y, hx, -, heq⟩ := Text.exists_append_trim_append t
  rw [heq, cut_append_blank hp hx, Option.map_eq_none_iff] at h
  cases hcut : cut b p top (Text.trim t) with
  | none => rfl
  | some parts =>
    rw [cut_append_of_some hcut] at h
    cases h

/-- A text without the blanks around it is cut at the same place. -/
theorem cut_trim_of_some (hp : ∀ c, Text.isBlank c = true → p c = false) {t x y : Text} {d : Char}
    (h : cut b p top t = some (x, d, y)) :
    cut b p top (Text.trim t) = some (Text.trimStart x, d, Text.trimEnd y) := by
  have hd : Text.isBlank d = false := by
    rw [← Bool.not_eq_true]
    exact fun hblank => Bool.false_ne_true ((hp d hblank).symm.trans (prop_of_cut h))
  obtain ⟨rfl, hx, hcuts⟩ := cut_eq_some_iff.mp h
  rw [Text.trim_append_cons hd]
  refine cut_eq_some_iff.mpr ⟨rfl, ?_, by rwa [after_trimStart]⟩
  obtain ⟨a, ha, heq⟩ := Text.exists_trimStart_append x
  rw [heq, cut_append_blank hp ha, Option.map_eq_none_iff] at hx
  exact hx

/-! ### Covered colons and brackets -/

/-- A reader that counts round brackets passes over the text from one place to another, and each
colon and each closing bracket in it stands in quotes or brackets. -/
structure Covers (s : Nesting) (t : Text) (s' : Nesting) : Prop where
  /-- Behind the text, the reader stands there. -/
  after_eq : after .round s t = s'
  /-- A character that stands outside everything is none of the two. -/
  covered : ∀ u c v, t = u ++ c :: v → after .round s u = top → c ≠ ':' ∧ c ≠ ')'

namespace Covers

variable {s' s'' : Nesting} {t u : Text} {c : Char}

theorem nil : Covers s [] s :=
  ⟨rfl, fun _ _ _ h => absurd h (List.append_ne_nil_of_right_ne_nil _ (List.cons_ne_nil _ _)).symm⟩

theorem append (h : Covers s t s') (h' : Covers s' u s'') : Covers s (t ++ u) s'' := by
  refine ⟨by rw [after_append, h.after_eq, h'.after_eq], fun x d y heq htop => ?_⟩
  rcases Text.append_eq_append_cons heq with ⟨y', ht, -⟩ | ⟨x', rfl, hu⟩
  · exact h.covered x d y' ht htop
  · rw [after_append, h.after_eq] at htop
    exact h'.covered x' d y hu htop

/-- A single character, unless it is one of the two and stands outside everything. -/
theorem singleton (hc : s = top → c ≠ ':' ∧ c ≠ ')') : Covers s [c] (step .round s c) := by
  refine ⟨rfl, fun u d v h htop => ?_⟩
  obtain ⟨rfl, rfl⟩ : u = [] ∧ d = c := by
    cases u with
    | nil => exact ⟨rfl, (List.cons.inj h).1.symm⟩
    | cons e u =>
      exact absurd (List.cons.inj h).2
        (List.append_ne_nil_of_right_ne_nil _ (List.cons_ne_nil _ _)).symm
  exact hc htop

/-- A character in quotes or brackets. -/
theorem inside (hs : s.isTop = false) : Covers s [c] (step .round s c) :=
  singleton fun htop => absurd (isTop_iff.mpr htop) (by rw [hs]; exact Bool.false_ne_true)

/-- A backslash takes the next character with it. -/
theorem escape (hs : s.escaped = false) (e : Char) : Covers s ['\\', e] s := by
  have hslash : step .round s '\\' = ⟨s.quote, s.depth, true⟩ := by rw [step, hs]; rfl
  have hnext : step .round ⟨s.quote, s.depth, true⟩ e = s := by rw [step, if_pos rfl, ← hs]
  refine append (u := [e]) (singleton (c := '\\') fun _ => by decide) ?_
  rw [hslash]
  exact hnext ▸ inside (by simp [isTop])

/-- A text without marks and colons, outside quotes. -/
theorem of_forall {depth : Nat}
    (ht : ∀ c ∈ t, Brackets.round.isDelimiter c = false ∧ c ≠ ':') :
    Covers ⟨none, depth, false⟩ t ⟨none, depth, false⟩ := by
  refine ⟨after_of_not_isDelimiter (fun c hc => (ht c hc).1) depth, fun u c v h _ => ?_⟩
  obtain ⟨hdelimiter, hcolon⟩ := ht c (h ▸ List.mem_append_right _ (List.mem_cons_self ..))
  refine ⟨hcolon, ?_⟩
  rintro rfl
  exact absurd hdelimiter (by decide)

end Covers

end Nesting
end CosmeticFilter
