import CosmeticFilter.Proofs.StyleSheet.SingleRule

/-!
# The rules that make up a style sheet

A style sheet is cut into rules from left to right, and nothing but blanks is lost on the way. Where
a rule ends is a question about all that follows it, not about the rule alone: the first closing
brace outside quotes and brackets may stand far behind the first closing brace of all, and only if
there is none in the whole rest does the latter count.

* `cutRule_cases`: the three ways in which a rule is cut off;
* `IsSlice`: a text is the first rule of a style sheet that goes on with a given rest;
* `IsPartition`: a style sheet is put together from rules, with blanks around them;
* `exists_isSlice`, `ruleTexts_of_isSlice`: cutting off one rule;
* `ruleTexts_partition`: a style sheet is put together from its rules, and in no other way.
-/

namespace CosmeticFilter
namespace StyleSheet

variable {s t u b x y rest : Text} {slices : List Text}

/-! ### Texts without a closing brace that counts -/

theorem leavesOpen_iff : leavesOpen t = true ↔ findEnd .top t = none :=
  Option.isNone_iff_eq_none

/-- What stands at the start of a text that is left open is left open. -/
theorem leavesOpen_of_append (h : leavesOpen (t ++ u) = true) : leavesOpen t = true := by
  rw [leavesOpen_iff] at h ⊢
  cases ht : findEnd .top t with
  | none => rfl
  | some found =>
    obtain ⟨x, d, y⟩ := found
    rw [findEnd, Nesting.cut_append_of_some ht] at h
    cases h

theorem leavesOpen_of_not_mem (h : '\x7d' ∉ t) : leavesOpen t = true :=
  leavesOpen_iff.mpr <| Nesting.cut_eq_none_of_forall fun _ hc =>
    beq_eq_false_iff_ne.mpr fun heq => h (heq ▸ hc)

/-- The search finds the first closing brace outside quotes and brackets. -/
theorem findEnd_eq_some_iff {d : Char} :
    findEnd .top t = some (x, d, y) ↔
      d = '\x7d' ∧ t = x ++ '\x7d' :: y ∧ leavesOpen x = true ∧
        Nesting.top.after .roundAndSquare x = .top := by
  rw [findEnd, Nesting.cut_eq_some_iff, leavesOpen_iff, ← Nesting.isTop_iff, findEnd]
  constructor
  · rintro ⟨rfl, hx, hcuts⟩
    simp only [Nesting.cutsAt, Bool.and_eq_true, beq_iff_eq] at hcuts
    obtain ⟨⟨htop, -⟩, rfl⟩ := hcuts
    exact ⟨rfl, rfl, hx, htop⟩
  · rintro ⟨rfl, rfl, hx, htop⟩
    refine ⟨rfl, hx, ?_⟩
    rw [Nesting.cutsAt, htop]
    rfl

/-- A text that ends in a closing brace outside quotes and brackets is not left open. -/
theorem leavesOpen_concat_brace (hx : leavesOpen x = true)
    (htop : Nesting.top.after .roundAndSquare x = .top) : leavesOpen (x ++ ['\x7d']) = false := by
  have hfound : findEnd .top (x ++ ['\x7d']) = some (x, '\x7d', []) :=
    findEnd_eq_some_iff.mpr ⟨rfl, rfl, hx, htop⟩
  rw [leavesOpen, hfound]
  rfl

/-- A text whose last character alone keeps it from being left open ends in the brace found. -/
theorem findEnd_of_leavesOpen_dropLast (hlast : leavesOpen t.dropLast = true)
    (h : leavesOpen t = false) : findEnd .top t = some (t.dropLast, '\x7d', []) := by
  cases hfind : findEnd .top t with
  | none => rw [leavesOpen_iff.mpr hfind] at h; cases h
  | some found =>
    obtain ⟨x, d, y⟩ := found
    obtain ⟨rfl, rfl, hx, htop⟩ := findEnd_eq_some_iff.mp hfind
    rcases List.eq_nil_or_concat y with rfl | ⟨y, c, rfl⟩
    · rw [List.dropLast_concat]
    · -- the brace would stand in front of the last character
      rw [List.concat_eq_append, ← List.cons_append, ← List.append_assoc, List.dropLast_concat,
        List.append_cons] at hlast
      have hopen := leavesOpen_of_append hlast
      rw [leavesOpen_concat_brace hx htop] at hopen
      cases hopen

/-! ### Cutting off a rule -/

/-- A rule ends at its first closing brace outside quotes and brackets; where the whole text is left
open, at the first one of all; and where there is none, with the text. -/
theorem cutRule_cases (t : Text) :
    (∃ x y, t = x ++ '\x7d' :: y ∧ cutRule t = (x ++ ['\x7d'], y) ∧ leavesOpen x = true ∧
        Nesting.top.after .roundAndSquare x = .top) ∨
      (∃ x y, t = x ++ '\x7d' :: y ∧ cutRule t = (x ++ ['\x7d'], y) ∧ leavesOpen t = true ∧
        '\x7d' ∉ x) ∨
      '\x7d' ∉ t ∧ cutRule t = (t, []) := by
  by_cases hmem : '\x7d' ∈ t
  · cases hfind : findEnd .top t with
    | some found =>
      obtain ⟨x, d, y⟩ := found
      obtain ⟨rfl, heq, hopen, htop⟩ := findEnd_eq_some_iff.mp hfind
      rw [findEnd] at hfind
      exact .inl ⟨x, y, heq, by rw [cutRule, hfind], hopen, htop⟩
    | none =>
      obtain ⟨x, y, heq, hx⟩ := List.eq_append_cons_of_mem hmem
      have hfirst : Text.cutFirst (· == '\x7d') t = some (x, y) :=
        Text.cutFirst_eq_some_iff.mpr
          ⟨'\x7d', rfl, fun _ hb => beq_eq_false_iff_ne.mpr fun hbrace => hx (hbrace ▸ hb), heq⟩
      rw [findEnd] at hfind
      exact .inr (.inl ⟨x, y, heq, by rw [cutRule, hfind, hfirst], leavesOpen_iff.mpr hfind, hx⟩)
  · exact .inr (.inr ⟨hmem, cutRule_of_not_mem hmem⟩)

/-! ### Slices -/

/-- The text is the first rule of a style sheet that goes on with `rest`. -/
structure IsSlice (s rest : Text) : Prop where
  /-- There is something in it. -/
  ne_nil : s ≠ []
  /-- No blanks stand around it. -/
  trim_eq : Text.trim s = s
  /-- A closing brace outside quotes and brackets can only be its last character. -/
  leavesOpen_dropLast : leavesOpen s.dropLast = true
  /-- If it has no such brace, then there is none in the rest either, and a closing brace of any
  kind can only be its last character. -/
  of_leavesOpen : leavesOpen s = true → leavesOpen (s ++ rest) = true ∧ '\x7d' ∉ s.dropLast
  /-- It ends in a closing brace, unless nothing but blanks is left. -/
  closed : s.getLast? = some '\x7d' ∨ ∀ c ∈ rest, Text.isBlank c = true

/-- The text is put together from the slices, with blanks before, between and behind them. -/
inductive IsPartition : List Text → Text → Prop where
  /-- Nothing is left but blanks. -/
  | blank {b : Text} (hb : ∀ c ∈ b, Text.isBlank c = true) : IsPartition [] b
  /-- A slice is next, and then the others. -/
  | slice {b s rest : Text} {slices : List Text} (hb : ∀ c ∈ b, Text.isBlank c = true)
    (hs : IsSlice s rest) (h : IsPartition slices rest) :
    IsPartition (s :: slices) (b ++ (s ++ rest))

theorem ruleTexts_append_of_blank (hb : ∀ c ∈ b, Text.isBlank c = true) (t : Text) :
    ruleTexts (b ++ t) = ruleTexts t := by
  induction b with
  | nil => rfl
  | cons c b ih =>
    obtain ⟨hc, hb⟩ := List.forall_mem_cons.mp hb
    rw [List.cons_append, ruleTexts_cons_of_blank hc, ih hb]

theorem IsPartition.blank_append (hb : ∀ c ∈ b, Text.isBlank c = true)
    (h : IsPartition slices t) : IsPartition slices (b ++ t) := by
  cases h with
  | blank ht => exact .blank (List.forall_mem_append.mpr ⟨hb, ht⟩)
  | slice hb' hs h =>
    rw [← List.append_assoc]
    exact .slice (List.forall_mem_append.mpr ⟨hb, hb'⟩) hs h

theorem trim_concat_brace (hstart : ∀ c ∈ (x ++ '\x7d' :: y).head?, Text.isBlank c = false) :
    Text.trim (x ++ ['\x7d']) = x ++ ['\x7d'] := by
  refine Text.trim_eq_self (fun c hc => hstart c ?_) fun c hc => ?_
  · rw [List.append_cons, List.head?_append_of_ne_nil _ (List.append_ne_nil_of_right_ne_nil x
      (List.cons_ne_nil _ _))]
    exact hc
  · rw [List.getLast?_concat, Option.mem_some] at hc
    subst hc
    decide

/-- A rule that ends at a closing brace outside quotes and brackets. -/
theorem isSlice_of_isTop (hstart : ∀ c ∈ (x ++ '\x7d' :: y).head?, Text.isBlank c = false)
    (hx : leavesOpen x = true) (htop : Nesting.top.after .roundAndSquare x = .top) :
    IsSlice (x ++ ['\x7d']) y where
  ne_nil := List.append_ne_nil_of_right_ne_nil x (List.cons_ne_nil _ _)
  trim_eq := trim_concat_brace hstart
  leavesOpen_dropLast := by rwa [List.dropLast_concat]
  of_leavesOpen hopen := by rw [leavesOpen_concat_brace hx htop] at hopen; cases hopen
  closed := .inl List.getLast?_concat

/-- A rule that ends at the first closing brace of all. -/
theorem isSlice_of_leavesOpen (hstart : ∀ c ∈ (x ++ '\x7d' :: y).head?, Text.isBlank c = false)
    (hopen : leavesOpen (x ++ '\x7d' :: y) = true) (hx : '\x7d' ∉ x) :
    IsSlice (x ++ ['\x7d']) y where
  ne_nil := List.append_ne_nil_of_right_ne_nil x (List.cons_ne_nil _ _)
  trim_eq := trim_concat_brace hstart
  leavesOpen_dropLast := by rw [List.dropLast_concat]; exact leavesOpen_of_append hopen
  of_leavesOpen _ := by rw [List.dropLast_concat, ← List.append_cons]; exact ⟨hopen, hx⟩
  closed := .inl List.getLast?_concat

/-- A rule without a closing brace. -/
theorem isSlice_of_not_mem (ht : t ++ b ≠ [])
    (hstart : ∀ c ∈ (t ++ b).head?, Text.isBlank c = false) (hmem : '\x7d' ∉ t ++ b)
    (hb : ∀ c ∈ b, Text.isBlank c = true) (hend : Text.trimEnd t = t) : IsSlice t b := by
  have hne : t ≠ [] := by
    rintro rfl
    obtain ⟨c, b, rfl⟩ := List.exists_cons_of_ne_nil ht
    have hblank := hb c List.mem_cons_self
    rw [hstart c rfl] at hblank
    cases hblank
  have hlast : '\x7d' ∉ t.dropLast := fun h =>
    hmem (List.mem_append_left b (List.dropLast_subset t h))
  refine ⟨hne, Text.trim_eq_self (fun c hc => hstart c ?_) fun c hc => ?_,
    leavesOpen_of_not_mem hlast, fun _ => ⟨leavesOpen_of_not_mem hmem, hlast⟩, .inr hb⟩
  · rwa [List.head?_append_of_ne_nil _ hne]
  · rw [← hend] at hc
    exact Text.not_blank_of_getLast?_trimEnd hc

/-- What is cut off, without the blanks behind it, is a slice. -/
theorem exists_isSlice (ht : t ≠ []) (hstart : ∀ c ∈ t.head?, Text.isBlank c = false) :
    ∃ b, (∀ c ∈ b, Text.isBlank c = true) ∧
      t = Text.trimEnd (cutRule t).1 ++ (b ++ (cutRule t).2) ∧
      IsSlice (Text.trimEnd (cutRule t).1) (b ++ (cutRule t).2) := by
  have hbrace : ∀ x : Text, Text.trimEnd (x ++ ['\x7d']) = x ++ ['\x7d'] :=
    fun x => Text.trimEnd_append_cons (by decide) x []
  rcases cutRule_cases t with ⟨x, y, rfl, hcut, hx, htop⟩ | ⟨x, y, rfl, hcut, hopen, hx⟩ |
    ⟨hmem, hcut⟩
  · rw [hcut, hbrace]
    exact ⟨[], by simp, by simp, isSlice_of_isTop hstart hx htop⟩
  · rw [hcut, hbrace]
    exact ⟨[], by simp, by simp, isSlice_of_leavesOpen hstart hopen hx⟩
  · obtain ⟨b, hb, heq⟩ := Text.exists_append_trimEnd t
    refine ⟨b, hb, by rw [hcut, List.append_nil]; exact heq, ?_⟩
    rw [hcut, List.append_nil]
    exact isSlice_of_not_mem (heq ▸ ht) (heq ▸ hstart) (heq ▸ hmem) hb (Text.trimEnd_trimEnd t)

/-- A slice is cut off by itself, or with the blanks behind it at the end of the style sheet. -/
theorem cutRule_of_isSlice (h : IsSlice s rest) :
    cutRule (s ++ rest) = (s, rest) ∨
      (∀ c ∈ rest, Text.isBlank c = true) ∧ cutRule (s ++ rest) = (s ++ rest, []) := by
  cases hopen : leavesOpen s with
  | false =>
    have hfind := findEnd_of_leavesOpen_dropLast h.leavesOpen_dropLast hopen
    have hs : s = s.dropLast ++ ['\x7d'] := (findEnd_eq_some_iff.mp hfind).2.1
    rw [findEnd] at hfind
    left
    rw [cutRule, Nesting.cut_append_of_some hfind, List.nil_append]
    exact Prod.ext hs.symm rfl
  | true =>
    obtain ⟨hall, hfirst⟩ := h.of_leavesOpen hopen
    have hnone := leavesOpen_iff.mp hall
    rw [findEnd] at hnone
    by_cases hlast : s.getLast? = some '\x7d'
    · obtain ⟨x, rfl⟩ := List.getLast?_eq_some_iff.mp hlast
      rw [List.dropLast_concat] at hfirst
      have hcut : Text.cutFirst (· == '\x7d') (x ++ ['\x7d'] ++ rest) = some (x, rest) :=
        Text.cutFirst_eq_some_iff.mpr ⟨'\x7d', rfl, fun _ hb =>
          beq_eq_false_iff_ne.mpr fun hbrace => hfirst (hbrace ▸ hb), by simp⟩
      left
      rw [cutRule, hnone, hcut]
    · have hblank := h.closed.resolve_left hlast
      refine .inr ⟨hblank, cutRule_of_not_mem fun hmem => ?_⟩
      rcases List.mem_append.mp hmem with hmem | hmem
      · rw [← List.dropLast_concat_getLast h.ne_nil, List.mem_append, List.mem_singleton] at hmem
        rcases hmem with hmem | hmem
        · exact hfirst hmem
        · exact hlast (by rw [List.getLast?_eq_some_getLast h.ne_nil, hmem])
      · exact absurd (hblank _ hmem) (by decide)

theorem ruleTexts_of_isSlice (h : IsSlice s rest) :
    ruleTexts (s ++ rest) = s :: ruleTexts rest := by
  have hstart : Text.trimStart (s ++ rest) = s ++ rest := by
    refine Text.trimStart_eq_self fun c hc => ?_
    rw [List.head?_append_of_ne_nil _ h.ne_nil, ← h.trim_eq] at hc
    exact Text.not_blank_of_head?_trim hc
  have hend : Text.trimEnd s = s := by
    conv_lhs => rw [← h.trim_eq, Text.trim, Text.trimEnd_trimEnd, ← Text.trim, h.trim_eq]
  rw [ruleTexts_of_not_blank (by rw [hstart]; exact List.append_ne_nil_of_left_ne_nil h.ne_nil _),
    hstart]
  rcases cutRule_of_isSlice h with hcut | ⟨hblank, hcut⟩
  · rw [hcut, hend]
  · rw [hcut, Text.trimEnd_append_of_blank (Text.trimEnd_eq_nil_iff.mpr hblank), hend,
      ruleTexts_of_blank rfl, ruleTexts_of_blank (Text.trimStart_eq_nil_iff.mpr hblank)]

/-! ### Partitions -/

theorem isPartition_ruleTexts (t : Text) : IsPartition (ruleTexts t) t := by
  fun_induction ruleTexts t with
  | case1 t hblank => exact .blank (Text.trimStart_eq_nil_iff.mp hblank)
  | case2 t hne ih =>
    have hstart : ∀ c ∈ (Text.trimStart t).head?, Text.isBlank c = false := by
      obtain ⟨d, r, hd⟩ := List.exists_cons_of_ne_nil hne
      rw [hd, List.head?_cons]
      rintro c ⟨⟩
      exact Text.not_blank_of_trimStart hd
    obtain ⟨a, ha, heq⟩ := Text.exists_trimStart_append t
    obtain ⟨b, hb, happend, hs⟩ := exists_isSlice hne hstart
    have hall := IsPartition.slice ha hs (ih.blank_append hb)
    rwa [← happend, ← heq] at hall

/-- There is no other way to put a style sheet together from slices. -/
theorem IsPartition.ruleTexts_eq (h : IsPartition slices t) : ruleTexts t = slices := by
  induction h with
  | blank hb => exact ruleTexts_of_blank (Text.trimStart_eq_nil_iff.mpr hb)
  | slice hb hs _ ih => rw [ruleTexts_append_of_blank hb, ruleTexts_of_isSlice hs, ih]

theorem IsPartition.exists_isSlice (h : IsPartition slices t) (hs : s ∈ slices) :
    ∃ rest, IsSlice s rest := by
  induction h with
  | blank => exact absurd hs List.not_mem_nil
  | slice _ hslice _ ih =>
    rcases List.mem_cons.mp hs with rfl | hs
    · exact ⟨_, hslice⟩
    · exact ih hs

theorem IsSlice.not_blank (h : IsSlice s rest) : ¬ ∀ c ∈ s, Text.isBlank c = true := by
  rw [← Text.trim_eq_nil_iff, h.trim_eq]
  exact h.ne_nil

/-- A slice in front of another one ends in a closing brace. -/
theorem IsPartition.closed (h : IsPartition slices t) :
    ∀ s ∈ slices.dropLast, s.getLast? = some '\x7d' := by
  induction h with
  | blank => exact fun s hs => absurd hs List.not_mem_nil
  | slice _ hs h ih =>
    cases h with
    | blank => exact fun u hu => absurd hu List.not_mem_nil
    | slice _ hs' _ =>
      rw [List.dropLast_cons_of_ne_nil (List.cons_ne_nil _ _), List.forall_mem_cons]
      refine ⟨hs.closed.resolve_right fun hblank => hs'.not_blank fun c hc => ?_, ih⟩
      exact hblank c (List.mem_append_right _ (List.mem_append_left _ hc))

/-- **A style sheet is put together from its rules.** The rules that it is cut into are not empty
and have no blanks around them; in the style sheet they stand one after the other with nothing but
blanks before, between and behind them; and all but the last one end in a closing brace. No other
list of rules makes up the style sheet. -/
theorem ruleTexts_partition (t : Text) :
    (∀ slices, IsPartition slices t ↔ ruleTexts t = slices) ∧
      (∀ s ∈ ruleTexts t, s ≠ [] ∧ Text.trim s = s) ∧
      ∀ s ∈ (ruleTexts t).dropLast, s.getLast? = some '\x7d' := by
  have hall := isPartition_ruleTexts t
  refine ⟨fun slices => ⟨IsPartition.ruleTexts_eq, fun h => h ▸ hall⟩, fun s hs => ?_, hall.closed⟩
  obtain ⟨rest, hslice⟩ := hall.exists_isSlice hs
  exact ⟨hslice.ne_nil, hslice.trim_eq⟩

/-- The first rule is left open by an apostrophe, and only the second apostrophe closes it: the two
are one rule. -/
example : ruleTexts "p:contains(it's) \x7b \x7d b \x7b \x7d i:contains(isn't) \x7b \x7d u".toList =
    ["p:contains(it's) \x7b \x7d b \x7b \x7d i:contains(isn't) \x7b \x7d".toList, ['u']] := by
  decide +kernel

end StyleSheet
end CosmeticFilter
