import CosmeticFilter.Text.Basic
import Mathlib.Data.List.Basic
import Mathlib.Data.List.TakeWhile
import Mathlib.Tactic.Conv

/-!
# Blanks at the ends of a text

What trimming does to a text that is put together from parts: the blanks at one end are those of
the outermost part that is not all blank.

* `trimStart_append`, `trimEnd_append`: trimming a concatenation;
* `trimStart_eq_self`, `trimEnd_eq_self`: texts without blanks at the end in question;
* `exists_append_trimEnd`: what trimming takes off is blank;
* `trim_append_of_blank`, `trim_append_cons`: both ends at once;
* `not_blank_of_lower`: letter case does not make blanks;
* `withoutBlanks`: what no trimming takes off.
-/

namespace CosmeticFilter
namespace Text

/-! ### The start -/

@[simp] theorem trimStart_nil : trimStart [] = [] := rfl

theorem trimStart_cons_of_blank {c : Char} (h : isBlank c = true) (t : Text) :
    trimStart (c :: t) = trimStart t :=
  List.dropWhile_cons_of_pos h

theorem trimStart_cons_of_not_blank {c : Char} (h : isBlank c = false) (t : Text) :
    trimStart (c :: t) = c :: t :=
  List.dropWhile_cons_of_neg (by rw [h]; exact Bool.false_ne_true)

/-- A part that is not all blank shields what follows it. -/
theorem trimStart_append {t : Text} (h : trimStart t ≠ []) (u : Text) :
    trimStart (t ++ u) = trimStart t ++ u := by
  unfold trimStart at h ⊢
  rw [List.dropWhile_append, if_neg]
  rw [List.isEmpty_iff]
  exact h

theorem trimStart_append_of_blank {t : Text} (h : trimStart t = []) (u : Text) :
    trimStart (t ++ u) = trimStart u := by
  unfold trimStart at h ⊢
  rw [List.dropWhile_append, if_pos]
  rw [h]
  rfl

theorem trimStart_eq_nil_iff {t : Text} : trimStart t = [] ↔ ∀ c ∈ t, isBlank c = true :=
  List.dropWhile_eq_nil_iff

/-- A trimmed text does not start with a blank. -/
theorem not_blank_of_trimStart {t r : Text} {c : Char} (h : trimStart t = c :: r) :
    isBlank c = false := by
  have hne : t.dropWhile isBlank ≠ [] := by
    unfold trimStart at h
    rw [h]
    exact List.cons_ne_nil _ _
  have hhead := List.head_dropWhile_not isBlank hne
  unfold trimStart at h
  simpa only [h, List.head_cons] using hhead

theorem trimStart_eq_self {t : Text} (h : ∀ c ∈ t.head?, isBlank c = false) :
    trimStart t = t := by
  cases t with
  | nil => rfl
  | cons c r => exact trimStart_cons_of_not_blank (h c rfl) r

theorem not_blank_of_head?_trimStart {t : Text} :
    ∀ c ∈ (trimStart t).head?, isBlank c = false := by
  intro c hc
  obtain ⟨r, hr⟩ := List.head?_eq_some_iff.mp (Option.mem_def.mp hc)
  exact not_blank_of_trimStart hr

@[simp] theorem trimStart_trimStart (t : Text) : trimStart (trimStart t) = trimStart t :=
  trimStart_eq_self not_blank_of_head?_trimStart

/-- What is left out at the start is blank. -/
theorem exists_trimStart_append (t : Text) :
    ∃ b : Text, (∀ c ∈ b, isBlank c = true) ∧ t = b ++ trimStart t :=
  ⟨t.takeWhile isBlank, fun _ hc => (List.all_eq_true.mp List.all_takeWhile) _ hc,
    List.takeWhile_append_dropWhile.symm⟩

/-! ### The end -/

@[simp] theorem trimEnd_nil : trimEnd [] = [] := rfl

/-- Trimming the end is trimming the start of the reversed text. -/
theorem reverse_trimEnd (t : Text) : (trimEnd t).reverse = trimStart t.reverse := by
  rw [trimEnd, List.reverse_reverse, trimStart]

theorem trimEnd_eq_reverse (t : Text) : trimEnd t = (trimStart t.reverse).reverse := rfl

/-- A part that is not all blank shields what stands before it. -/
theorem trimEnd_append {u : Text} (h : trimEnd u ≠ []) (t : Text) :
    trimEnd (t ++ u) = t ++ trimEnd u := by
  have hrev : trimStart u.reverse ≠ [] := by
    rw [← reverse_trimEnd]
    exact fun hnil => h (List.reverse_eq_nil_iff.mp hnil)
  rw [trimEnd_eq_reverse, List.reverse_append, trimStart_append hrev, List.reverse_append,
    List.reverse_reverse, trimEnd_eq_reverse]

theorem trimEnd_append_of_blank {u : Text} (h : trimEnd u = []) (t : Text) :
    trimEnd (t ++ u) = trimEnd t := by
  have hrev : trimStart u.reverse = [] := by
    rw [← reverse_trimEnd, h]
    rfl
  rw [trimEnd_eq_reverse, List.reverse_append, trimStart_append_of_blank hrev,
    trimEnd_eq_reverse]

theorem trimEnd_eq_nil_iff {t : Text} : trimEnd t = [] ↔ ∀ c ∈ t, isBlank c = true := by
  rw [trimEnd_eq_reverse, List.reverse_eq_nil_iff, trimStart_eq_nil_iff]
  simp only [List.mem_reverse]

theorem trimEnd_eq_self {t : Text} (h : ∀ c ∈ t.getLast?, isBlank c = false) :
    trimEnd t = t := by
  rw [trimEnd_eq_reverse, trimStart_eq_self, List.reverse_reverse]
  rw [List.head?_reverse]
  exact h

/-- A trimmed text does not end with a blank. -/
theorem not_blank_of_getLast?_trimEnd {t : Text} {c : Char} (h : (trimEnd t).getLast? = some c) :
    isBlank c = false := by
  rw [trimEnd_eq_reverse, List.getLast?_reverse] at h
  cases hrev : trimStart t.reverse with
  | nil => rw [hrev] at h; exact absurd h (by simp)
  | cons d r =>
    rw [hrev, List.head?_cons] at h
    rw [← Option.some_inj.mp h]
    exact not_blank_of_trimStart hrev

@[simp] theorem trimEnd_trimEnd (t : Text) : trimEnd (trimEnd t) = trimEnd t :=
  trimEnd_eq_self fun _ hc => not_blank_of_getLast?_trimEnd hc

/-- What is left out at the end is blank. -/
theorem exists_append_trimEnd (t : Text) :
    ∃ b : Text, (∀ c ∈ b, isBlank c = true) ∧ t = trimEnd t ++ b := by
  obtain ⟨b, hb, heq⟩ := exists_trimStart_append t.reverse
  refine ⟨b.reverse, fun c hc => hb c (List.mem_reverse.mp hc), ?_⟩
  rw [trimEnd_eq_reverse, ← List.reverse_append, ← heq, List.reverse_reverse]

/-- A text that does not end in a blank shields what stands before it, and itself. -/
theorem trimEnd_append_of_last {t : Text} (hlast : ∀ c ∈ t.getLast?, isBlank c = false)
    (u : Text) : trimEnd (t ++ u) = t ++ trimEnd u := by
  by_cases hu : trimEnd u = []
  · rw [trimEnd_append_of_blank hu, trimEnd_eq_self hlast, hu, List.append_nil]
  · exact trimEnd_append hu t

theorem eq_false_of_any {p : Char → Bool} {t : Text} (h : t.any p = false) :
    ∀ c ∈ t, p c = false :=
  fun c hc => Bool.eq_false_iff.mpr (List.any_eq_false.mp h c hc)

theorem not_blank_of_any {t : Text} (h : t.any isBlank = false) : ∀ c ∈ t, isBlank c = false :=
  eq_false_of_any h

/-! ### Letter case -/

theorem toLower_of_blank {c : Char} (hc : isBlank c = true) : c.toLower = c := by
  unfold Char.toLower
  rw [dif_neg]
  rintro ⟨hle, hge⟩
  have hle : 65 ≤ c.toNat := UInt32.le_iff_toNat_le.mp hle
  have hge : c.toNat ≤ 90 := UInt32.le_iff_toNat_le.mp hge
  unfold isBlank at hc
  simp only [Bool.or_eq_true, Bool.and_eq_true, decide_eq_true_eq, beq_iff_eq] at hc
  omega

/-- Small letters and capitals are no blanks. -/
theorem not_blank_of_lower {t : Text} (h : ∀ c ∈ lower t, isBlank c = false) :
    ∀ c ∈ t, isBlank c = false := by
  intro c hc
  have hlower := h c.toLower (List.mem_map_of_mem hc)
  by_contra hne
  have hblank : isBlank c = true := Bool.not_eq_false _ ▸ hne
  rw [toLower_of_blank hblank, hblank] at hlower
  exact absurd hlower (by simp)

/-! ### Both ends -/

/-- The start of a text stays where it is when the end is trimmed. -/
theorem head?_trimEnd {t : Text} (h : trimEnd t ≠ []) : (trimEnd t).head? = t.head? := by
  obtain ⟨b, -, heq⟩ := exists_append_trimEnd t
  conv_rhs => rw [heq]
  rw [List.head?_append_of_ne_nil _ h]

theorem trim_eq_self {t : Text} (hstart : ∀ c ∈ t.head?, isBlank c = false)
    (hend : ∀ c ∈ t.getLast?, isBlank c = false) : trim t = t := by
  rw [trim, trimStart_eq_self hstart, trimEnd_eq_self hend]

/-- Without a blank at the end, only the start is trimmed. -/
theorem trim_eq_trimStart {t : Text} (h : ∀ c ∈ t.getLast?, isBlank c = false) :
    trim t = trimStart t := by
  by_cases hnil : trimStart t = []
  · rw [trim, hnil, trimEnd_nil]
  · obtain ⟨a, -, heq⟩ := exists_trimStart_append t
    have hlast : t.getLast? = (trimStart t).getLast? := by
      conv_lhs => rw [heq]
      exact List.getLast?_append_of_ne_nil a hnil
    rw [hlast] at h
    exact trimEnd_eq_self h

/-- A trimmed text does not start with a blank. -/
theorem not_blank_of_head?_trim {t : Text} {c : Char} (h : (trim t).head? = some c) :
    isBlank c = false := by
  have hne : trimEnd (trimStart t) ≠ [] := by
    rintro hnil
    rw [trim, hnil] at h
    exact absurd h (by simp)
  rw [trim, head?_trimEnd hne] at h
  cases hstart : trimStart t with
  | nil => rw [hstart] at h; exact absurd h (by simp)
  | cons d r =>
    rw [hstart, List.head?_cons] at h
    rw [← Option.some_inj.mp h]
    exact not_blank_of_trimStart hstart

/-- A trimmed text does not end with a blank. -/
theorem not_blank_of_getLast?_trim {t : Text} {c : Char} (h : (trim t).getLast? = some c) :
    isBlank c = false :=
  not_blank_of_getLast?_trimEnd h

@[simp] theorem trim_trim (t : Text) : trim (trim t) = trim t :=
  trim_eq_self (fun _ hc => not_blank_of_head?_trim hc) fun _ hc => not_blank_of_getLast?_trim hc

@[simp] theorem trimEnd_trim (t : Text) : trimEnd (trim t) = trim t := trimEnd_trimEnd _

theorem trim_eq_nil_iff {t : Text} : trim t = [] ↔ ∀ c ∈ t, isBlank c = true := by
  constructor
  · intro h c hc
    by_cases hnil : trimStart t = []
    · exact trimStart_eq_nil_iff.mp hnil c hc
    · -- the first character that is left is not blank, so the end cannot be all blank
      cases hstart : trimStart t with
      | nil => exact absurd hstart hnil
      | cons d r =>
        rw [trim, hstart, trimEnd_eq_nil_iff] at h
        have := h d (List.mem_cons_self ..)
        rw [not_blank_of_trimStart hstart] at this
        exact absurd this Bool.false_ne_true
  · intro h
    rw [trim, trimStart_eq_nil_iff.mpr h, trimEnd_nil]

/-- What is left out at either end is blank. -/
theorem exists_append_trim_append (t : Text) :
    ∃ a b : Text, (∀ c ∈ a, isBlank c = true) ∧ (∀ c ∈ b, isBlank c = true) ∧
      t = a ++ (trim t ++ b) := by
  obtain ⟨a, ha, heq⟩ := exists_trimStart_append t
  obtain ⟨b, hb, heq'⟩ := exists_append_trimEnd (trimStart t)
  exact ⟨a, b, ha, hb, heq.trans (congrArg (a ++ ·) heq')⟩

theorem infix_trim (t : Text) : trim t <:+: t := by
  obtain ⟨a, b, -, -, heq⟩ := exists_append_trim_append t
  exact ⟨a, b, by rw [List.append_assoc]; exact heq.symm⟩

/-- Blanks at either end do not count. -/
theorem trim_append_blank {a b : Text} (ha : ∀ c ∈ a, isBlank c = true)
    (hb : ∀ c ∈ b, isBlank c = true) (t : Text) : trim (a ++ (t ++ b)) = trim t := by
  rw [trim, trimStart_append_of_blank (trimStart_eq_nil_iff.mpr ha)]
  by_cases hnil : trimStart t = []
  · rw [trimStart_append_of_blank hnil, trimStart_eq_nil_iff.mpr hb, trim, hnil]
  · rw [trimStart_append hnil, trimEnd_append_of_blank (trimEnd_eq_nil_iff.mpr hb), trim]

theorem trim_append_of_blank {b : Text} (hb : ∀ c ∈ b, isBlank c = true) (t : Text) :
    trim (t ++ b) = trim t :=
  trim_append_blank (a := []) (fun _ hc => absurd hc List.not_mem_nil) hb t

theorem trim_blank_append {a : Text} (ha : ∀ c ∈ a, isBlank c = true) (t : Text) :
    trim (a ++ t) = trim t := by
  rw [trim, trimStart_append_of_blank (trimStart_eq_nil_iff.mpr ha), trim]

theorem trim_trimStart (t : Text) : trim (trimStart t) = trim t := by
  rw [trim, trimStart_trimStart, trim]

/-- The end may have been trimmed before. -/
theorem trim_trimEnd (t : Text) : trim (trimEnd t) = trim t := by
  obtain ⟨b, hb, heq⟩ := exists_append_trimEnd t
  conv_rhs => rw [heq, trim_append_of_blank hb]

/-- A character that is no blank keeps what stands before it, and itself. -/
theorem trimEnd_append_cons {c : Char} (hc : isBlank c = false) (t u : Text) :
    trimEnd (t ++ c :: u) = t ++ c :: trimEnd u := by
  have hlast : ∀ d ∈ (t ++ [c]).getLast?, isBlank d = false := by
    rw [List.getLast?_concat]
    rintro d ⟨⟩
    exact hc
  rw [List.append_cons, trimEnd_append_of_last hlast, ← List.append_cons]

theorem trim_append_cons {c : Char} (hc : isBlank c = false) (t u : Text) :
    trim (t ++ c :: u) = trimStart t ++ c :: trimEnd u := by
  have hstart : trimStart (t ++ c :: u) = trimStart t ++ c :: u := by
    by_cases hnil : trimStart t = []
    · rw [trimStart_append_of_blank hnil, trimStart_cons_of_not_blank hc, hnil, List.nil_append]
    · rw [trimStart_append hnil]
  rw [trim, hstart, trimEnd_append_cons hc]

/-! ### All blanks -/

/-- The characters of a text that are no blanks. -/
def withoutBlanks (t : Text) : Text := t.filter fun c => !isBlank c

theorem withoutBlanks_cons_of_blank {c : Char} (h : isBlank c = true) (t : Text) :
    withoutBlanks (c :: t) = withoutBlanks t :=
  List.filter_cons_of_neg (by simp [h])

theorem withoutBlanks_cons_of_not_blank {c : Char} (h : ¬ isBlank c = true) (t : Text) :
    withoutBlanks (c :: t) = c :: withoutBlanks t :=
  List.filter_cons_of_pos (by simp [h])

theorem withoutBlanks_append (t u : Text) :
    withoutBlanks (t ++ u) = withoutBlanks t ++ withoutBlanks u :=
  List.filter_append ..

theorem withoutBlanks_eq_nil {t : Text} (h : ∀ c ∈ t, isBlank c = true) : withoutBlanks t = [] := by
  refine List.filter_eq_nil_iff.mpr fun c hc => ?_
  rw [h c hc]
  exact Bool.false_ne_true

theorem withoutBlanks_eq_self {t : Text} (h : ∀ c ∈ t, isBlank c = false) : withoutBlanks t = t :=
  List.filter_eq_self.mpr fun c hc => by rw [h c hc]; rfl

theorem not_blank_of_mem_withoutBlanks {t : Text} {c : Char} (h : c ∈ withoutBlanks t) :
    isBlank c = false := by
  simpa using (List.mem_filter.mp h).2

theorem withoutBlanks_trim (t : Text) : withoutBlanks (trim t) = withoutBlanks t := by
  obtain ⟨a, b, ha, hb, heq⟩ := exists_append_trim_append t
  conv_rhs => rw [heq]
  rw [withoutBlanks_append, withoutBlanks_append, withoutBlanks_eq_nil ha, withoutBlanks_eq_nil hb,
    List.nil_append, List.append_nil]

end Text
end CosmeticFilter
