import CosmeticFilter.Css.Nth
import CosmeticFilter.Proofs.Text.Cut
import CosmeticFilter.Proofs.Text.Integers

/-!
# How `An+B` is spelled

In the notation of a step and an offset, blanks may stand on either side of the sign between the two
and nowhere else. The reader leaves out all blanks before it looks at anything, so where they stand
makes no difference to it. What is spelled as it should be is read as it should be; but `1 2` is
read as 12, `o d d` as `odd`, and `- n` as `-n`.

* `IsCoefficient`, `IsStep`: the numbers in the notation, and what may stand for the step;
* `IsSpelled`, `Spells`: how the notation is spelled;
* `IsSpaced`, `isSpelled_iff`: where blanks may stand, apart from everything else;
* `ofText?_eq_some_iff`: what is read, and what of it is spelled as it should be;
* `not_spells_of_ofText?`: a number with a blank in it.
-/

namespace CosmeticFilter

/-- Letters are no blanks, in either case. -/
theorem Text.isBlank_toLower (c : Char) : isBlank c.toLower = isBlank c := by
  unfold Char.toLower
  split
  · rename_i hupper
    have hlow : 65 ≤ c.toNat := UInt32.le_iff_toNat_le.mp hupper.1
    have hhigh : c.toNat ≤ 90 := UInt32.le_iff_toNat_le.mp hupper.2
    have hsum : (c.val + 32).toNat = c.toNat + 32 := by
      rw [UInt32.toNat_add]
      change (c.toNat + 32) % 2 ^ 32 = c.toNat + 32
      omega
    have hsmall : ∀ d : Char, 65 ≤ d.toNat → d.toNat ≤ 122 → isBlank d = false := by
      intro d hd hd'
      simp only [isBlank, Bool.or_eq_false_iff, Bool.and_eq_false_iff, decide_eq_false_iff_not,
        beq_eq_false_iff_ne]
      omega
    change 65 ≤ c.toNat at hlow
    rw [hsmall c hlow (by omega), hsmall _ (by change 65 ≤ (c.val + 32).toNat; omega)
      (by change (c.val + 32).toNat ≤ 122; omega)]
  · rfl

theorem Text.withoutBlanks_lower (t : Text) :
    withoutBlanks (lower t) = lower (withoutBlanks t) := by
  unfold withoutBlanks lower
  rw [List.filter_map]
  congr 2
  funext c
  exact congrArg (!·) (isBlank_toLower c)

namespace Css
namespace Nth

open Text (IsDigitOrSign IsInt32 IsInteger IsSign isBlank withoutBlanks)

/-! ### The notation -/

/-- A whole number that fits 32 bits. -/
def IsCoefficient (t : Text) (n : Int) : Prop := IsInteger t n ∧ IsInt32 n

/-- What may stand in front of `n`. -/
inductive IsStep : Text → Int → Prop where
  /-- A sign, or nothing, stands for one. -/
  | bare {t : Text} {a : Int} (h : IsSign t a) : IsStep t a
  /-- A number. -/
  | number {t : Text} {a : Int} (h : IsCoefficient t a) : IsStep t a

/-- The text spells the notation in small letters, without blanks around it. -/
inductive IsSpelled : Text → Nth → Prop where
  /-- The odd positions. -/
  | odd : IsSpelled "odd".toList ⟨2, 1⟩
  /-- The even positions. -/
  | even : IsSpelled "even".toList ⟨2, 0⟩
  /-- An offset by itself. -/
  | offset {t : Text} {b : Int} (h : IsCoefficient t b) : IsSpelled t ⟨0, b⟩
  /-- A step by itself. -/
  | step {t : Text} {a : Int} (h : IsStep t a) : IsSpelled (t ++ ['n']) ⟨a, 0⟩
  /-- A step and an offset that has a sign, with or without blanks around the sign. -/
  | sum {t before after digits : Text} {c : Char} {a b : Int} (h : IsStep t a)
      (hbefore : ∀ d ∈ before, isBlank d = true) (hc : c = '+' ∨ c = '-')
      (hafter : ∀ d ∈ after, isBlank d = true) (hb : IsCoefficient (c :: digits) b) :
      IsSpelled (t ++ 'n' :: (before ++ c :: (after ++ digits))) ⟨a, b⟩

/-- The text spells the notation, letter case and blanks around it aside. -/
def Spells (t : Text) (nth : Nth) : Prop := IsSpelled (Text.lower (Text.trim t)) nth

/-- If there are blanks at all, they stand on either side of a sign behind `n`. -/
def IsSpaced (t : Text) : Prop :=
  (∀ d ∈ t, isBlank d = false) ∨
    ∃ front before c after back, t = front ++ 'n' :: (before ++ c :: (after ++ back)) ∧
      (∀ d ∈ before, isBlank d = true) ∧ (c = '+' ∨ c = '-') ∧ (∀ d ∈ after, isBlank d = true) ∧
      (∀ d ∈ front, isBlank d = false) ∧ ∀ d ∈ back, isBlank d = false

variable {s t : Text} {nth : Nth} {a b : Int} {c : Char}

theorem IsStep.isDigitOrSign (h : IsStep t a) : ∀ c ∈ t, IsDigitOrSign c := by
  cases h with
  | bare h => exact h.isDigitOrSign
  | number h => exact h.1.isDigitOrSign

/-- There is no `n` among digits and signs. -/
theorem not_mem_of_isDigitOrSign (ht : ∀ c ∈ t, IsDigitOrSign c) : 'n' ∉ t :=
  fun hn => absurd (ht 'n' hn) (by decide)

theorem not_blank_of_isDigitOrSign (ht : ∀ c ∈ t, IsDigitOrSign c) : ∀ c ∈ t, isBlank c = false :=
  fun c hc => Text.not_blank_of_isDigitOrSign (ht c hc)

/-! ### Where blanks stand -/

theorem withoutBlanks_sum {front before after back : Text} (hc : c = '+' ∨ c = '-')
    (hbefore : ∀ d ∈ before, isBlank d = true) (hafter : ∀ d ∈ after, isBlank d = true)
    (hfront : ∀ d ∈ front, isBlank d = false) (hback : ∀ d ∈ back, isBlank d = false) :
    withoutBlanks (front ++ 'n' :: (before ++ c :: (after ++ back))) =
      front ++ 'n' :: c :: back := by
  have hn : ¬ isBlank 'n' = true := by decide
  have hc : ¬ isBlank c = true := by rcases hc with rfl | rfl <;> decide
  rw [Text.withoutBlanks_append, Text.withoutBlanks_cons_of_not_blank hn, Text.withoutBlanks_append,
    Text.withoutBlanks_cons_of_not_blank hc, Text.withoutBlanks_append,
    Text.withoutBlanks_eq_nil hbefore, Text.withoutBlanks_eq_nil hafter,
    Text.withoutBlanks_eq_self hfront, Text.withoutBlanks_eq_self hback, List.nil_append,
    List.nil_append]

/-- A step and an offset without blanks between them. -/
theorem IsSpelled.unspaced {digits : Text} (h : IsStep t a) (hc : c = '+' ∨ c = '-')
    (hb : IsCoefficient (c :: digits) b) : IsSpelled (t ++ 'n' :: c :: digits) ⟨a, b⟩ :=
  @IsSpelled.sum t [] [] digits c a b h (by simp) hc (by simp) hb

/-- The notation has blanks where they may stand, and without them it is still the notation. -/
theorem IsSpelled.withoutBlanks (h : IsSpelled t nth) :
    IsSpelled (withoutBlanks t) nth ∧ IsSpaced t := by
  have hnone : (∀ d ∈ t, isBlank d = false) → IsSpelled (Text.withoutBlanks t) nth ∧ IsSpaced t :=
    fun ht => ⟨by rwa [Text.withoutBlanks_eq_self ht], .inl ht⟩
  cases h with
  | odd => exact hnone (Text.not_blank_of_any (by decide))
  | even => exact hnone (Text.not_blank_of_any (by decide))
  | offset h => exact hnone (not_blank_of_isDigitOrSign h.1.isDigitOrSign)
  | step h =>
    refine hnone fun d hd => ?_
    rcases List.mem_append.mp hd with hd | hd
    · exact not_blank_of_isDigitOrSign h.isDigitOrSign d hd
    · rw [List.mem_singleton.mp hd]
      decide
  | sum h hbefore hc hafter hb =>
    have hfront := not_blank_of_isDigitOrSign h.isDigitOrSign
    have hback := (List.forall_mem_cons.mp (not_blank_of_isDigitOrSign hb.1.isDigitOrSign)).2
    refine ⟨?_, .inr ⟨_, _, _, _, _, rfl, hbefore, hc, hafter, hfront, hback⟩⟩
    rw [withoutBlanks_sum hc hbefore hafter hfront hback]
    exact .unspaced h hc hb

/-- Where a sign stands behind `n`, the notation is a step and an offset. -/
theorem IsSpelled.of_signed {front back : Text} (hc : c = '+' ∨ c = '-')
    (hback : ∀ d ∈ back, isBlank d = false) (h : IsSpelled (front ++ 'n' :: c :: back) nth) :
    ∃ a b, IsStep front a ∧ IsCoefficient (c :: back) b ∧ nth = ⟨a, b⟩ := by
  generalize hs : front ++ 'n' :: c :: back = s at h
  have hn : 'n' ∈ s := hs ▸ List.mem_append_right _ List.mem_cons_self
  have hsign : c ∈ s := hs ▸ List.mem_append_right _ (List.mem_cons_of_mem _ List.mem_cons_self)
  have hblank : isBlank c = false := by rcases hc with rfl | rfl <;> decide
  cases h with
  | odd => rcases hc with rfl | rfl <;> exact absurd hsign (by decide)
  | even => rcases hc with rfl | rfl <;> exact absurd hsign (by decide)
  | offset h => exact absurd hn (not_mem_of_isDigitOrSign h.1.isDigitOrSign)
  | step h =>
    have hparts := (List.append_cons_inj_of_notMem
      (not_mem_of_isDigitOrSign h.isDigitOrSign) List.not_mem_nil).mp hs.symm
    cases hparts.2.2
  | @sum t before after digits c' a b h hbefore hc' hafter hb =>
    have hrest : 'n' ∉ before ++ c' :: (after ++ digits) := by
      have hblanks : ∀ {u : Text}, (∀ d ∈ u, isBlank d = true) → 'n' ∉ u :=
        fun hu hn => absurd (hu 'n' hn) (by decide)
      have hdigits := not_mem_of_isDigitOrSign hb.1.isDigitOrSign
      simp only [List.mem_append, List.mem_cons, not_or] at hdigits ⊢
      exact ⟨hblanks hbefore, hdigits.1, hblanks hafter, hdigits.2⟩
    obtain ⟨rfl, -, heq⟩ := (List.append_cons_inj_of_notMem
      (not_mem_of_isDigitOrSign h.isDigitOrSign) hrest).mp hs.symm
    cases before with
    | cons d r =>
      have hd := hbefore d List.mem_cons_self
      rw [(List.cons.inj heq).1, hblank] at hd
      cases hd
    | nil =>
      obtain ⟨rfl, rfl⟩ := List.cons.inj heq
      cases after with
      | cons d r =>
        have hd := hafter d List.mem_cons_self
        rw [hback d List.mem_cons_self] at hd
        cases hd
      | nil => exact ⟨a, b, h, hb, rfl⟩

/-- **Where blanks may stand.** The notation is spelled as it should be if it is so without blanks,
and blanks stand where they may. -/
theorem isSpelled_iff : IsSpelled t nth ↔ IsSpelled (withoutBlanks t) nth ∧ IsSpaced t := by
  refine ⟨IsSpelled.withoutBlanks, ?_⟩
  rintro ⟨h, hnone | ⟨front, before, c, after, back, rfl, hbefore, hc, hafter, hfront, hback⟩⟩
  · rwa [Text.withoutBlanks_eq_self hnone] at h
  · rw [withoutBlanks_sum hc hbefore hafter hfront hback] at h
    obtain ⟨a, b, hstep, hb, rfl⟩ := h.of_signed hc hback
    exact .sum hstep hbefore hc hafter hb

/-! ### What is read -/

theorem readInt32?_eq_some_iff : Text.readInt32? t = some a ↔ IsCoefficient t a :=
  Text.readInt32?_eq_some_iff

theorem readStep?_eq_some_iff : readStep? t = some a ↔ IsStep t a := by
  unfold readStep?
  constructor
  · intro h
    split_ifs at h with hplus hminus
    · obtain rfl := Option.some_inj.mp h
      rcases hplus with rfl | rfl
      · exact .bare .absent
      · exact .bare .plus
    · obtain rfl := Option.some_inj.mp h
      rw [hminus]
      exact .bare .minus
    · exact .number (readInt32?_eq_some_iff.mp h)
  · intro h
    cases h with
    | bare h => cases h <;> rfl
    | number h =>
      have hread := readInt32?_eq_some_iff.mpr h
      have hne : ∀ {u : Text}, Text.readInt32? u = none → t ≠ u := by
        rintro u hu rfl
        rw [hread] at hu
        cases hu
      rw [if_neg (not_or.mpr ⟨hne (by decide), hne (by decide)⟩), if_neg (hne (by decide)), hread]

theorem readOffset?_eq_some_iff :
    readOffset? t = some b ↔
      (t = [] ∧ b = 0) ∨ ∃ c digits, t = c :: digits ∧ (c = '+' ∨ c = '-') ∧ IsCoefficient t b := by
  cases t with
  | nil => simp [readOffset?, eq_comm]
  | cons c r =>
    rw [readOffset?]
    split_ifs with hc
    · rw [readInt32?_eq_some_iff]
      exact ⟨fun h => .inr ⟨c, r, rfl, hc, h⟩, by simp⟩
    · simp [hc]

/-- What is read is spelled as it should be, but for blanks. -/
theorem isSpelled_of_ofText? (h : ofText? t = some nth) :
    IsSpelled (Text.lower (withoutBlanks t)) nth := by
  unfold Nth.ofText? at h
  unfold Text.withoutBlanks
  dsimp only at h
  generalize Text.lower (List.filter (fun c => !isBlank c) t) = s at h ⊢
  split_ifs at h with hodd heven
  · obtain rfl := Option.some_inj.mp h
    rw [hodd]
    exact .odd
  · obtain rfl := Option.some_inj.mp h
    rw [heven]
    exact .even
  · split at h
    · obtain ⟨b, hb, rfl⟩ := Option.map_eq_some_iff.mp h
      exact .offset (readInt32?_eq_some_iff.mp hb)
    · rename_i front back hcut
      obtain ⟨c, hc, -, rfl⟩ := Text.cutFirst_eq_some_iff.mp hcut
      obtain rfl := beq_iff_eq.mp hc
      split at h
      · rename_i a b hstep hoffset
        obtain rfl := Option.some_inj.mp h
        have hfront := readStep?_eq_some_iff.mp hstep
        rcases readOffset?_eq_some_iff.mp hoffset with ⟨rfl, rfl⟩ | ⟨c, digits, rfl, hsign, hb⟩
        · exact .step hfront
        · exact .unspaced hfront hsign hb
      · cases h

/-- Without blanks, the notation is a keyword, a number, or cut at its `n`. -/
theorem IsSpelled.cases_of_not_blank (ht : ∀ d ∈ t, isBlank d = false) (h : IsSpelled t nth) :
    (t = "odd".toList ∧ nth = ⟨2, 1⟩) ∨ (t = "even".toList ∧ nth = ⟨2, 0⟩) ∨
      (∃ b, IsCoefficient t b ∧ nth = ⟨0, b⟩) ∨
      ∃ front back a b, t = front ++ 'n' :: back ∧ IsStep front a ∧ (∀ d ∈ back, IsDigitOrSign d) ∧
        readOffset? back = some b ∧ nth = ⟨a, b⟩ := by
  cases h with
  | odd => exact .inl ⟨rfl, rfl⟩
  | even => exact .inr (.inl ⟨rfl, rfl⟩)
  | offset h => exact .inr (.inr (.inl ⟨_, h, rfl⟩))
  | step h => exact .inr (.inr (.inr ⟨_, [], _, 0, rfl, h, by simp, rfl, rfl⟩))
  | sum h hbefore hc hafter hb =>
    -- the blanks on either side of the sign are none
    have hnone := Text.withoutBlanks_eq_self ht
    rw [withoutBlanks_sum hc hbefore hafter (not_blank_of_isDigitOrSign h.isDigitOrSign)
      (List.forall_mem_cons.mp (not_blank_of_isDigitOrSign hb.1.isDigitOrSign)).2] at hnone
    exact .inr (.inr (.inr ⟨_, _, _, _, hnone.symm, h, hb.1.isDigitOrSign,
      readOffset?_eq_some_iff.mpr (.inr ⟨_, _, rfl, hc, hb⟩), rfl⟩))

/-- What is spelled as it should be is read, with any blanks in it. -/
theorem ofText?_of_isSpelled (h : IsSpelled (Text.lower (withoutBlanks t)) nth) :
    ofText? t = some nth := by
  have hblank : ∀ d ∈ Text.lower (withoutBlanks t), isBlank d = false := fun d hd =>
    Text.not_blank_of_mem_withoutBlanks (Text.withoutBlanks_lower t ▸ hd)
  unfold Nth.ofText?
  unfold Text.withoutBlanks at h hblank
  dsimp only
  generalize Text.lower (List.filter (fun c => !isBlank c) t) = s at h hblank ⊢
  have hkeyword : (∀ d ∈ s, IsDigitOrSign d ∨ d = 'n') → s ≠ "odd".toList ∧ s ≠ "even".toList := by
    intro hs
    constructor
    · rintro rfl
      exact absurd (hs 'o' (by decide)) (by decide)
    · rintro rfl
      exact absurd (hs 'e' (by decide)) (by decide)
  rcases h.cases_of_not_blank hblank with ⟨rfl, rfl⟩ | ⟨rfl, rfl⟩ | ⟨b, hb, rfl⟩ |
    ⟨front, back, a, b, rfl, hstep, hback, hoffset, rfl⟩
  · rfl
  · rfl
  · have hplain := hb.1.isDigitOrSign
    obtain ⟨hodd, heven⟩ := hkeyword fun d hd => .inl (hplain d hd)
    have hcut : Text.cutFirst (· == 'n') s = none := Text.cutFirst_eq_none_iff.mpr fun d hd =>
      beq_eq_false_iff_ne.mpr fun heq => not_mem_of_isDigitOrSign hplain (heq ▸ hd)
    rw [if_neg hodd, if_neg heven, hcut]
    exact Option.map_eq_some_iff.mpr ⟨b, readInt32?_eq_some_iff.mpr hb, rfl⟩
  · have hfront := hstep.isDigitOrSign
    obtain ⟨hodd, heven⟩ := hkeyword (by grind)
    have hcut : Text.cutFirst (· == 'n') (front ++ 'n' :: back) = some (front, back) :=
      Text.cutFirst_eq_some_iff.mpr ⟨'n', rfl, fun d hd =>
        beq_eq_false_iff_ne.mpr fun heq => not_mem_of_isDigitOrSign hfront (heq ▸ hd), rfl⟩
    rw [if_neg hodd, if_neg heven, hcut]
    dsimp only
    rw [readStep?_eq_some_iff.mpr hstep, hoffset]

/-- **What is read as `An+B`.** A text is read if it is spelled as it should be when all blanks have
been taken out, wherever they stood; and then it is read as what it spells. So every text that is
spelled as it should be is read, and of those that are read, the ones that are not spelled so are
those with a blank that does not stand beside the sign. -/
theorem ofText?_eq_some_iff (t : Text) (nth : Nth) :
    (ofText? t = some nth ↔ IsSpelled (Text.lower (withoutBlanks t)) nth) ∧
      (Spells t nth ↔ ofText? t = some nth ∧ IsSpaced (Text.lower (Text.trim t))) := by
  have hread : ofText? t = some nth ↔ IsSpelled (Text.lower (withoutBlanks t)) nth :=
    ⟨isSpelled_of_ofText?, ofText?_of_isSpelled⟩
  refine ⟨hread, ?_⟩
  rw [hread, Spells, isSpelled_iff, Text.withoutBlanks_lower, Text.withoutBlanks_trim]

/-- **A number with a blank in it** is read, although it is not spelled as it should be. -/
theorem not_spells_of_ofText? :
    ¬ ∀ (t : Text) (nth : Nth), ofText? t = some nth ↔ Spells t nth := by
  intro h
  have hspells : Spells "1 2".toList ⟨0, 12⟩ := (h _ _).mp (by decide)
  rcases (isSpelled_iff.mp hspells).2 with hnone | ⟨front, before, c, after, back, heq, -⟩
  · exact absurd (hnone ' ' (by decide)) (by decide)
  · have hn : 'n' ∈ Text.lower (Text.trim "1 2".toList) :=
      heq ▸ List.mem_append_right _ List.mem_cons_self
    exact absurd hn (by decide)

end Nth
end Css
end CosmeticFilter
