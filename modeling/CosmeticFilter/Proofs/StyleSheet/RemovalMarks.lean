import CosmeticFilter.Proofs.Text.Cut
import CosmeticFilter.StyleSheet.Removal

/-!
# Removal marks of a text that goes on

A mark has its colon at its start and nowhere else, and its brackets close within it. So a mark that
is found in a text is found there when the text goes on, no mark spans the place where two texts
meet, and whatever follows a mark is read as if the mark were not there.

* `marksFrom_append`: the marks of two texts, one after the other;
* `removalMarks_append_spelled`: a mark put behind a text counts if the text leaves the reader
  outside quotes and brackets;
* `removalMarks_trim_eq_nil_iff`: blanks at the ends do not matter.
-/

namespace CosmeticFilter

namespace Text

/-- Letter case is a matter of letters. -/
theorem eq_of_toLower {c d : Char} (hd : d.toNat < 97) (h : c.toLower = d) : c = d := by
  subst h
  unfold Char.toLower at hd ⊢
  split
  · rename_i hupper
    rw [dif_pos hupper] at hd
    have hlow : 65 ≤ c.toNat := UInt32.le_iff_toNat_le.mp hupper.1
    have hhigh : c.toNat ≤ 90 := UInt32.le_iff_toNat_le.mp hupper.2
    have hsum : (c.val + 32).toNat = c.toNat + 32 := by
      rw [UInt32.toNat_add]
      change (c.toNat + 32) % 2 ^ 32 = c.toNat + 32
      omega
    change (c.val + 32).toNat < 97 at hd
    omega
  · rfl

theorem toLower_eq_iff {c d : Char} (hd : d.toNat < 97) (hsmall : d.toLower = d) :
    c.toLower = d ↔ c = d := by
  refine ⟨eq_of_toLower hd, ?_⟩
  rintro rfl
  exact hsmall

end Text

namespace Nesting

variable {b : Brackets} {s : Nesting}

theorem opens_toLower (c : Char) : b.opens c.toLower = b.opens c := by
  have hround : c.toLower = '(' ↔ c = '(' := Text.toLower_eq_iff (by decide) (by decide)
  have hsquare : c.toLower = '[' ↔ c = '[' := Text.toLower_eq_iff (by decide) (by decide)
  rw [Bool.eq_iff_iff]
  cases b <;> simp [Brackets.opens, hround, hsquare]

theorem closes_toLower (c : Char) : b.closes c.toLower = b.closes c := by
  have hround : c.toLower = ')' ↔ c = ')' := Text.toLower_eq_iff (by decide) (by decide)
  have hsquare : c.toLower = ']' ↔ c = ']' := Text.toLower_eq_iff (by decide) (by decide)
  rw [Bool.eq_iff_iff]
  cases b <;> simp [Brackets.closes, hround, hsquare]

/-- Outside quotes, letter case does not matter for nesting. -/
theorem step_toLower (hs : s.quote = none) {c : Char} (hc : c ≠ '"' ∧ c ≠ '\'') :
    step b s c.toLower = step b s c ∧ (step b s c).quote = none := by
  have hslash : c.toLower = '\\' ↔ c = '\\' := Text.toLower_eq_iff (by decide) (by decide)
  have hdouble : c.toLower ≠ '"' := mt (Text.eq_of_toLower (by decide)) hc.1
  have hsingle : c.toLower ≠ '\'' := mt (Text.eq_of_toLower (by decide)) hc.2
  simp only [step, hs, hslash, hdouble, hsingle, hc.1, hc.2, opens_toLower, closes_toLower, or_self,
    if_false, true_and]
  split_ifs <;> first | rfl | exact hs

theorem after_lower (hs : s.quote = none) {t : Text} (ht : ∀ c ∈ t, c ≠ '"' ∧ c ≠ '\'') :
    after b s (Text.lower t) = after b s t := by
  induction t generalizing s with
  | nil => rfl
  | cons c r ih =>
    obtain ⟨hc, hr⟩ := List.forall_mem_cons.mp ht
    obtain ⟨hstep, hquote⟩ := step_toLower (b := b) hs hc
    rw [Text.lower, List.map_cons, after_cons, after_cons, hstep]
    exact ih hquote hr

end Nesting

namespace StyleSheet

open Nesting (settled_top isTop_iff)

variable {s : Nesting}

/-! ### One mark -/

theorem removalMark_eq : removalMark = ':' :: "remove()".toList := by decide

theorem length_removalMark : removalMark.length = 9 := by decide

/-- A text that is the mark in any letter case. -/
theorem cutMark?_eq_some {t m rest : Text} (h : cutMark? t = some (m, rest)) :
    t = m ++ rest ∧ Text.lower m = removalMark := by
  unfold cutMark? at h
  split at h
  · rename_i hsame
    obtain ⟨rfl, rfl⟩ := Prod.mk.inj (Option.some_inj.mp h)
    refine ⟨(List.take_append_drop ..).symm, ?_⟩
    rw [Text.sameIgnoringCase, beq_iff_eq] at hsame
    rw [hsame]
    decide
  · exact absurd h (by simp)

theorem cutMark?_append_of_lower {m : Text} (hm : Text.lower m = removalMark) (rest : Text) :
    cutMark? (m ++ rest) = some (m, rest) := by
  have hlength : m.length = removalMark.length := by rw [← Text.length_lower, hm]
  have hsame : Text.sameIgnoringCase m removalMark = true := by
    rw [Text.sameIgnoringCase, hm, beq_iff_eq]
    decide
  rw [cutMark?, ← hlength, List.take_left' rfl, List.drop_left' rfl, if_pos hsame]

/-- A mark starts with its colon. -/
theorem cutMark?_cons_of_ne {c : Char} (hc : c ≠ ':') (r : Text) : cutMark? (c :: r) = none := by
  rw [Option.eq_none_iff_forall_ne_some]
  rintro ⟨m, rest⟩ hcut
  obtain ⟨heq, hm⟩ := cutMark?_eq_some hcut
  rw [removalMark_eq] at hm
  obtain ⟨d, m, rfl, hd, -⟩ := List.map_eq_cons_iff.mp hm
  rw [(List.cons.inj heq).1] at hc
  exact hc (Text.eq_of_toLower (by decide) hd)

/-- Behind a mark the reader is where it was in front of it. -/
theorem after_mark {m : Text} (hm : Text.lower m = removalMark) :
    Nesting.top.after .roundAndSquare m = .top := by
  have hplain : ∀ c ∈ m, c ≠ '"' ∧ c ≠ '\'' := by
    have hno : '"' ∉ removalMark ∧ '\'' ∉ removalMark := by decide
    intro c hc
    have hlower : c.toLower ∈ removalMark := hm ▸ List.mem_map_of_mem hc
    constructor
    · rintro rfl
      exact hno.1 hlower
    · rintro rfl
      exact hno.2 hlower
  rw [← Nesting.after_lower rfl hplain, hm]
  decide

/-- No mark spans the place where a text is followed by one that no mark goes on with. -/
theorem cutMark?_append {t u : Text} (ht : t ≠ [])
    (hu : ∀ c ∈ u.head?, c.toLower ∉ "remove()".toList) :
    cutMark? (t ++ u) = (cutMark? t).map fun (m, rest) => (m, rest ++ u) := by
  cases hcut : cutMark? t with
  | some found =>
    obtain ⟨m, rest⟩ := found
    obtain ⟨rfl, hm⟩ := cutMark?_eq_some hcut
    rw [List.append_assoc, cutMark?_append_of_lower hm]
    rfl
  | none =>
    rw [Option.map_none, Option.eq_none_iff_forall_ne_some]
    rintro ⟨m, rest⟩ hfound
    obtain ⟨heq, hm⟩ := cutMark?_eq_some hfound
    rcases List.append_eq_append_iff.mp heq with ⟨v, rfl, rfl⟩ | ⟨v, rfl, rfl⟩
    · -- the mark goes on behind the text, so its first character there is not its colon
      cases v with
      | nil =>
        rw [List.append_nil] at hm
        have hwhole := cutMark?_append_of_lower hm []
        rw [List.append_nil, hcut] at hwhole
        exact absurd hwhole (by simp)
      | cons c v =>
        obtain ⟨d, t, rfl⟩ := List.exists_cons_of_ne_nil ht
        rw [removalMark_eq, Text.lower, List.cons_append, List.map_cons, List.cons.injEq,
          List.map_append, List.map_cons] at hm
        refine hu c rfl ?_
        rw [← hm.2]
        simp
    · rw [cutMark?_append_of_lower hm] at hcut
      exact absurd hcut (by simp)

/-! ### All marks -/

@[simp] theorem marksFrom_nil (s : Nesting) : marksFrom s [] = [] := by rw [marksFrom]

theorem marksFrom_cons_of_none {c : Char} {r : Text}
    (h : s.isTop = true → cutMark? (c :: r) = none) :
    marksFrom s (c :: r) = (marksFrom (s.step .roundAndSquare c) r).map (Text.onto c) := by
  have hnone : (if s.isTop then cutMark? (c :: r) else none) = none := by
    split
    · exact h ‹_›
    · rfl
  rw [marksFrom, hnone]

/-- A mark, and those behind it. -/
theorem marksFrom_mark {m : Text} (hm : Text.lower m = removalMark) (rest : Text) :
    marksFrom .top (m ++ rest) =
      ([], rest) :: (marksFrom .top rest).map fun (x, y) => (m ++ x, y) := by
  have hlength : m.length = 9 := by rw [← Text.length_lower, hm, length_removalMark]
  obtain ⟨c, m, rfl⟩ := List.exists_cons_of_length_pos (Nat.lt_of_lt_of_eq (by decide) hlength.symm)
  have hcut := cutMark?_append_of_lower hm rest
  rw [List.cons_append] at hcut ⊢
  rw [marksFrom, if_pos (by decide), hcut]
  exact if_pos (by simp)

/-- Without a colon there is no mark. -/
theorem marksFrom_eq_nil {t : Text} (h : ':' ∉ t) (s : Nesting) : marksFrom s t = [] := by
  induction t generalizing s with
  | nil => exact marksFrom_nil s
  | cons c r ih =>
    obtain ⟨hc, hr⟩ := not_or.mp (mt List.mem_cons.mpr h)
    rw [marksFrom_cons_of_none fun _ => cutMark?_cons_of_ne (Ne.symm hc) r, ih hr, List.map_nil]

/-- A mark by itself, in any letter case, counts outside quotes and brackets. -/
theorem marksFrom_spelled {m : Text} (hm : Text.lower m = removalMark) (s : Nesting) :
    marksFrom s m = if s.isTop then [([], [])] else [] := by
  split
  · rename_i htop
    have hmark := marksFrom_mark hm []
    rwa [List.append_nil, marksFrom_nil, List.map_nil, ← isTop_iff.mp htop] at hmark
  · rename_i htop
    rw [removalMark_eq] at hm
    obtain ⟨c, r, rfl, -, hr⟩ := List.map_eq_cons_iff.mp hm
    have hcolon : ':' ∉ r := by
      intro hmem
      have hlower : ':' ∈ "remove()".toList := hr ▸ List.mem_map_of_mem (f := Char.toLower) hmem
      exact absurd hlower (by decide)
    rw [marksFrom_cons_of_none fun h => absurd h htop, marksFrom_eq_nil hcolon, List.map_nil]

/-- The induction on a text that takes off a mark as a whole, and any other character. -/
theorem marks_induction {motive : Nesting → Text → Prop} (nil : ∀ s, motive s [])
    (mark : ∀ m rest, Text.lower m = removalMark → motive .top rest → motive .top (m ++ rest))
    (other : ∀ s c r, (s.isTop = true → cutMark? (c :: r) = none) →
      motive (s.step .roundAndSquare c) r → motive s (c :: r)) (s : Nesting) (t : Text) :
    motive s t := by
  induction hlength : t.length using Nat.strong_induction_on generalizing s t with
  | _ n ih =>
    subst hlength
    cases t with
    | nil => exact nil s
    | cons c r =>
      by_cases hmark : s.isTop = true ∧ ∃ found, cutMark? (c :: r) = some found
      · obtain ⟨htop, ⟨m, rest⟩, hcut⟩ := hmark
        obtain ⟨heq, hm⟩ := cutMark?_eq_some hcut
        have hshort : rest.length < (c :: r).length := by
          rw [heq, List.length_append, ← Text.length_lower m, hm, length_removalMark]
          omega
        rw [isTop_iff.mp htop, heq]
        exact mark m rest hm (ih _ hshort .top rest rfl)
      · refine other s c r (fun htop => ?_) (ih _ (Nat.lt_succ_self _) _ r rfl)
        exact Option.eq_none_iff_forall_ne_some.mpr fun found hfound => hmark ⟨htop, found, hfound⟩

/-- The marks of a text that goes on are its own and those of what follows it. -/
theorem marksFrom_append {u : Text} (hu : ∀ c ∈ u.head?, c.toLower ∉ "remove()".toList)
    (s : Nesting) (t : Text) :
    marksFrom s (t ++ u) =
      (marksFrom s t).map (fun (x, y) => (x, y ++ u)) ++
        (marksFrom (s.after .roundAndSquare t) u).map fun (x, y) => (t ++ x, y) := by
  induction s, t using marks_induction with
  | nil s => simp
  | mark m rest hm ih =>
    rw [List.append_assoc, marksFrom_mark hm, marksFrom_mark hm, ih, Nesting.after_append,
      after_mark hm]
    simp [Function.comp_def]
  | other s c r hnone ih =>
    have hwhole : s.isTop = true → cutMark? (c :: (r ++ u)) = none := fun htop => by
      rw [← List.cons_append, cutMark?_append (List.cons_ne_nil c r) hu, hnone htop,
        Option.map_none]
    rw [List.cons_append, marksFrom_cons_of_none hwhole, marksFrom_cons_of_none hnone, ih,
      Nesting.after_cons]
    simp [Function.comp_def, Text.onto]

/-- A mark stands where it is found. -/
theorem exists_of_mem_marksFrom {s : Nesting} {t x y : Text} (h : (x, y) ∈ marksFrom s t) :
    ∃ m, t = x ++ (m ++ y) ∧ Text.lower m = removalMark := by
  induction s, t using marks_induction generalizing x with
  | nil s =>
    rw [marksFrom_nil] at h
    exact absurd h List.not_mem_nil
  | mark m rest hm ih =>
    rw [marksFrom_mark hm] at h
    rcases List.mem_cons.mp h with hfirst | hlater
    · obtain ⟨rfl, rfl⟩ := Prod.mk.inj hfirst
      exact ⟨m, rfl, hm⟩
    · obtain ⟨⟨x', y'⟩, hmem, hpair⟩ := List.mem_map.mp hlater
      obtain ⟨rfl, rfl⟩ := Prod.mk.inj hpair
      obtain ⟨m', hrest, hm'⟩ := ih hmem
      exact ⟨m', by rw [hrest, List.append_assoc], hm'⟩
  | other s c r hnone ih =>
    rw [marksFrom_cons_of_none hnone] at h
    obtain ⟨⟨x', y'⟩, hmem, hpair⟩ := List.mem_map.mp h
    obtain ⟨rfl, rfl⟩ := Prod.mk.inj hpair
    obtain ⟨m, hr, hm⟩ := ih hmem
    exact ⟨m, by rw [hr]; rfl, hm⟩

/-- A mark put behind a text, in any letter case, counts if the text leaves the reader outside
everything. -/
theorem removalMarks_append_spelled {m : Text} (hm : Text.lower m = removalMark) (t : Text) :
    removalMarks (t ++ m) =
      (removalMarks t).map (fun (x, y) => (x, y ++ m)) ++
        if (Nesting.top.after .roundAndSquare t).isTop then [(t, [])] else [] := by
  have hhead : ∀ c ∈ m.head?, c.toLower ∉ "remove()".toList := by
    rw [removalMark_eq] at hm
    obtain ⟨c, r, rfl, hc, -⟩ := List.map_eq_cons_iff.mp hm
    rintro d ⟨⟩
    rw [hc]
    decide
  rw [removalMarks, marksFrom_append hhead, marksFrom_spelled hm, apply_ite (List.map _)]
  simp [removalMarks]

theorem removalMarks_append_removalMark (t : Text) :
    removalMarks (t ++ removalMark) =
      (removalMarks t).map (fun (x, y) => (x, y ++ removalMark)) ++
        if (Nesting.top.after .roundAndSquare t).isTop then [(t, [])] else [] :=
  removalMarks_append_spelled (by decide) t

/-- Blanks hold no mark, and no mark goes on with one. -/
theorem removalMarks_append_of_blank {b : Text} (hb : ∀ c ∈ b, Text.isBlank c = true) (t : Text) :
    removalMarks (t ++ b) = (removalMarks t).map fun (x, y) => (x, y ++ b) := by
  have hcolon : ':' ∉ b := fun hmem => absurd (hb _ hmem) (by decide)
  have hhead : ∀ c ∈ b.head?, c.toLower ∉ "remove()".toList := by
    intro c hc hmem
    have hblank := hb c (List.mem_of_mem_head? hc)
    rw [Text.toLower_of_blank hblank] at hmem
    have hno : "remove()".toList.any Text.isBlank = false := by decide
    exact List.any_eq_false.mp hno c hmem hblank
  rw [removalMarks, marksFrom_append hhead, marksFrom_eq_nil hcolon, List.map_nil, List.append_nil,
    removalMarks]

theorem removalMarks_cons_of_blank {c : Char} (hc : Text.isBlank c = true) (t : Text) :
    removalMarks (c :: t) = (removalMarks t).map (Text.onto c) := by
  have hcolon : c ≠ ':' := by
    rintro rfl
    exact absurd hc (by decide)
  rw [removalMarks, marksFrom_cons_of_none fun _ => cutMark?_cons_of_ne hcolon t,
    settled_top.step_of_blank hc, removalMarks]

theorem removalMarks_blank_append {b : Text} (hb : ∀ c ∈ b, Text.isBlank c = true) (t : Text) :
    removalMarks (b ++ t) = (removalMarks t).map fun (x, y) => (b ++ x, y) := by
  induction b with
  | nil => simp
  | cons c b ih =>
    obtain ⟨hc, hb⟩ := List.forall_mem_cons.mp hb
    rw [List.cons_append, removalMarks_cons_of_blank hc, ih hb, List.map_map]
    rfl

theorem removalMarks_trimStart_eq_nil_iff (t : Text) :
    removalMarks (Text.trimStart t) = [] ↔ removalMarks t = [] := by
  obtain ⟨b, hb, heq⟩ := Text.exists_trimStart_append t
  conv_rhs => rw [heq, removalMarks_blank_append hb, List.map_eq_nil_iff]

/-- Blanks at the ends do not matter. -/
theorem removalMarks_trim_eq_nil_iff (t : Text) :
    removalMarks (Text.trim t) = [] ↔ removalMarks t = [] := by
  obtain ⟨b, hb, heq⟩ := Text.exists_append_trimEnd (Text.trimStart t)
  rw [← removalMarks_trimStart_eq_nil_iff t, Text.trim]
  conv_rhs => rw [heq, removalMarks_append_of_blank hb, List.map_eq_nil_iff]

end StyleSheet
end CosmeticFilter
