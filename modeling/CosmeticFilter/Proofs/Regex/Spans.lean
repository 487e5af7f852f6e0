import CosmeticFilter.Regex.Matching
import Mathlib.Data.List.Basic

/-!
# What a regular expression spans

An expression is run on all places of a text at once, by marks, and a repetition goes round until no
new place turns up. What an expression means is said here without marks: from which place of the
text to which it reaches. The two agree, so a question about a search is a question about places.

* `Steps`, `Spans`: the meaning of an expression;
* `isMarked_reach`, `isMarked_walk`: what repetitions mark. A round that adds no place ends a
  repetition, and each round before it adds one, so as many rounds as there are places are enough;
* `spans_char_iff`, `steps_set_iff`: a character, and a run of characters of a set;
* `isMarked_run`: the marks after an expression are the places to which it reaches;
* `isMatch_iff_spans`: an expression occurs in a text if it reaches from one of its places anywhere.
-/

namespace CosmeticFilter
namespace Regex

/-- So many steps in a row lead from one place to another. -/
def Steps (R : Nat → Nat → Prop) : Nat → Nat → Nat → Prop
  | 0, i, j => i = j
  | n + 1, i, j => ∃ k, R i k ∧ Steps R n k j

/-- The character before a place, where `before` stands in front of the text. -/
def charBefore (before : Option Char) (t : Text) : Nat → Option Char
  | 0 => before
  | i + 1 => t[i]?

/-- The expression matches what stands between the two places of the text. -/
def Spans (t : Text) : Regex → Nat → Nat → Prop
  | empty, i, j => i = j
  | set s, i, j => j = i + 1 ∧ ∃ c, t[i]? = some c ∧ s.mem c = true
  | assert a, i, j => i = j ∧ a.holds (charBefore none t i) t[i]? = true
  | seq r s, i, j => ∃ k, Spans t r i k ∧ Spans t s k j
  | alt r s, i, j => Spans t r i j ∨ Spans t s i j
  | repeated r least most, i, j =>
    ∃ n, least ≤ n ∧ (∀ k ∈ most, n ≤ max least k) ∧ Steps (Spans t r) n i j

/-- The place is marked. -/
def IsMarked (m : Marks) (i : Nat) : Prop := m[i]? = some true

variable {R : Nat → Nat → Prop} {t : Text} {m n : Marks} {i j k : Nat}

/-- Steps in a row may be told apart into those before and those after a place. -/
theorem steps_add_iff {a b : Nat} :
    Steps R (a + b) i j ↔ ∃ k, Steps R a i k ∧ Steps R b k j := by
  induction a generalizing i with
  | zero =>
    rw [Nat.zero_add]
    exact ⟨fun h => ⟨i, rfl, h⟩, by rintro ⟨k, rfl, h⟩; exact h⟩
  | succ a ih =>
    rw [Nat.succ_add]
    constructor
    · rintro ⟨i', hi, h⟩
      obtain ⟨k, ha, hb⟩ := ih.mp h
      exact ⟨k, ⟨i', hi, ha⟩, hb⟩
    · rintro ⟨k, ⟨i', hi, ha⟩, hb⟩
      exact ⟨i', hi, ih.mpr ⟨k, ha, hb⟩⟩

/-! ### Single marks -/

theorem IsMarked.lt_length (h : IsMarked m i) : i < m.length :=
  (List.getElem?_eq_some_iff.mp h).1

theorem isMarked_join : IsMarked (join m n) i ↔
    i < m.length ∧ i < n.length ∧ (IsMarked m i ∨ IsMarked n i) := by
  unfold IsMarked join
  rw [List.getElem?_zipWith]
  constructor
  · intro h
    cases hm : m[i]? with
    | none => simp [hm] at h
    | some b =>
      cases hn : n[i]? with
      | none => simp [hm, hn] at h
      | some b' =>
        refine ⟨(List.getElem?_eq_some_iff.mp hm).1, (List.getElem?_eq_some_iff.mp hn).1, ?_⟩
        simpa [hm, hn] using h
  · rintro ⟨hm, hn, h⟩
    rw [List.getElem?_eq_getElem hm, List.getElem?_eq_getElem hn] at h ⊢
    simpa using h

theorem isMarked_advance {s : CharSet} : IsMarked (advance s t m) j ↔
    ∃ i, IsMarked m i ∧ j = i + 1 ∧ ∃ c, t[i]? = some c ∧ s.mem c = true := by
  unfold IsMarked advance
  cases j with
  | zero => simp
  | succ i =>
    rw [List.getElem?_cons_succ, List.getElem?_zipWith]
    constructor
    · intro h
      cases ht : t[i]? with
      | none => simp [ht] at h
      | some c =>
        cases hm : m[i]? with
        | none => simp [ht, hm] at h
        | some b =>
          simp only [ht, hm, Option.some.injEq, Bool.and_eq_true] at h
          exact ⟨i, by rw [hm, h.1], rfl, c, ht, h.2⟩
    · rintro ⟨i', hm, heq, c, ht, hc⟩
      obtain rfl := Nat.succ.inj heq
      simp [hm, ht, hc]

theorem isMarked_keep {a : Assertion} {before : Option Char} : IsMarked (keep a before t m) i ↔
    IsMarked m i ∧ a.holds (charBefore before t i) t[i]? = true := by
  unfold IsMarked
  induction m generalizing t before i with
  | nil => cases t <;> simp [keep]
  | cons b m ih =>
    cases t with
    | nil =>
      cases i with
      | zero => simp [keep, charBefore]
      | succ i =>
        rw [keep, List.getElem?_cons_succ, List.getElem?_cons_succ, ih]
        cases i <;> simp [charBefore]
    | cons c t =>
      cases i with
      | zero => simp [keep, charBefore]
      | succ i =>
        rw [keep, List.getElem?_cons_succ, List.getElem?_cons_succ, ih]
        cases i <;> simp [charBefore]

/-- Joining adds a mark unless it changes nothing. -/
theorem count_join (h : m.length ≤ n.length) :
    join m n = m ∨ m.count true < (join m n).count true := by
  induction m generalizing n with
  | nil => exact .inl (by simp [join])
  | cons b m ih =>
    cases n with
    | nil => exact absurd h (by simp)
    | cons b' n =>
      have hjoin : join (b :: m) (b' :: n) = (b || b') :: join m n := rfl
      rw [hjoin, List.count_cons, List.count_cons]
      rcases ih (Nat.le_of_succ_le_succ h) with heq | hlt
      · cases b <;> cases b' <;> simp [heq]
      · right
        cases b <;> cases b' <;> simp <;> omega

/-! ### Repetition -/

section Repetition

-- A step moves the marks of a text along a relation between its places.
variable {step : Marks → Marks} {places : Nat}
  (hlength : ∀ m : Marks, m.length = places → (step m).length = places)
  (hstep : ∀ m : Marks, m.length = places →
    ∀ j, IsMarked (step m) j ↔ ∃ i, IsMarked m i ∧ R i j)

include hlength in
theorem length_join_step (hm : m.length = places) : (join m (step m)).length = places := by
  rw [length_join, hlength m hm, hm, Nat.min_self]

include hlength hstep in
theorem isMarked_join_step (hm : m.length = places) :
    IsMarked (join m (step m)) j ↔ IsMarked m j ∨ ∃ i, IsMarked m i ∧ R i j := by
  rw [isMarked_join, ← hstep m hm]
  constructor
  · exact fun h => h.2.2
  · rintro (h | h)
    · exact ⟨h.lt_length, by rw [hlength m hm, ← hm]; exact h.lt_length, .inl h⟩
    · exact ⟨by rw [hm, ← hlength m hm]; exact h.lt_length, h.lt_length, .inr h⟩

include hlength in
theorem length_reach (rounds : Nat) (hm : m.length = places) :
    (reach step rounds m).length = places := by
  induction rounds generalizing m with
  | zero => exact hm
  | succ rounds ih =>
    rw [reach]
    split
    · exact hm
    · exact ih (length_join_step hlength hm)

/-- Marks that a relation does not lead away from hold all that it leads to. -/
theorem isMarked_of_steps (hclosed : ∀ i j, IsMarked m i → R i j → IsMarked m j)
    (hi : IsMarked m i) (h : Steps R k i j) : IsMarked m j := by
  induction k generalizing i with
  | zero => exact h ▸ hi
  | succ k ih =>
    obtain ⟨i', hR, h⟩ := h
    exact ih (hclosed i i' hi hR) h

include hlength hstep in
/-- A bounded repetition marks what is reached in at most so many steps. -/
theorem isMarked_reach (rounds : Nat) (hm : m.length = places) :
    IsMarked (reach step rounds m) j ↔ ∃ k ≤ rounds, ∃ i, IsMarked m i ∧ Steps R k i j := by
  induction rounds generalizing m with
  | zero =>
    constructor
    · exact fun h => ⟨0, Nat.le_refl 0, j, h, rfl⟩
    · rintro ⟨k, hk, i, hi, h⟩
      obtain rfl := Nat.le_zero.mp hk
      exact h ▸ hi
  | succ rounds ih =>
    rw [reach]
    split
    · rename_i hsame
      have hclosed : ∀ i j, IsMarked m i → R i j → IsMarked m j := fun i j hi hR =>
        hsame ▸ (isMarked_join_step hlength hstep hm).mpr (.inr ⟨i, hi, hR⟩)
      constructor
      · exact fun h => ⟨0, Nat.zero_le _, j, h, rfl⟩
      · rintro ⟨k, -, i, hi, h⟩
        exact isMarked_of_steps hclosed hi h
    · rw [ih (length_join_step hlength hm)]
      constructor
      · rintro ⟨k, hk, i, hi, h⟩
        rcases (isMarked_join_step hlength hstep hm).mp hi with hi | ⟨i', hi, hR⟩
        · exact ⟨k, Nat.le_succ_of_le hk, i, hi, h⟩
        · exact ⟨k + 1, Nat.succ_le_succ hk, i', hi, i, hR, h⟩
      · rintro ⟨k, hk, i, hi, h⟩
        cases k with
        | zero =>
          exact ⟨0, Nat.zero_le _, i, (isMarked_join_step hlength hstep hm).mpr (.inl hi), h⟩
        | succ k =>
          obtain ⟨i', hR, h⟩ := h
          exact ⟨k, Nat.le_of_succ_le_succ hk, i',
            (isMarked_join_step hlength hstep hm).mpr (.inr ⟨i, hi, hR⟩), h⟩

include hlength hstep in
/-- Rounds and marks together as many as there are places, and nothing is left to be reached. -/
theorem reach_closed {rounds : Nat} (hm : m.length = places)
    (h : places ≤ rounds + m.count true) (hi : IsMarked (reach step rounds m) i) (hR : R i j) :
    IsMarked (reach step rounds m) j := by
  induction rounds generalizing m with
  | zero =>
    -- every place is marked
    have hj : j < m.length := by
      rw [hm, ← hlength m hm]
      exact ((hstep m hm j).mpr ⟨i, hi, hR⟩).lt_length
    have hall : m.count true = m.length :=
      Nat.le_antisymm List.count_le_length (by omega)
    rw [List.count_eq_length] at hall
    change m[j]? = some true
    rw [List.getElem?_eq_getElem hj, ← hall _ (List.getElem_mem hj)]
  | succ rounds ih =>
    rw [reach] at hi ⊢
    split at hi
    · rename_i hsame
      rw [if_pos hsame]
      exact hsame ▸ (isMarked_join_step hlength hstep hm).mpr (.inr ⟨i, hi, hR⟩)
    · rename_i hmore
      rw [if_neg hmore]
      refine ih (length_join_step hlength hm) ?_ hi
      rcases count_join (Nat.le_of_eq (hm.trans (hlength m hm).symm)) with heq | hlt
      · exact absurd heq hmore
      · omega

include hlength hstep in
/-- An unbounded repetition marks all that is reached. -/
theorem isMarked_reach_places (hm : m.length = places) :
    IsMarked (reach step places m) j ↔ ∃ k i, IsMarked m i ∧ Steps R k i j := by
  constructor
  · intro h
    obtain ⟨k, -, i, hi, h⟩ := (isMarked_reach hlength hstep places hm).mp h
    exact ⟨k, i, hi, h⟩
  · rintro ⟨k, i, hi, h⟩
    refine isMarked_of_steps (fun _ _ => reach_closed hlength hstep hm (by omega)) ?_ h
    exact (isMarked_reach hlength hstep places hm).mpr ⟨0, Nat.zero_le _, i, hi, rfl⟩

include hlength in
theorem length_walk (rounds : Nat) (hm : m.length = places) :
    (walk step rounds m).length = places := by
  induction rounds generalizing m with
  | zero => exact hm
  | succ rounds ih =>
    rw [walk]
    split
    · exact ih (hlength m hm)
    · exact hm

include hlength hstep in
/-- Steps of a given number mark what is reached in exactly so many. -/
theorem isMarked_walk (rounds : Nat) (hm : m.length = places) :
    IsMarked (walk step rounds m) j ↔ ∃ i, IsMarked m i ∧ Steps R rounds i j := by
  induction rounds generalizing m with
  | zero => exact ⟨fun h => ⟨j, h, rfl⟩, by rintro ⟨i, hi, rfl⟩; exact hi⟩
  | succ rounds ih =>
    rw [walk]
    split
    · rw [ih (hlength m hm)]
      constructor
      · rintro ⟨k, hk, h⟩
        obtain ⟨i, hi, hR⟩ := (hstep m hm k).mp hk
        exact ⟨i, hi, k, hR, h⟩
      · rintro ⟨i, hi, k, hR, h⟩
        exact ⟨k, (hstep m hm k).mpr ⟨i, hi, hR⟩, h⟩
    · -- nothing is marked, before the steps or after them
      rename_i hnone
      have hnot : ∀ i, ¬ IsMarked m i := fun i hi =>
        hnone (List.any_eq_true.mpr ⟨true, List.mem_of_getElem? hi, rfl⟩)
      exact ⟨fun h => absurd h (hnot j), fun ⟨i, hi, _⟩ => absurd hi (hnot i)⟩

end Repetition

/-! ### Single characters -/

theorem spans_char_iff {c : Char} : Spans t (char c) i j ↔ j = i + 1 ∧ t[i]? = some c := by
  unfold char
  simp only [Spans, CharSet.mem_single, beq_iff_eq]
  exact and_congr_right fun _ => ⟨by rintro ⟨d, hd, rfl⟩; exact hd, fun h => ⟨c, h, rfl⟩⟩

/-- Steps over characters of a set lead over a run of them. -/
theorem steps_set_iff {s : CharSet} {x y : Text} {n : Nat} :
    Steps (Spans (x ++ y) (set s)) n x.length j ↔
      ∃ run r, y = run ++ r ∧ run.length = n ∧ (∀ c ∈ run, s.mem c = true) ∧
        j = (x ++ run).length := by
  induction n generalizing x y with
  | zero =>
    constructor
    · rintro rfl
      exact ⟨[], y, rfl, rfl, by simp, by simp⟩
    · rintro ⟨run, r, -, hrun, -, rfl⟩
      obtain rfl := List.length_eq_zero_iff.mp hrun
      exact congrArg List.length (List.append_nil x).symm
  | succ n ih =>
    have hnext : ∀ (c : Char) (r : Text), x ++ c :: r = (x ++ [c]) ++ r :=
      fun c r => List.append_cons x c r
    have hlength : ∀ c : Char, x.length + 1 = (x ++ [c]).length := fun c => by simp
    constructor
    · rintro ⟨k, ⟨rfl, c, hc, hmem⟩, h⟩
      rw [List.getElem?_append_right (Nat.le_refl _), Nat.sub_self] at hc
      cases y with
      | nil => cases hc
      | cons d y =>
        obtain rfl : d = c := Option.some_inj.mp hc
        rw [hnext, hlength d] at h
        obtain ⟨run, r, rfl, rfl, hrun, rfl⟩ := ih.mp h
        exact ⟨d :: run, r, rfl, rfl, List.forall_mem_cons.mpr ⟨hmem, hrun⟩, by simp⟩
    · rintro ⟨run, r, rfl, hrun, hmem, rfl⟩
      cases run with
      | nil => cases hrun
      | cons c run =>
        obtain ⟨hc, hmem⟩ := List.forall_mem_cons.mp hmem
        refine ⟨x.length + 1, ⟨rfl, c, by simp, hc⟩, ?_⟩
        rw [List.cons_append, hnext, hlength c]
        exact ih.mpr ⟨run, r, rfl, Nat.succ.inj hrun, hmem, by simp⟩

/-! ### Expressions -/

theorem length_run (r : Regex) (hm : m.length = t.length + 1) :
    (run t r m).length = t.length + 1 := by
  induction r generalizing m with
  | empty => exact hm
  | set s => rw [run, length_advance, hm]; omega
  | assert a => rw [run, length_keep, hm]
  | seq r s ihr ihs => exact ihs (ihr hm)
  | alt r s ihr ihs => rw [run, length_join, ihr hm, ihs hm, Nat.min_self]
  | repeated r least most ih =>
    have hstarted := length_walk (fun _ => ih) least hm
    cases most with
    | none => exact length_reach (fun _ => ih) _ hstarted
    | some k => exact length_reach (fun _ => ih) _ hstarted

/-- **What is marked after an expression.** It has been run from all marked places at once, and the
marks are now the places that it reaches from one of them. -/
theorem isMarked_run (r : Regex) (hm : m.length = t.length + 1) :
    IsMarked (run t r m) j ↔ ∃ i, IsMarked m i ∧ Spans t r i j := by
  induction r generalizing m j with
  | empty => exact ⟨fun h => ⟨j, h, rfl⟩, by rintro ⟨i, hi, rfl⟩; exact hi⟩
  | set s => exact isMarked_advance
  | assert a =>
    rw [run, isMarked_keep]
    constructor
    · exact fun ⟨hi, ha⟩ => ⟨j, hi, rfl, ha⟩
    · rintro ⟨i, hi, rfl, ha⟩
      exact ⟨hi, ha⟩
  | seq r s ihr ihs =>
    rw [run, ihs (length_run r hm)]
    constructor
    · rintro ⟨k, hk, hs⟩
      obtain ⟨i, hi, hr⟩ := (ihr hm).mp hk
      exact ⟨i, hi, k, hr, hs⟩
    · rintro ⟨i, hi, k, hr, hs⟩
      exact ⟨k, (ihr hm).mpr ⟨i, hi, hr⟩, hs⟩
  | alt r s ihr ihs =>
    rw [run, isMarked_join, length_run r hm, length_run s hm, ihr hm, ihs hm, ← exists_or]
    constructor
    · rintro ⟨-, -, i, h⟩
      exact ⟨i, by rw [← and_or_left] at h; exact h⟩
    · rintro ⟨i, hi, h⟩
      have hlt : j < t.length + 1 := by
        rcases h with h | h
        · rw [← length_run r hm]
          exact ((ihr hm).mpr ⟨i, hi, h⟩).lt_length
        · rw [← length_run s hm]
          exact ((ihs hm).mpr ⟨i, hi, h⟩).lt_length
      exact ⟨hlt, hlt, i, by rw [← and_or_left]; exact ⟨hi, h⟩⟩
  | repeated r least most ih =>
    have hlength : ∀ m : Marks, m.length = t.length + 1 → (run t r m).length = t.length + 1 :=
      fun _ => length_run r
    have hstarted := length_walk hlength least hm
    have hwalk : ∀ i, IsMarked (walk (run t r) least m) i ↔
        ∃ i', IsMarked m i' ∧ Steps (Spans t r) least i' i :=
      fun _ => isMarked_walk hlength (fun _ hm _ => ih hm) least hm
    cases most with
    | none =>
      rw [run, isMarked_reach_places hlength (fun _ hm _ => ih hm) hstarted]
      constructor
      · rintro ⟨k, i, hi, h⟩
        obtain ⟨i', hi', hleast⟩ := (hwalk i).mp hi
        exact ⟨i', hi', least + k, Nat.le_add_right .., fun _ hk => absurd hk (by simp),
          steps_add_iff.mpr ⟨i, hleast, h⟩⟩
      · rintro ⟨i', hi', n, hn, -, h⟩
        obtain ⟨k, rfl⟩ := Nat.exists_eq_add_of_le hn
        obtain ⟨i, hleast, h⟩ := steps_add_iff.mp h
        exact ⟨k, i, (hwalk i).mpr ⟨i', hi', hleast⟩, h⟩
    | some most =>
      rw [run, isMarked_reach hlength (fun _ hm _ => ih hm) _ hstarted]
      constructor
      · rintro ⟨k, hk, i, hi, h⟩
        obtain ⟨i', hi', hleast⟩ := (hwalk i).mp hi
        refine ⟨i', hi', least + k, Nat.le_add_right .., ?_, steps_add_iff.mpr ⟨i, hleast, h⟩⟩
        rintro _ ⟨⟩
        omega
      · rintro ⟨i', hi', n, hn, hmost, h⟩
        obtain ⟨k, rfl⟩ := Nat.exists_eq_add_of_le hn
        obtain ⟨i, hleast, h⟩ := steps_add_iff.mp h
        have hk := hmost most rfl
        exact ⟨k, by omega, i, (hwalk i).mpr ⟨i', hi', hleast⟩, h⟩

/-- **When an expression occurs in a text**: it reaches from one of the places of the text to
another. -/
theorem isMatch_iff_spans (r : Regex) (t : Text) :
    isMatch r t = true ↔ ∃ i j, i ≤ t.length ∧ Spans t r i j := by
  have hlength : (List.replicate (t.length + 1) true).length = t.length + 1 :=
    List.length_replicate
  have hall : ∀ i, IsMarked (List.replicate (t.length + 1) true) i ↔ i ≤ t.length := by
    intro i
    rw [IsMarked, List.getElem?_replicate]
    split <;> simp <;> omega
  have hany : ∀ m : Marks, m.any id = true ↔ ∃ j, IsMarked m j := by
    intro m
    simp only [List.any_eq_true, id, exists_eq_right]
    exact List.mem_iff_getElem?
  rw [isMatch, hany]
  constructor
  · rintro ⟨j, hj⟩
    obtain ⟨i, hi, h⟩ := (isMarked_run r hlength).mp hj
    exact ⟨i, j, (hall i).mp hi, h⟩
  · rintro ⟨i, j, hi, h⟩
    exact ⟨j, (isMarked_run r hlength).mpr ⟨i, (hall i).mpr hi, h⟩⟩

end Regex
end CosmeticFilter
