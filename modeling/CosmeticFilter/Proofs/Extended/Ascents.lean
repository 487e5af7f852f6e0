import CosmeticFilter.Proofs.Extended.TextArguments
import CosmeticFilter.Proofs.Text.BlankCategories
import CosmeticFilter.Proofs.XPath.Numbers

/-!
# Steps to ancestors behind a native text

`:nth-ancestor()` and `:upward()` with a number lead so many elements up. The number is always
accepted, so steps behind a native text are read exactly if the text takes a pseudo-class at all.

* `Ascent`: a step, and how many elements it goes up;
* `Ascent.isTextual`: a step is always accepted;
* `ofText_ascents`, `not_ofText_ascents`: native texts with steps behind them.
-/

namespace CosmeticFilter

/-! ### Texts -/

namespace Text

theorem trim_ofNat (n : Nat) : trim (ofNat n) = ofNat n :=
  trim_eq_self
    (fun _ hc => not_blank_of_isDigit (isDigit_of_mem_ofNat (List.mem_of_mem_head? hc)))
    (fun _ hc => not_blank_of_isDigit (isDigit_of_mem_ofNat (List.mem_of_getLast? hc)))

theorem exists_ofNat_eq_cons (n : Nat) : ∃ c r, ofNat n = c :: r ∧ c.isDigit = true := by
  obtain ⟨c, r, h⟩ : ∃ c r, ofNat n = c :: r :=
    List.exists_cons_of_ne_nil Nat.toDigits_ne_nil
  exact ⟨c, r, h, isDigit_of_mem_ofNat (h ▸ List.mem_cons_self)⟩

theorem not_isAllBlank_ofNat (n : Nat) : isAllBlank (ofNat n) = false := by
  obtain ⟨c, r, h, hdigit⟩ := exists_ofNat_eq_cons n
  rw [h, isAllBlank, List.all_cons, not_blank_of_isDigit hdigit, Bool.false_and]

/-- The digits of a number are read as the number. -/
theorem readInt?_ofNat (n : Nat) : readInt? (ofNat n) = some (n : Int) := by
  obtain ⟨c, r, h, hdigit⟩ := exists_ofNat_eq_cons n
  have hsign : c ≠ '-' ∧ c ≠ '+' := by
    constructor <;> rintro rfl <;> exact absurd hdigit (by decide)
  rw [h, readInt?, if_neg hsign.1, if_neg hsign.2, ← h, readNat?_ofNat]
  rfl

theorem readInt64?_ofNat {n : Nat} (hn : n ≤ 9223372036854775807) :
    readInt64? (ofNat n) = some (n : Int) := by
  rw [readInt64?, readIntWithin?, readInt?_ofNat, Option.filter_some, if_pos]
  simp only [Bool.and_eq_true, decide_eq_true_eq]
  omega

end Text

namespace Condition

theorem readDepth_ofNat {n : Nat} (hn : 1 ≤ n ∧ n ≤ 255) : readDepth (Text.ofNat n) = .ok n := by
  have hrange : 1 ≤ (n : Int) ∧ (n : Int) ≤ maxDepth := by
    rw [maxDepth]
    omega
  rw [readDepth, Text.trim_ofNat, Text.readInt64?_ofNat (by omega)]
  dsimp only
  rw [if_pos hrange, Int.toNat_natCast]

end Condition

namespace Extended

variable {inner : BranchReader} {s : Scope} {S f : Text} {X : Css.Selector}

/-- Digits fill brackets. -/
theorem Inside.fills_digits {t : Text} (ht : ∀ c ∈ t, c.isDigit = true) (previous : Char) :
    Fills ⟨0, none, previous⟩ t := by
  induction t generalizing previous with
  | nil => exact fills_nil_iff.mpr ⟨rfl, rfl⟩
  | cons c r ih =>
    obtain ⟨hc, hr⟩ := List.forall_mem_cons.mp ht
    have hne : ∀ d : Char, d.isDigit = false → c ≠ d := by
      rintro d hd rfl
      exact Bool.false_ne_true (hd.symm.trans hc)
    refine (fills_cons (hne '\\' (by decide))).mpr ⟨⟨0, none, c⟩, ?_, ih hr c⟩
    simp [Inside.step, hne '"' (by decide), hne '\'' (by decide), hne '(' (by decide),
      hne ')' (by decide)]

/-! ### Steps -/

/-- A step up the tree: `:nth-ancestor()` or `:upward()` with a number. -/
structure Ascent where
  /-- The pseudo-class. -/
  name : Name
  /-- How many elements to go up. -/
  depth : Nat
  /-- The pseudo-class leads to ancestors. -/
  leads : name = .nthAncestor ∨ name = .upward
  /-- The number is accepted. -/
  inRange : 1 ≤ depth ∧ depth ≤ 255

namespace Ascent

variable (x : Ascent)

/-- The pseudo-class and its argument. -/
def written : Name × Text := (x.name, Text.ofNat x.depth)

/-- What the step is read as. -/
def node : Node := .textual x.name (Text.ofNat x.depth)

theorem fills_written : Inside.start.Fills x.written.2 :=
  Inside.fills_digits (fun _ => Text.isDigit_of_mem_ofNat) _

theorem compile_eq : Condition.compile x.name (Text.ofNat x.depth) = .ok (.ancestor x.depth) := by
  rcases x.leads with h | h <;>
    rw [h, Condition.compile, Condition.read, Condition.readDepth_ofNat x.inRange] <;> rfl

/-- A step is always accepted. -/
theorem isTextual : IsTextual x.written where
  unscoped := by rcases x.leads with h | h <;> rw [written, h] <;> rfl
  inner := by rcases x.leads with h | h <;> simp [written, h]
  kind := by
    rcases x.leads with h | h
    · rw [written, h]
      rfl
    · rw [written, h, Name.argumentKind, Text.trim_ofNat,
        Text.readInt64?_ofNat (x.inRange.2.trans (by decide))]
  given := Text.not_isAllBlank_ofNat x.depth
  accepted := ⟨_, x.compile_eq⟩
  fills := x.fills_written

theorem isTextual_of_mem {l : List Ascent} {y : Name × Text} (hy : y ∈ l.map written) :
    IsTextual y := by
  obtain ⟨z, -, rfl⟩ := List.mem_map.mp hy
  exact z.isTextual

end Ascent

/-! ### Native texts with steps behind them -/

/-- A native text with steps behind it is a selector if what the first step cuts off is one. -/
theorem ofText_ascents (hS : Selector.ofText S = .ok ⟨[[.fragment f]]⟩)
    (hescape : endsInEscape S = false) (htakes : TakesPseudoClass S) (x : Ascent)
    (l : List Ascent) :
    Selector.ofText (S ++ pseudosText ((x :: l).map Ascent.written)) =
      .ok ⟨[.fragment (leadingFragment S) :: (x :: l).map Ascent.node]⟩ := by
  have hread := ofText_textual hS hescape htakes x.isTextual
    (l := l.map Ascent.written) fun _ => Ascent.isTextual_of_mem
  rwa [← List.map_cons, List.map_map] at hread

/-- Otherwise it is none, whatever the steps are. -/
theorem not_ofText_ascents (hS : Selector.ofText S = .ok ⟨[[.fragment f]]⟩)
    (hescape : endsInEscape S = false) (htakes : ¬ TakesPseudoClass S) :
    ∃ cause, ∀ (x : Ascent) (l : List Ascent),
      Selector.ofText (S ++ pseudosText ((x :: l).map Ascent.written)) =
        .error ⟨S ++ pseudosText ((x :: l).map Ascent.written),
          .invalidFragment (Text.trim (leadingFragment S)) cause⟩ := by
  cases hread : Css.Selector.ofText (leadingFragment S) with
  | ok X => exact absurd ⟨X, hread⟩ htakes
  | error cause =>
    refine ⟨cause, fun x l => ?_⟩
    rw [List.map_cons, ofText_append_textual hS hescape x.isTextual fun _ => Ascent.isTextual_of_mem,
      cutBeforeExtended_draftOf hS hescape, Css.ofText_trim, hread]

end Extended
end CosmeticFilter
