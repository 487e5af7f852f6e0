import CosmeticFilter.Proofs.Css.Alternatives
import CosmeticFilter.Proofs.Extended.Shielded

/-!
# What the normal form changes

The normal form of a text is the text without the blanks at its ends, each run of blanks outside
quotes and brackets replaced by one space. A blank changes nothing in the state of the reader that
looks for quotes and brackets, and a backslash takes the next character with it, blank or not, so
the runs that are replaced are runs of blanks that are not escaped, each in its full length; the
space that stands for one is such a run again.

* `collapse_collapse`: shortened runs are not shortened any further;
* `EndsOutsideRun`, `IsBlankRun`: the blanks between two texts are a run in its full length;
* `Shortens`: one text is another with a space for each of its runs outside quotes and brackets;
* `shortens_normalForm`: this is what the normal form is, and it is a normal form.
-/

namespace CosmeticFilter
namespace Extended

open Nesting (endsInEscape_of_isTop isTop_iff settled_top)

variable {s : Nesting} {before run run' rest rest' t u u' : Text} {c : Char}

/-! ### Twice -/

/-- The space for a run stands outside quotes and brackets, as the run did, and is a run of one. -/
theorem collapse_collapse {owed : Bool} (howed : owed = true → s = .top) :
    collapse s false (collapse s owed t) = collapse s owed t := by
  have hspace : Text.isBlank ' ' = true := by decide
  induction t generalizing s owed with
  | nil =>
    cases owed with
    | false => rfl
    | true =>
      rw [howed rfl]
      exact collapse_cons_of_blank hspace false []
  | cons c r ih =>
    cases hc : s.isTop && Text.isBlank c with
    | true =>
      obtain ⟨htop, hblank⟩ := Bool.and_eq_true_iff.mp hc
      obtain rfl := isTop_iff.mp htop
      rw [collapse_cons_of_blank hblank]
      exact ih fun _ => rfl
    | false =>
      have hr : collapse (s.step .roundAndSquare c) false
          (collapse (s.step .roundAndSquare c) false r) =
          collapse (s.step .roundAndSquare c) false r := ih fun h => by cases h
      rw [collapse_cons_of_kept hc]
      cases owed with
      | false =>
        rw [if_neg Bool.false_ne_true, List.nil_append, collapse_cons_of_kept hc, hr]
        rfl
      | true =>
        obtain rfl := howed rfl
        rw [if_pos rfl, List.singleton_append, collapse_cons_of_blank hspace,
          collapse_cons_of_kept hc, hr]
        rfl

theorem normalForm_normalForm (t : Text) : normalForm (normalForm t) = normalForm t := by
  rw [normalForm_eq t, normalForm_eq, trim_collapse settled_top, Text.trim_trim]
  exact collapse_collapse fun _ => rfl

/-! ### Runs of blanks -/

/-- No run of blanks goes on behind the text: a blank at its end is an escaped one. -/
def EndsOutsideRun (before : Text) : Prop :=
  ∀ x c, before = x ++ [c] → Text.isBlank c = true → endsInEscape x = true

theorem endsOutsideRun_nil : EndsOutsideRun [] := fun x c heq =>
  absurd heq (List.append_ne_nil_of_right_ne_nil x (List.cons_ne_nil c [])).symm

/-- Blanks that follow each other between two texts, none of them escaped, and no other one on
either side. -/
structure IsBlankRun (before run rest : Text) : Prop where
  /-- There is one at least. -/
  ne_nil : run ≠ []
  /-- They are blanks. -/
  blank : ∀ c ∈ run, Text.isBlank c = true
  /-- No backslash takes the first one with it; the others stand behind a blank. -/
  unescaped : endsInEscape before = false
  /-- If the character in front is a blank, it is escaped. -/
  left : EndsOutsideRun before
  /-- The character behind them is no blank. -/
  right : ∀ c ∈ rest.head?, Text.isBlank c = false

/-- A run is as long as it can be. -/
theorem IsBlankRun.eq_of_append (h : IsBlankRun before run rest)
    (h' : IsBlankRun before run' rest') (heq : run ++ rest = run' ++ rest') :
    run = run' ∧ rest = rest' := by
  have hspan : ∀ {run rest : Text}, IsBlankRun before run rest →
      (run ++ rest).takeWhile Text.isBlank = run := by
    intro run rest h
    rw [List.takeWhile_append_of_pos h.blank]
    cases rest with
    | nil => exact List.append_nil run
    | cons c rest =>
      rw [List.takeWhile_cons_of_neg (by rw [h.right c rfl]; exact Bool.false_ne_true),
        List.append_nil]
  have hrun : run = run' := by rw [← hspan h, heq, hspan h']
  subst hrun
  exact ⟨rfl, List.append_cancel_left heq⟩

/-- Behind the first text, the second one with a space for each run of blanks outside quotes and
brackets is the third one. -/
inductive Shortens : Text → Text → Text → Prop where
  /-- Nothing is left. -/
  | nil (before : Text) : Shortens before [] []
  /-- A character that is no blank, or stands in quotes or brackets, or behind a backslash. -/
  | keep {before t u : Text} {c : Char} :
      ((Nesting.top.after .roundAndSquare before).isTop && Text.isBlank c) = false →
      Shortens (before ++ [c]) t u → Shortens before (c :: t) (c :: u)
  /-- A run of blanks outside quotes and brackets. -/
  | run {before run rest u : Text} :
      (Nesting.top.after .roundAndSquare before).isTop = true → IsBlankRun before run rest →
      Shortens (before ++ run) rest u → Shortens before (run ++ rest) (' ' :: u)

/-- There is only one way to shorten the runs of a text. -/
theorem Shortens.eq (h : Shortens before t u) (h' : Shortens before t u') : u = u' := by
  -- A run and a character that is kept do not start with the same character.
  have hfirst : ∀ {before run rest t : Text} {c : Char}, IsBlankRun before run rest →
      run ++ rest = c :: t → Text.isBlank c = true := by
    intro before run rest t c hrun heq
    obtain ⟨d, r, rfl⟩ := List.exists_cons_of_ne_nil hrun.ne_nil
    rw [← (List.cons.inj heq).1]
    exact hrun.blank d (List.mem_cons_self ..)
  induction h generalizing u' with
  | nil =>
    generalize ht : ([] : Text) = t at h'
    cases h' with
    | nil => rfl
    | keep => cases ht
    | run _ hrun => exact absurd (List.append_eq_nil_iff.mp ht.symm).1 hrun.ne_nil
  | @keep before t u c hkept _ ih =>
    generalize ht : c :: t = t' at h'
    cases h' with
    | nil => cases ht
    | keep _ hmore =>
      obtain ⟨rfl, rfl⟩ := List.cons.inj ht
      rw [ih hmore]
    | run htop hrun =>
      rw [htop, hfirst hrun ht.symm] at hkept
      cases hkept
  | @run before run rest u htop hrun _ ih =>
    generalize ht : run ++ rest = t' at h'
    cases h' with
    | nil => exact absurd (List.append_eq_nil_iff.mp ht).1 hrun.ne_nil
    | keep hkept =>
      rw [htop, hfirst hrun ht] at hkept
      cases hkept
    | run _ hrun' hmore =>
      obtain ⟨rfl, rfl⟩ := hrun.eq_of_append hrun' ht
      rw [ih hmore]

/-! ### The normal form -/

/-- Where a blank is kept, no run outside quotes and brackets goes on behind it. -/
theorem endsOutsideRun_of_kept
    (hkept : ((Nesting.top.after .roundAndSquare before).isTop && Text.isBlank c) = false)
    (htop : (Nesting.top.after .roundAndSquare (before ++ [c])).isTop = true) :
    EndsOutsideRun (before ++ [c]) := by
  intro x d heq hblank
  obtain ⟨rfl, hd⟩ := List.append_inj' heq rfl
  obtain rfl := (List.cons.inj hd).1
  by_contra hescape
  rw [Bool.not_eq_true] at hescape
  rw [Nesting.after_append, Nesting.after_cons, Nesting.after_nil,
    (settled_top.after hescape).step_of_blank hblank] at htop
  rw [htop, hblank] at hkept
  cases hkept

theorem collapse_blank_append {b : Text} (hb : ∀ c ∈ b, Text.isBlank c = true) (t : Text) :
    collapse .top true (b ++ t) = collapse .top true t := by
  induction b with
  | nil => rfl
  | cons c b ih =>
    obtain ⟨hc, hb⟩ := List.forall_mem_cons.mp hb
    rw [List.cons_append, collapse_cons_of_blank hc, ih hb]

/-- The runs of a text are shortened behind another one that does not stop within a run. -/
theorem shortens_collapse
    (hleft : (Nesting.top.after .roundAndSquare before).isTop = true →
      t.head?.any Text.isBlank = true → EndsOutsideRun before) :
    Shortens before t (collapse (Nesting.top.after .roundAndSquare before) false t) := by
  induction hn : t.length using Nat.strong_induction_on generalizing before t with
  | _ n ih =>
    subst hn
    cases t with
    | nil => exact .nil before
    | cons c r =>
      cases hc : (Nesting.top.after .roundAndSquare before).isTop && Text.isBlank c with
      | false =>
        rw [collapse_cons_of_kept hc]
        refine .keep hc ?_
        have hrest := ih r.length (Nat.lt_succ_self _)
          (fun htop _ => endsOutsideRun_of_kept hc htop) rfl
        rwa [Nesting.after_append, Nesting.after_cons, Nesting.after_nil] at hrest
      | true =>
        obtain ⟨htop, hblank⟩ := Bool.and_eq_true_iff.mp hc
        have hs := isTop_iff.mp htop
        obtain ⟨b, hb, heq⟩ := Text.exists_trimStart_append r
        have hrun : ∀ d ∈ c :: b, Text.isBlank d = true := List.forall_mem_cons.mpr ⟨hblank, hb⟩
        have hright := Text.not_blank_of_head?_trimStart (t := r)
        have hafter : Nesting.top.after .roundAndSquare (before ++ c :: b) = .top := by
          rw [Nesting.after_append, hs, settled_top.after_of_blank hrun]
        have hleft' : (Text.trimStart r).head?.any Text.isBlank = true →
            EndsOutsideRun (before ++ c :: b) := by
          intro hstart
          obtain ⟨d, hd, hblank⟩ := (Option.any_eq_true _ _).mp hstart
          rw [hright d hd] at hblank
          cases hblank
        have hrest := ih (Text.trimStart r).length
          (Nat.lt_succ_of_le (Text.length_trimStart_le r)) (fun _ => hleft') rfl
        rw [hafter] at hrest
        rw [hs, collapse_cons_of_blank hblank, heq, collapse_blank_append hb,
          collapse_of_owed hright]
        exact .run htop ⟨List.cons_ne_nil c b, hrun, endsInEscape_of_isTop htop,
          hleft htop (by simpa using hblank), hright⟩ hrest

/-- **The normal form** of a text is a normal form. It is the text without the blanks at its ends,
one space in it for each run of blanks outside quotes and brackets, and all else as it is. -/
theorem shortens_normalForm (t : Text) :
    normalForm (normalForm t) = normalForm t ∧
      ∀ u, Shortens [] (Text.trim t) u ↔ u = normalForm t := by
  have hshortens : Shortens [] (Text.trim t) (normalForm t) := by
    rw [normalForm_eq]
    exact shortens_collapse fun _ _ => endsOutsideRun_nil
  refine ⟨normalForm_normalForm t, fun u => ⟨fun h => h.eq hshortens, ?_⟩⟩
  rintro rfl
  exact hshortens

end Extended
end CosmeticFilter
