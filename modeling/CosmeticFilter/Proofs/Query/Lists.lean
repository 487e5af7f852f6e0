import CosmeticFilter.Proofs.Extended.Comma
import CosmeticFilter.Proofs.Query.Refusal

/-!
# What lists of branches find

The branches of a list are evaluated one by one, so what a list finds is what its parts find. With
the reading of lists this says what a comma between two selectors means: the elements of the first
one, and then those of the second one that are not among them.

* `evalBranches_append`, `evalArgument_append`, `findsAny_append`: lists in the document, as an
  argument, and relative to an element;
* `eraseDups_append`: what is left of repetitions;
* `all_comma`: two selectors with a comma between them.
-/

namespace CosmeticFilter
namespace Query

open Extended (Node Selector)

variable {p : Page} {ns ms : List Nat}

/-! ### Lists of branches -/

theorem evalBranches_append {as bs : List (List Node)} (ha : evalBranches p as = .ok ns)
    (hb : evalBranches p bs = .ok ms) : evalBranches p (as ++ bs) = .ok (ns ++ ms) := by
  induction as generalizing ns with
  | nil =>
    obtain rfl := Except.ok.inj ha
    exact hb
  | cons a r ih =>
    rw [List.cons_append]
    unfold evalBranches at ha ⊢
    cases hbranch : evalBranch p .document a with
    | error e => rw [hbranch] at ha; exact absurd ha (by simp)
    | ok found =>
      rw [hbranch] at ha
      obtain ⟨rest, hrest, rfl⟩ := Outcome.map_eq_ok.mp ha
      show (evalBranches p (r ++ bs)).map (found ++ ·) = _
      rw [ih hrest, List.append_assoc]
      rfl

/-- A branch of an argument that fails does not take anything from the others. -/
theorem evalArgument_append (p : Page) (as bs : List (List Node)) :
    evalArgument p (as ++ bs) = evalArgument p as ++ evalArgument p bs := by
  induction as with
  | nil => simp [evalArgument]
  | cons a r ih => rw [List.cons_append, evalArgument, evalArgument, ih, List.append_assoc]

theorem findsAny_append (p : Page) (o : Origin) (as bs : List (List Node)) :
    findsAny p o (as ++ bs) = (findsAny p o as || findsAny p o bs) := by
  induction as with
  | nil => simp [findsAny]
  | cons a r ih => rw [List.cons_append, findsAny, findsAny, ih, Bool.or_assoc]

/-! ### Repetitions -/

theorem eraseDups_filter (f : Nat → Bool) :
    ∀ l : List Nat, (l.filter f).eraseDups = l.eraseDups.filter f
  | [] => rfl
  | n :: r => by
    have hrest : ((r.filter fun m => !m == n).filter f).eraseDups =
        (r.filter fun m => !m == n).eraseDups.filter f := eraseDups_filter f _
    rw [List.eraseDups_cons]
    by_cases hn : f n = true
    · rw [List.filter_cons_of_pos hn, List.filter_cons_of_pos hn, List.eraseDups_cons, ← hrest,
        List.filter_filter, List.filter_filter]
      simp only [Bool.and_comm]
    · have hothers : (r.filter fun m => !m == n).filter f = r.filter f := by
        rw [List.filter_filter]
        refine List.filter_congr fun m _ => ?_
        by_cases hm : m = n
        · simp [hm, hn]
        · simp [hm]
      rw [List.filter_cons_of_neg hn, List.filter_cons_of_neg hn, ← hrest, hothers]
termination_by l => l.length
decreasing_by exact Nat.lt_succ_of_le (List.length_filter_le _ _)

theorem eraseDups_eraseDups : ∀ l : List Nat, l.eraseDups.eraseDups = l.eraseDups
  | [] => rfl
  | n :: r => by
    rw [List.eraseDups_cons, List.eraseDups_cons, eraseDups_filter, eraseDups_filter,
      eraseDups_filter, eraseDups_eraseDups r, List.filter_filter]
    simp only [Bool.and_self]

/-- Of a second list, what is not in the first one is left. -/
theorem eraseDups_append (ns ms : List Nat) :
    (ns ++ ms).eraseDups =
      ns.eraseDups ++ ms.eraseDups.filter fun n => !ns.eraseDups.contains n := by
  rw [List.eraseDups_append, List.removeAll, eraseDups_filter]
  refine congrArg _ (List.filter_congr fun n _ => ?_)
  rw [Bool.eq_iff_iff]
  simp

/-! ### Selectors -/

/-- The elements of a list, and then those of another one that are not among them. -/
theorem all_append {a b : Selector} (ha : all p a = .ok ns) (hb : all p b = .ok ms) :
    all p ⟨a.branches ++ b.branches⟩ = .ok (ns ++ ms.filter fun n => !ns.contains n) := by
  obtain ⟨found, hfound, rfl⟩ := Outcome.map_eq_ok.mp ha
  obtain ⟨found', hfound', rfl⟩ := Outcome.map_eq_ok.mp hb
  rw [all, evalBranches_append hfound hfound', ← eraseDups_append]
  rfl

/-- **A comma between two selectors.** If the first one does not end in a backslash, both together
are read as the branches of the first and then those of the second, and they find the elements of the
first and then those of the second that are not among them. -/
theorem all_comma {t u : Text} {a b : Selector} (ht : Selector.ofText t = .ok a)
    (hu : Selector.ofText u = .ok b) (hend : t.getLast? ≠ some '\\') :
    ∃ c, Selector.ofText (t ++ ',' :: u) = .ok c ∧ c.branches = a.branches ++ b.branches ∧
      ∀ p ns ms, all p a = .ok ns → all p b = .ok ms →
        all p c = .ok (ns ++ ms.filter fun n => !ns.contains n) := by
  have hescape : Extended.endsInEscape t = false := by
    rw [← Bool.not_eq_true]
    exact fun h => hend (Extended.getLast?_of_escape h)
  refine ⟨⟨a.branches ++ b.branches⟩, ?_, rfl, fun p ns ms => all_append⟩
  rw [Selector.ofText_eq_ok] at ht hu ⊢
  exact Extended.readAll_comma hescape ht hu

/-- A pseudo-element in the first branch, and an element that both selectors find. -/
theorem all_comma_linkInBox :
    all (.ofDocument linkInBox) ⟨[[.fragment "div::before".toList],
        [.fragment "a".toList, .textual .upward "1".toList]]⟩ = .ok [1] ∧
      all (.ofDocument linkInBox) ⟨[[.fragment "div".toList],
        [.fragment "a".toList, .textual .xpath ".".toList]]⟩ = .ok [1, 2] ∧
      ∃ c, Selector.ofText "div::before , a:upward(1) , div, a:xpath(.)".toList = .ok c ∧
        all (.ofDocument linkInBox) c = .ok [1, 2] := by
  have ht : Selector.ofText "div::before , a:upward(1) ".toList =
      .ok ⟨[[.fragment "div::before".toList],
        [.fragment "a".toList, .textual .upward "1".toList]]⟩ := by decide +kernel
  have hu : Selector.ofText " div, a:xpath(.)".toList =
      .ok ⟨[[.fragment "div".toList], [.fragment "a".toList, .textual .xpath ".".toList]]⟩ := by
    decide +kernel
  have hfound : all (.ofDocument linkInBox) ⟨[[.fragment "div::before".toList],
      [.fragment "a".toList, .textual .upward "1".toList]]⟩ = .ok [1] := by decide +kernel
  have hfound' : all (.ofDocument linkInBox) ⟨[[.fragment "div".toList],
      [.fragment "a".toList, .textual .xpath ".".toList]]⟩ = .ok [1, 2] := by decide +kernel
  obtain ⟨c, hc, -, hall⟩ := all_comma ht hu (by decide)
  exact ⟨hfound, hfound', c, hc, hall _ _ _ hfound hfound'⟩

end Query
end CosmeticFilter
