import CosmeticFilter.Proofs.Extended.Growth
import CosmeticFilter.Proofs.Query.TwoSteps

/-!
# Native selectors

A selector without extensions is matched against an element as one text, its branches joined by
commas; to find all its elements, its branches are searched for one by one. The joined text is read
as the list of what the branches are read as, unless a branch ends in a backslash that takes the
comma behind it.

* `mem_select_document`: a page finds the elements that a selector stands for;
* `ofText_listText`: the joined text stands for what one of the branches stands for;
* `evalBranches_native`: the branches are searched for one by one;
* `matches?_eq_contains`: both ways of evaluation agree.
-/

namespace CosmeticFilter
namespace Query

open Extended (Node endsInEscape)

variable {p : Page} {fs : List Text} {ss : List Css.Selector}

/-- From the document, every element that one of the alternatives stands for is found. -/
theorem mem_select_document (hp : p.document.Built) (s : Css.Selector) (n : Nat) :
    n ∈ p.select s 0 ↔ s.selects p.document none n = true := by
  unfold Page.select Page.scopeOf
  rw [ite_self, if_pos rfl, List.mem_filter]
  refine ⟨And.right, fun h => ⟨?_, h⟩⟩
  obtain ⟨x, -, hx⟩ := List.any_eq_true.mp h
  exact mem_descendants_of_isElement hp (isElement_of_selects hx)

/-! ### The joined text -/

/-- The branches that are made of these fragments. -/
def nativeBranches (fs : List Text) : List (List Node) := fs.map fun f => [.fragment f]

theorem exists_nativeBranches {bs : List (List Node)}
    (h : bs.all Extended.isNativeBranch = true) : ∃ fs, bs = nativeBranches fs := by
  induction bs with
  | nil => exact ⟨[], rfl⟩
  | cons b r ih =>
    rw [List.all_cons, Bool.and_eq_true] at h
    obtain ⟨fs, rfl⟩ := ih h.2
    match b, h.1 with
    | [.fragment f], _ => exact ⟨f :: fs, rfl⟩

theorem listText_cons (f g : Text) (r : List Text) :
    Node.listText (nativeBranches (f :: g :: r)) =
      f ++ ", ".toList ++ Node.listText (nativeBranches (g :: r)) := by
  simp [nativeBranches, Node.listText, Node.moreText, Node.branchText, Node.text]

theorem listText_single (f : Text) : Node.listText (nativeBranches [f]) = f := by
  simp [nativeBranches, Node.listText, Node.moreText, Node.branchText, Node.text]

/-- The fragments are read as these selectors. -/
def AreRead (fs : List Text) (ss : List Css.Selector) : Prop :=
  List.Forall₂ (fun f s => Css.Selector.ofText f = .ok s) fs ss

/-- The joined text is read as all the alternatives of the fragments, if no comma is taken. -/
theorem ofText_listText (h : AreRead fs ss) (hne : fs ≠ [])
    (hcut : ∀ f ∈ fs.dropLast, endsInEscape f = false) :
    Css.Selector.ofText (Node.listText (nativeBranches fs)) =
      .ok ⟨ss.flatMap Css.Selector.alternatives⟩ := by
  induction h with
  | nil => exact absurd rfl hne
  | @cons f s fs ss hf hrest ih =>
    cases hrest with
    | nil => rw [listText_single, hf, List.flatMap_singleton]
    | @cons g s' r ss' hg hr =>
      rw [List.dropLast_cons_cons] at hcut
      have hjoined := ih (List.cons_ne_nil _ _) fun x hx => hcut x (List.mem_cons_of_mem _ hx)
      rw [listText_cons, Css.ofText_append_comma hf (hcut f (List.mem_cons_self ..)) hjoined]
      rfl

/-! ### The branches -/

theorem evalBranches_native (h : AreRead fs ss) :
    evalBranches p (nativeBranches fs) = .ok (ss.flatMap (p.select · 0)) := by
  induction h with
  | nil => rfl
  | @cons f s fs ss hf _ ih =>
    show evalBranches p ([.fragment f] :: nativeBranches fs) = _
    rw [evalBranches, evalBranch_native hf, ih]
    rfl

/-- What the fragments find is what all their alternatives together stand for. -/
theorem mem_flatMap_select (hp : p.document.Built) (ss : List Css.Selector) (n : Nat) :
    n ∈ ss.flatMap (p.select · 0) ↔
      Css.Selector.selects p.document none ⟨ss.flatMap Css.Selector.alternatives⟩ n = true := by
  rw [List.mem_flatMap]
  unfold Css.Selector.selects
  rw [List.any_flatMap, List.any_eq_true]
  exact exists_congr fun s => and_congr_right fun _ => mem_select_document hp s n

/-- An element matches a native selector exactly if it is one of those that the selector finds, and
neither question fails. No branch but the last may end in a backslash that takes the comma. -/
theorem matches?_eq_contains {t : Text} {s : Extended.Selector}
    (ht : Extended.Selector.ofText t = .ok s) (hnative : s.isNative = true)
    (hcut : ∀ f, [.fragment f] ∈ s.branches.dropLast → endsInEscape f = false)
    (hp : p.document.Built) :
    ∃ found, all p s = .ok found ∧ ∀ n, matches? p s n = .ok (found.contains n) := by
  obtain ⟨hne, hcomplete⟩ :=
    Extended.isComplete_of_readAll (Extended.Selector.ofText_eq_ok.mp ht)
  obtain ⟨bs⟩ := s
  obtain ⟨fs, rfl⟩ := exists_nativeBranches hnative
  obtain ⟨ss, hread⟩ : ∃ ss, AreRead fs ss := Css.exists_forall₂ fun f hf =>
    ((hcomplete _ (List.mem_map_of_mem hf)).isAdmitted _ (List.mem_singleton_self _)).exists_ofText
  have hjoined := ofText_listText hread (fun hnil => hne (by rw [hnil]; rfl)) fun f hf =>
    hcut f (by unfold nativeBranches; rw [← List.map_dropLast]; exact List.mem_map_of_mem hf)
  refine ⟨_, by unfold all; rw [evalBranches_native hread]; rfl, fun n => ?_⟩
  obtain ⟨found, hclosest, hfound⟩ := Continuation.closest?_eq_self (p := p) hjoined n
  unfold matches? Extended.Selector.text
  rw [if_pos hnative, hclosest]
  refine congrArg Except.ok (Bool.eq_iff_iff.mpr ?_)
  rw [beq_iff_eq, hfound, ← mem_flatMap_select hp, List.contains_iff_mem, List.mem_eraseDups]

/-- A comma in a string does not cut. -/
theorem matches?_eq_contains_string :
    ∃ found, all (.ofDocument bracketLanguages)
        ⟨[[.fragment "[a=\"b,c\"]".toList], [.fragment "p".toList]]⟩ = .ok found ∧
      ∀ n, matches? (.ofDocument bracketLanguages)
        ⟨[[.fragment "[a=\"b,c\"]".toList], [.fragment "p".toList]]⟩ n = .ok (found.contains n) := by
  have hread : Extended.Selector.ofText "[a=\"b,c\"], p".toList =
      .ok ⟨[[.fragment "[a=\"b,c\"]".toList], [.fragment "p".toList]]⟩ := by decide +kernel
  refine matches?_eq_contains hread (by decide) (fun f hf => ?_)
    ((Document.Built.empty.append 0 _).append 1 _)
  have hf : f = "[a=\"b,c\"]".toList := by simpa using hf
  rw [hf]
  decide

/-- Joined by a comma, the branches of `a\ , b` are read as one name. -/
theorem not_matches?_eq_contains :
    ¬ ∀ (t : Text) (s : Extended.Selector), Extended.Selector.ofText t = .ok s →
      s.isNative = true → ∀ (p : Page), p.document.Built →
        (∀ n, (∃ b, matches? p s n = .ok b) ↔ ∃ found, all p s = .ok found) ∧
          ∀ found n, all p s = .ok found → matches? p s n = .ok (found.contains n) := by
  intro h
  have hread : Extended.Selector.ofText "a\\ , b".toList =
      .ok ⟨[[.fragment "a\\".toList], [.fragment "b".toList]]⟩ := by decide +kernel
  obtain ⟨-, hcontains⟩ := h _ _ hread (by decide)
    (.ofDocument (Document.empty.append 0 (.element ⟨"b".toList, [], []⟩)))
    (Document.Built.empty.append 0 _)
  have hall : all (.ofDocument (Document.empty.append 0 (.element ⟨"b".toList, [], []⟩)))
      ⟨[[.fragment "a\\".toList], [.fragment "b".toList]]⟩ = .ok [1] := by decide +kernel
  have hmatch : matches? (.ofDocument (Document.empty.append 0 (.element ⟨"b".toList, [], []⟩)))
      ⟨[[.fragment "a\\".toList], [.fragment "b".toList]]⟩ 1 = .ok false := by decide +kernel
  exact absurd (hmatch.symm.trans (hcontains _ 1 hall)) (by decide)

end Query
end CosmeticFilter
