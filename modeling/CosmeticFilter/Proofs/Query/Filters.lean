import CosmeticFilter.Proofs.Query.Relatives
import CosmeticFilter.Proofs.Query.ScopedSearch

/-!
# Pseudo-classes that filter

Most pseudo-classes keep some of the candidates in front of them and do nothing else. A text
argument is compiled to a condition on one element; an argument of branches is evaluated from each
candidate, or once for the document. Either way whether a candidate is kept does not depend on the
other candidates. Between two nodes repetitions are dropped and an empty list ends the evaluation
early, but neither is seen in what filters let through: a run of filters keeps the candidates that
pass all of them, in whatever order they stand and however often.

* `Node.isFilter`: the pseudo-classes that filter;
* `passes`: an element passes such a node;
* `filters_passes`: nothing else decides what the node keeps;
* `evalBranch_congr_mem`: only the members of a run of filters count;
* `evalBranch_filters`: what a fragment with filters behind it finds;
* `filters_of_branch`: both for the branches of a selector.
-/

namespace CosmeticFilter
namespace Extended

/-- The pseudo-class keeps some of the candidates. The others lead from a candidate to other
elements, or mark a removal. -/
def Name.isFilter : Name → Bool
  | contains | abpContains | hasText => true
  | matchesCss | matchesCssBefore | matchesCssAfter => true
  | matchesAttr | matchesProperty => true
  | has | abpHas | if_ | ifNot => true
  | is | where_ | not => true
  | nthAncestor | upward | xpath | remove => false

/-- The node is a pseudo-class that filters. -/
def Node.isFilter (a : Node) : Bool := a.name?.any Name.isFilter

end Extended

namespace Query

open Extended (Node Name Selector Occurs)

variable {p : Page} {o : Origin}

/-! ### One filter -/

/-- An element passes a node. -/
def passes (p : Page) (a : Node) (n : Nat) : Bool :=
  match a with
  | .fragment _ => true
  | .textual name argument =>
    match Condition.compile name argument with
    | .ok c => c.keeps p n
    | .error _ => false
  | .nested name branches =>
    match name.operation with
    | some .has => findsAny p (.element n) branches
    | some .hasNot => !findsAny p (.element n) branches
    | some .is => (evalArgument p branches).contains n
    | some .not => !(evalArgument p branches).contains n
    | some .upward => true
    | none => true

/-- The condition of a filter leads nowhere else. -/
theorem apply_of_isFilter {name : Name} (hname : name.isFilter = true) {argument : Text}
    {c : Condition} (hc : Condition.compile name argument = .ok c) (candidates : List Nat) :
    c.apply p name candidates = .ok (candidates.filter fun n => c.keeps p n) := by
  unfold Condition.compile at hc
  split at hc
  · rename_i c' hread
    obtain rfl := Except.ok.inj hc
    cases name
    case contains | abpContains | hasText | matchesCss | matchesCssBefore | matchesCssAfter |
        matchesAttr | matchesProperty =>
      obtain ⟨x, -, rfl⟩ := Outcome.map_eq_ok.mp hread
      rfl
    case has | abpHas | if_ | ifNot | is | where_ | not =>
      exact absurd hread (by simp [Condition.read])
    case nthAncestor | upward | xpath | remove => exact absurd hname (by decide)
  · exact absurd hc (by simp)

/-- **A filter never fails, and it keeps the candidates that pass it**, whatever other candidates
there are. -/
theorem filters_passes {a : Node} (ha : a.isFilter = true) : Filters p a (passes p a) := by
  intro candidates
  show _ = Except.ok (candidates.filter fun n => passes p a n)
  cases a with
  | fragment t => exact absurd ha (by simp [Node.isFilter, Node.name?])
  | textual name argument =>
    have hname : name.isFilter = true := ha
    rw [applyNode, applyTextual]
    cases hc : Condition.compile name argument with
    | ok c =>
      simp only [passes, hc]
      exact apply_of_isFilter hname hc candidates
    | error e => simp [passes, hc]
  | nested name branches =>
    have hname : name.isFilter = true := ha
    rw [applyNode]
    cases hop : name.operation with
    | none => simp [passes, hop]
    | some operation =>
      cases operation with
      | has | hasNot | is | not => simp only [passes, hop]
      | upward =>
        cases name <;> first | exact absurd hname (by decide) | exact absurd hop (by decide)

/-! ### Runs of filters -/

theorem applyNodes_filter {a : Node} (ha : a.isFilter = true) (candidates : List Nat)
    (r : List Node) :
    applyNodes p candidates (a :: r) =
      applyNodes p (candidates.eraseDups.filter (passes p a)) r := by
  rw [applyNodes_cons (filters_passes ha candidates) (by rintro rfl; rfl), eraseDups_filter]

/-- A run of filters keeps the candidates that pass all of them. -/
theorem applyNodes_run {fs : List Node} (hfs : ∀ a ∈ fs, a.isFilter = true) (hne : fs ≠ [])
    (candidates : List Nat) (r : List Node) :
    applyNodes p candidates (fs ++ r) =
      applyNodes p (candidates.eraseDups.filter fun n => fs.all (passes p · n)) r := by
  induction fs generalizing candidates with
  | nil => exact absurd rfl hne
  | cons a fs ih =>
    obtain ⟨ha, hfs⟩ := List.forall_mem_cons.mp hfs
    rw [List.cons_append, applyNodes_filter ha]
    cases fs with
    | nil => simp
    | cons b fs =>
      rw [ih hfs (List.cons_ne_nil _ _), eraseDups_filter, eraseDups_eraseDups,
        List.filter_filter]
      refine congrArg (applyNodes p · r) (List.filter_congr fun n _ => ?_)
      rw [List.all_cons (a := a), Bool.and_comm]

/-- Nodes in front do not tell apart what is evaluated alike from any candidates. -/
theorem applyNodes_append_congr {xs ys : List Node}
    (h : ∀ candidates, applyNodes p candidates xs = applyNodes p candidates ys)
    (front : List Node) (candidates : List Nat) :
    applyNodes p candidates (front ++ xs) = applyNodes p candidates (front ++ ys) := by
  induction front generalizing candidates with
  | nil => exact h candidates
  | cons a r ih =>
    rw [List.cons_append, List.cons_append, applyNodes, applyNodes]
    split
    · rfl
    · cases applyNode p candidates a with
      | error e => rfl
      | ok found => exact ih found.eraseDups

/-- The search for the first fragment, where no expression takes its place. -/
theorem evalBranch_fragment {t : Text} {r : List Node}
    (hr : ∀ argument, r.head? ≠ some (.textual .xpath argument)) :
    evalBranch p o (.fragment t :: r) =
      match search p o t with
      | .error e => .error e
      | .ok found => applyNodes p found r := by
  have hnot : ∀ argument r', r = .textual .xpath argument :: r' → False := by
    rintro argument r' rfl
    exact hr argument rfl
  cases hfound : search p o t <;> rw [evalBranch, hfound] <;> exact hnot

theorem ne_xpath_of_isFilter {a : Node} (ha : a.isFilter = true) (r : List Node)
    (argument : Text) : (a :: r).head? ≠ some (.textual .xpath argument) := by
  intro heq
  rw [Option.some_inj.mp heq] at ha
  exact absurd ha Bool.false_ne_true

/-- Only fragments are searched for. -/
theorem evalBranch_of_not_fragment {a : Node} (ha : a.isFragment = false) (r : List Node) :
    evalBranch p o (a :: r) = .ok [] := by
  cases a with
  | fragment t => exact absurd ha (by simp [Node.isFragment])
  | textual name argument => rw [evalBranch] <;> simp
  | nested name branches => rw [evalBranch] <;> simp

theorem isFragment_of_isFilter {a : Node} (ha : a.isFilter = true) : a.isFragment = false := by
  cases a with
  | fragment t => exact absurd ha (by simp [Node.isFilter, Node.name?])
  | textual name argument => rfl
  | nested name branches => rfl

/-- What is evaluated alike from any candidates is evaluated alike behind the start of a branch. -/
theorem evalBranch_cons_congr {xs ys : List Node}
    (h : ∀ candidates, applyNodes p candidates xs = applyNodes p candidates ys) (t : Text)
    (a : Node) :
    evalBranch p o (.fragment t :: a :: xs) = evalBranch p o (.fragment t :: a :: ys) := by
  have hcons : ∀ candidates,
      applyNodes p candidates (a :: xs) = applyNodes p candidates (a :: ys) :=
    applyNodes_append_congr h [a]
  by_cases ha : ∃ argument, a = .textual .xpath argument
  · obtain ⟨argument, rfl⟩ := ha
    rw [evalBranch, evalBranch]
    simp only [h, hcons]
  · have hhead : ∀ (r : List Node) argument, (a :: r).head? ≠ some (.textual .xpath argument) :=
      fun r argument heq => ha ⟨argument, Option.some_inj.mp heq⟩
    rw [evalBranch_fragment (hhead xs), evalBranch_fragment (hhead ys)]
    simp only [hcons]

/-- What is evaluated alike from any candidates, and starts with a filter, is evaluated alike at the
end of a branch. -/
theorem evalBranch_append_congr {a b : Node} (ha : a.isFilter = true) (hb : b.isFilter = true)
    {xs ys : List Node}
    (h : ∀ candidates, applyNodes p candidates (a :: xs) = applyNodes p candidates (b :: ys)) :
    ∀ front, evalBranch p o (front ++ a :: xs) = evalBranch p o (front ++ b :: ys)
  | [] => (evalBranch_of_not_fragment (isFragment_of_isFilter ha) xs).trans
      (evalBranch_of_not_fragment (isFragment_of_isFilter hb) ys).symm
  | .textual name argument :: r => (evalBranch_of_not_fragment rfl (r ++ a :: xs)).trans
      (evalBranch_of_not_fragment rfl (r ++ b :: ys)).symm
  | .nested name branches :: r => (evalBranch_of_not_fragment rfl (r ++ a :: xs)).trans
      (evalBranch_of_not_fragment rfl (r ++ b :: ys)).symm
  | [.fragment t] => by
    rw [List.cons_append, List.cons_append, List.nil_append, List.nil_append,
      evalBranch_fragment (ne_xpath_of_isFilter ha _),
      evalBranch_fragment (ne_xpath_of_isFilter hb _)]
    simp only [h]
  | .fragment t :: c :: r => evalBranch_cons_congr (applyNodes_append_congr h r) t c

/-- **Only the members of a run of filters count**, not their order and not how often they stand
there. -/
theorem evalBranch_congr_mem {fs gs : List Node} (hfs : ∀ a ∈ fs, a.isFilter = true)
    (hmem : ∀ a, a ∈ fs ↔ a ∈ gs) (front rest : List Node) :
    evalBranch p o (front ++ (fs ++ rest)) = evalBranch p o (front ++ (gs ++ rest)) := by
  have hgs : ∀ a ∈ gs, a.isFilter = true := fun a ha => hfs a ((hmem a).mpr ha)
  cases fs with
  | nil =>
    obtain rfl := List.eq_nil_iff_forall_not_mem.mpr fun a ha =>
      List.not_mem_nil ((hmem a).mpr ha)
    rfl
  | cons a fs =>
    obtain ⟨b, gs, rfl⟩ : ∃ b gs', gs = b :: gs' :=
      List.exists_cons_of_ne_nil (List.ne_nil_of_mem ((hmem a).mp List.mem_cons_self))
    rw [List.cons_append, List.cons_append]
    refine evalBranch_append_congr (hfs a List.mem_cons_self) (hgs b List.mem_cons_self)
      (fun candidates => ?_) front
    rw [← List.cons_append, ← List.cons_append, applyNodes_run hfs (List.cons_ne_nil _ _),
      applyNodes_run hgs (List.cons_ne_nil _ _)]
    refine congrArg (applyNodes p · rest) (List.filter_congr fun n _ => ?_)
    rw [Bool.eq_iff_iff, List.all_eq_true, List.all_eq_true]
    exact forall_congr' fun c => imp_congr_left (hmem c)

/-! ### Branches of filters -/

theorem eraseDups_of_nodup {l : List Nat} (h : l.Nodup) : l.eraseDups = l := by
  induction l with
  | nil => rfl
  | cons n r ih =>
    obtain ⟨hn, hr⟩ := List.nodup_cons.mp h
    have hothers : (r.filter fun m => !m == n) = r := by
      refine List.filter_eq_self.mpr fun m hm => ?_
      rw [Bool.not_eq_true', beq_eq_false_iff_ne]
      rintro rfl
      exact hn hm
    rw [List.eraseDups_cons, hothers, ih hr]

/-- A fragment with filters behind it finds those of the elements of the fragment that pass all
filters. -/
theorem evalBranch_filters {f : Text} {fs : List Node} (hfs : ∀ a ∈ fs, a.isFilter = true)
    {found : List Nat} (hfound : search p o f = .ok found) (hnodup : found.Nodup) :
    evalBranch p o (.fragment f :: fs) = .ok (found.filter fun n => fs.all (passes p · n)) := by
  cases fs with
  | nil =>
    rw [evalBranch_fragment (by simp), hfound]
    simp [applyNodes]
  | cons a fs =>
    have hrun := applyNodes_run (p := p) hfs (List.cons_ne_nil _ _) found []
    rw [List.append_nil, applyNodes, eraseDups_of_nodup hnodup] at hrun
    rw [evalBranch_fragment (ne_xpath_of_isFilter (hfs a List.mem_cons_self) fs), hfound]
    exact hrun

/-- **Filters in the branches of a selector.** A pseudo-class that filters never fails and decides
about each candidate by itself; so in a branch, next to each other, two of them may change places
and one may be repeated; and a branch of a fragment and filters finds elements of the fragment, in
document order. -/
theorem filters_of_branch (hp : p.document.Built) {t : Text} {s : Selector}
    (ht : Selector.ofText t = .ok s) {path : List Name} {cs : List (List Node)}
    (hcs : Occurs s.branches path cs) {ns : List Node} (hns : ns ∈ cs) :
    (∀ a ∈ ns, a.isFilter = true →
      ∀ candidates, applyNode p candidates a = .ok (candidates.filter (passes p a))) ∧
    (∀ front a b rest, ns = front ++ a :: b :: rest → a.isFilter = true → b.isFilter = true →
      ∀ o, evalBranch p o (front ++ b :: a :: rest) = evalBranch p o ns) ∧
    (∀ front a rest, ns = front ++ a :: rest → a.isFilter = true →
      ∀ o, evalBranch p o (front ++ a :: a :: rest) = evalBranch p o ns) ∧
    ∀ f fs, ns = .fragment f :: fs → (∀ a ∈ fs, a.isFilter = true) →
      ∃ native, p.query f 0 = .ok native ∧ native.Pairwise p.document.Precedes ∧
        evalBranch p .document ns = .ok (native.filter fun n => fs.all (passes p · n)) := by
  refine ⟨fun a _ ha => filters_passes ha, ?_, ?_, ?_⟩
  · rintro front a b rest rfl ha hb o
    have hmem : ∀ c, c ∈ [b, a] ↔ c ∈ [a, b] := by simp [or_comm]
    exact evalBranch_congr_mem (by simp [ha, hb]) hmem front rest
  · rintro front a rest rfl ha o
    have hmem : ∀ c, c ∈ [a, a] ↔ c ∈ [a] := by simp
    exact evalBranch_congr_mem (by simp [ha]) hmem front rest
  · rintro f fs rfl hfs
    obtain ⟨u, hu⟩ := Extended.exists_readAll_of_occurs (Selector.ofText_eq_ok.mp ht) hcs
    obtain ⟨X, hX⟩ := (((Extended.isComplete_of_readAll hu).2 _ hns).isAdmitted _
      List.mem_cons_self).exists_ofText
    exact ⟨p.select X 0, query_eq hX 0, (hp.isTree.pairwise_descendants _).filter _,
      evalBranch_filters hfs (search_eq hX) ((hp.isTree.nodup_descendants _).filter _)⟩

/-- A test from each candidate and a test on the whole document change places. -/
theorem filters_of_branch_linkInBox :
    Selector.ofText "*:has(a):not(:contains(x))".toList =
        .ok ⟨[[.fragment "*".toList, .nested .has [[.fragment "a".toList]],
          .nested .not [[.fragment "*".toList, .textual .contains "x".toList]]]]⟩ ∧
      evalBranch (.ofDocument linkInBox) .document [.fragment "*".toList,
        .nested .not [[.fragment "*".toList, .textual .contains "x".toList]],
        .nested .has [[.fragment "a".toList]]] = .ok [1] ∧
      ∃ native, (Page.ofDocument linkInBox).query "*".toList 0 = .ok native ∧
        native.Pairwise linkInBox.Precedes ∧ [1].Sublist native := by
  let ns : List Node := [.fragment "*".toList, .nested .has [[.fragment "a".toList]],
    .nested .not [[.fragment "*".toList, .textual .contains "x".toList]]]
  have hread : Selector.ofText "*:has(a):not(:contains(x))".toList = .ok ⟨[ns]⟩ := by
    decide +kernel
  have hfound : evalBranch (.ofDocument linkInBox) .document ns = .ok [1] := by decide +kernel
  obtain ⟨-, hswap, -, hnative⟩ := filters_of_branch (p := .ofDocument linkInBox)
    ((Document.Built.empty.append 0 _).append 1 _) hread .self (List.mem_singleton_self ns)
  obtain ⟨native, hquery, horder, hbranch⟩ := hnative _ _ rfl (by decide)
  refine ⟨hread, (hswap [.fragment "*".toList] _ _ [] rfl rfl rfl .document).trans hfound, native,
    hquery, horder, ?_⟩
  rw [Except.ok.inj (hfound.symm.trans hbranch)]
  exact List.filter_sublist

end Query
end CosmeticFilter
