import CosmeticFilter.Proofs.Extended.Arguments
import CosmeticFilter.Proofs.Query.Lists
import CosmeticFilter.Proofs.Query.NativePath

/-!
# The relative pseudo-classes as a Boolean algebra

`:is()`, `:not()`, `:has()` and `:if-not()` keep some of the candidates in front of them, each by a
test that depends on the branches of its argument alone. For `:is()` and `:not()` the test is
whether the candidate is among the elements that the argument finds in the document, for `:has()`
and `:if-not()` whether the argument finds anything from the candidate. What a list of branches
finds is what its parts find, also if some of them fail, so lists of arguments are unions, and the
pairs are complements. Only the double negation needs to know more: the inner `:not()` follows an
asterisk that is not written, and this stands for all elements that can be candidates.

* `Filters`: a node keeps the candidates that pass a test;
* `all_filters`: what a fragment with such nodes behind it finds;
* `IsSelector`, `Finds`: texts that are selectors, and what they find;
* `RelativeLaws`: the laws for a selector and two arguments;
* `finds_union`, `finds_complement`, `finds_not_list`, `finds_not_not`: each law by itself;
* `relativeLaws`: all of them.
-/

namespace CosmeticFilter
namespace Query

open Extended (Node Selector Name IsSeed IsRead Inside Opens readAll pseudoText pseudosText)

variable {p : Page} {S f A B : Text} {X : Css.Selector}

/-! ### Nodes that filter -/

/-- The node keeps those candidates that meet a test. -/
def Filters (p : Page) (n : Node) (k : Nat → Bool) : Prop :=
  ∀ candidates, applyNode p candidates n = .ok (candidates.filter k)

theorem filters_is (bs : List (List Node)) :
    Filters p (.nested .is bs) fun n => (evalArgument p bs).contains n := fun _ => by
  rw [applyNode]
  rfl

theorem filters_not (bs : List (List Node)) :
    Filters p (.nested .not bs) fun n => !(evalArgument p bs).contains n := fun _ => by
  rw [applyNode]
  rfl

theorem filters_has (bs : List (List Node)) :
    Filters p (.nested .has bs) fun n => findsAny p (.element n) bs := fun _ => by
  rw [applyNode]
  rfl

theorem filters_ifNot (bs : List (List Node)) :
    Filters p (.nested .ifNot bs) fun n => !findsAny p (.element n) bs := fun _ => by
  rw [applyNode]
  rfl

/-- Nodes that filter keep the candidates that meet all tests. -/
theorem applyNodes_filters {ns : List Node} {ks : List (Nat → Bool)}
    (h : List.Forall₂ (Filters p) ns ks) (candidates : List Nat) :
    ∃ found, applyNodes p candidates ns = .ok found ∧
      found.eraseDups = candidates.eraseDups.filter fun n => ks.all (· n) := by
  induction h generalizing candidates with
  | nil => exact ⟨candidates, rfl, by simp⟩
  | @cons n k ns ks hn _ ih =>
    rw [applyNodes]
    split
    · rename_i hempty
      rw [List.isEmpty_iff.mp hempty]
      exact ⟨[], rfl, rfl⟩
    · obtain ⟨found, happly, hfound⟩ := ih (candidates.filter k).eraseDups
      rw [hn candidates]
      refine ⟨found, happly, ?_⟩
      rw [hfound, eraseDups_eraseDups, eraseDups_filter, List.filter_filter]
      simp only [List.all_cons, Bool.and_comm]

/-- A fragment with pseudo-classes behind it finds what the fragment finds and the tests keep. -/
theorem all_filters (hX : Css.Selector.ofText f = .ok X) {name : Name} {bs : List (List Node)}
    {r : List Node} {ks : List (Nat → Bool)}
    (h : List.Forall₂ (Filters p) (.nested name bs :: r) ks) :
    all p ⟨[.fragment f :: .nested name bs :: r]⟩ =
      .ok ((p.select X 0).eraseDups.filter fun n => ks.all (· n)) := by
  obtain ⟨found, happly, hfound⟩ := applyNodes_filters h (p.select X 0)
  have hbranch : evalBranch p .document (.fragment f :: .nested name bs :: r) = .ok found := by
    rw [evalBranch, search_eq hX]
    · exact happly
    · simp
  rw [all_single hbranch, hfound]

/-! ### Every element -/

/-- The elements that an argument finds in the document are those that one of its branches finds. -/
theorem mem_evalArgument_single {b : List Node} {s : Selector} {found : List Nat}
    (hs : s.branches = [b]) (h : all p s = .ok found) (n : Nat) :
    n ∈ evalArgument p [b] ↔ n ∈ found := by
  obtain ⟨bs⟩ := s
  obtain rfl : bs = [b] := hs
  obtain ⟨l, hl, rfl⟩ := Outcome.map_eq_ok.mp h
  unfold evalBranches at hl
  rw [evalArgument, evalArgument, List.append_nil, List.mem_eraseDups]
  cases hbranch : evalBranch p .document b with
  | error e => rw [hbranch] at hl; exact absurd hl (by simp)
  | ok l' =>
    rw [hbranch] at hl
    obtain ⟨rest, hrest, rfl⟩ := Outcome.map_eq_ok.mp hl
    obtain rfl := Except.ok.inj hrest
    simp

/-- An asterisk stands for every element. -/
theorem selects_universal (n : Nat) :
    Css.Selector.selects p.document none ⟨[⟨[.universal], []⟩]⟩ n = p.document.isElement n := by
  rw [selects_single]
  unfold Css.Complex.selects Css.chainHolds Document.isElement
  cases h : p.document.element? n with
  | none => rfl
  | some e => simp [Css.Compound.holdsAt, Css.Simple.holdsAt, Css.Simple.holdsFor, h]

/-- The asterisk in front of a pseudo-class stands for every element of the document. -/
theorem mem_evalArgument_not (hp : p.document.Built) (bs : List (List Node)) (n : Nat) :
    n ∈ evalArgument p [[.fragment ['*'], .nested .not bs]] ↔
      p.document.isElement n = true ∧ n ∉ evalArgument p bs := by
  rw [mem_evalArgument_single rfl (all_filters Css.ofText_asterisk (.cons (filters_not bs) .nil)),
    List.mem_filter, List.mem_eraseDups, mem_select_document hp, selects_universal]
  simp

/-! ### Selectors -/

/-- The text is a selector. -/
def IsSelector (t : Text) : Prop := ∃ s, Selector.ofText t = .ok s

instance (t : Text) : Decidable (IsSelector t) :=
  match h : Selector.ofText t with
  | .ok s => isTrue ⟨s, h⟩
  | .error _ => isFalse fun ⟨_, hs⟩ => absurd (h.symm.trans hs) (by simp)

/-- The text is a selector, and these are the elements that it finds. -/
def Finds (p : Page) (t : Text) (ns : List Nat) : Prop :=
  ∃ s, Selector.ofText t = .ok s ∧ all p s = .ok ns

variable {a : Bool}

/-- Pseudo-classes behind a selector find what the selector finds and their tests keep. -/
theorem Finds.of_reads (hopen : Opens .top (Text.trimStart S) f a)
    (hX : Css.Selector.ofText f = .ok X) {x : Name × Text} {l : List (Name × Text)}
    (hl : ∀ y ∈ x :: l, y.1.TakesBranches ∧ Inside.start.Fills y.2) {ns : List Node}
    (hns : List.Forall₂ (IsRead .top a) (x :: l) ns) {ks : List (Nat → Bool)}
    (hks : List.Forall₂ (Filters p) ns ks) :
    Finds p (S ++ pseudosText (x :: l))
      ((p.select X 0).eraseDups.filter fun n => ks.all (· n)) := by
  refine ⟨⟨[.fragment f :: ns]⟩, ?_, ?_⟩
  · rw [Selector.ofText_eq_ok, ← Extended.readAll_trimStart_append]
    exact (hopen.readAll_iff hl).mpr ⟨ns, hns, rfl⟩
  · obtain ⟨n, r, hn, -, rfl⟩ := List.forall₂_cons_left_iff.mp hns
    obtain ⟨bs, -, rfl⟩ := hn.nested
    exact all_filters hX hks

theorem Finds.of_read (hopen : Opens .top (Text.trimStart S) f a)
    (hX : Css.Selector.ofText f = .ok X) {name : Name} (hname : name.TakesBranches)
    (hA : Inside.start.Fills A) {n : Node} (hn : IsRead .top a (name, A) n) {k : Nat → Bool}
    (hk : Filters p n k) :
    Finds p (S ++ pseudosText [(name, A)]) ((p.select X 0).eraseDups.filter k) := by
  have hfinds := Finds.of_reads hopen hX (fun y hy => List.mem_singleton.mp hy ▸ ⟨hname, hA⟩)
    (.cons hn .nil) (.cons hk .nil)
  simpa using hfinds

/-- The argument of a pseudo-class behind a selector has been read. -/
theorem exists_isRead (hopen : Opens .top (Text.trimStart S) f a) {name : Name}
    (hname : name.TakesBranches) (hA : Inside.start.Fills A)
    (h : IsSelector (S ++ pseudosText [(name, A)])) :
    ∃ as, IsRead .top a (name, A) (.nested name as) := by
  obtain ⟨s, hs⟩ := h
  rw [Selector.ofText_eq_ok, ← Extended.readAll_trimStart_append, hopen.readAll_iff] at hs
  · obtain ⟨ns, hns, -⟩ := hs
    obtain ⟨n, _, hn, -, -⟩ := List.forall₂_cons_left_iff.mp hns
    obtain ⟨as, -, rfl⟩ := hn.nested
    exact ⟨as, hn⟩
  · exact fun y hy => List.mem_singleton.mp hy ▸ ⟨hname, hA⟩

/-- Behind a selector without extensions, a pseudo-class has been read with its argument. -/
theorem exists_opens (hS : IsSeed S f) {name : Name} (hname : name.TakesBranches)
    (hA : Inside.start.Fills A) (h : IsSelector (S ++ pseudosText [(name, A)])) :
    ∃ a as, Opens .top (Text.trimStart S) f a ∧ IsRead .top a (name, A) (.nested name as) := by
  obtain ⟨s, hs⟩ := h
  obtain ⟨a, hopen⟩ := hS.opens (fun y hy => List.mem_singleton.mp hy ▸ ⟨hname, hA⟩)
    (Selector.ofText_eq_ok.mp hs)
  obtain ⟨as, has⟩ := exists_isRead hopen hname hA ⟨s, hs⟩
  exact ⟨a, as, hopen, has⟩

/-! ### The laws -/

/-- The laws of a Boolean algebra for a selector `S`, which finds `ns`, and arguments `A` and `B`.
Every list is in the order of `ns`. -/
structure RelativeLaws (p : Page) (S A B : Text) (ns : List Nat) : Prop where
  /-- `S:is(A, B)` keeps what `S:is(A)` or `S:is(B)` keeps. -/
  is_list : IsSelector (S ++ pseudosText [(.is, A)]) → IsSelector (S ++ pseudosText [(.is, B)]) →
    ∃ a b : Nat → Bool, Finds p (S ++ pseudosText [(.is, A)]) (ns.filter a) ∧
      Finds p (S ++ pseudosText [(.is, B)]) (ns.filter b) ∧
      Finds p (S ++ pseudosText [(.is, A ++ ',' :: ' ' :: B)]) (ns.filter fun n => a n || b n)
  /-- `S:not(A, B)` is `S:not(A):not(B)`. -/
  not_list : IsSelector (S ++ pseudosText [(.not, A)]) →
    IsSelector (S ++ pseudosText [(.not, B)]) →
    ∃ k : Nat → Bool, Finds p (S ++ pseudosText [(.not, A ++ ',' :: ' ' :: B)]) (ns.filter k) ∧
      Finds p (S ++ pseudosText [(.not, A), (.not, B)]) (ns.filter k)
  /-- `S:not(:not(A))` is `S:is(A)`. -/
  not_not : IsSelector (S ++ pseudosText [(.is, A)]) →
    ∃ k : Nat → Bool, Finds p (S ++ pseudosText [(.not, pseudoText (.not, A))]) (ns.filter k) ∧
      Finds p (S ++ pseudosText [(.is, A)]) (ns.filter k)
  /-- `S:has(A, B)` keeps what `S:has(A)` or `S:has(B)` keeps. -/
  has_list : IsSelector (S ++ pseudosText [(.has, A)]) →
    IsSelector (S ++ pseudosText [(.has, B)]) →
    ∃ a b : Nat → Bool, Finds p (S ++ pseudosText [(.has, A)]) (ns.filter a) ∧
      Finds p (S ++ pseudosText [(.has, B)]) (ns.filter b) ∧
      Finds p (S ++ pseudosText [(.has, A ++ ',' :: ' ' :: B)]) (ns.filter fun n => a n || b n)
  /-- `S:not(A)` keeps what `S:is(A)` does not keep. -/
  not_is : IsSelector (S ++ pseudosText [(.is, A)]) →
    ∃ a : Nat → Bool, Finds p (S ++ pseudosText [(.is, A)]) (ns.filter a) ∧
      Finds p (S ++ pseudosText [(.not, A)]) (ns.filter fun n => !a n)
  /-- `S:if-not(A)` keeps what `S:has(A)` does not keep. -/
  ifNot_has : IsSelector (S ++ pseudosText [(.has, A)]) →
    ∃ a : Nat → Bool, Finds p (S ++ pseudosText [(.has, A)]) (ns.filter a) ∧
      Finds p (S ++ pseudosText [(.ifNot, A)]) (ns.filter fun n => !a n)

/-! ### The laws hold -/

theorem takesBranches_is : Name.is.TakesBranches := fun _ => rfl

theorem takesBranches_not : Name.not.TakesBranches := fun _ => rfl

theorem takesBranches_has : Name.has.TakesBranches := fun _ => rfl

theorem takesBranches_ifNot : Name.ifNot.TakesBranches := fun _ => rfl

/-- If the test for a list of branches is that one of them passes, a list of arguments keeps what
one of the arguments keeps. -/
theorem finds_union (hS : IsSeed S f) (hX : Css.Selector.ofText f = .ok X)
    (hA : Inside.start.Fills A) (hB : Inside.start.Fills B) {name : Name}
    (hname : name.TakesBranches) {test : List (List Node) → Nat → Bool}
    (htest : ∀ bs, Filters p (.nested name bs) (test bs))
    (happend : ∀ as bs, test (as ++ bs) = fun n => test as n || test bs n)
    (h : IsSelector (S ++ pseudosText [(name, A)]))
    (h' : IsSelector (S ++ pseudosText [(name, B)])) :
    ∃ a b : Nat → Bool,
      Finds p (S ++ pseudosText [(name, A)]) ((p.select X 0).eraseDups.filter a) ∧
      Finds p (S ++ pseudosText [(name, B)]) ((p.select X 0).eraseDups.filter b) ∧
      Finds p (S ++ pseudosText [(name, A ++ ',' :: ' ' :: B)])
        ((p.select X 0).eraseDups.filter fun n => a n || b n) := by
  obtain ⟨a, as, hopen, has⟩ := exists_opens hS hname hA h
  obtain ⟨bs, hbs⟩ := exists_isRead hopen hname hB h'
  refine ⟨test as, test bs, .of_read hopen hX hname hA has (htest as),
    .of_read hopen hX hname hB hbs (htest bs), ?_⟩
  rw [← happend]
  exact .of_read hopen hX hname (hA.list hB) (has.list hA hbs) (htest (as ++ bs))

/-- If the test of a second pseudo-class is the opposite, it keeps what the first one does not
keep. -/
theorem finds_complement (hS : IsSeed S f) (hX : Css.Selector.ofText f = .ok X)
    (hA : Inside.start.Fills A) {name m : Name} (hname : name.TakesBranches)
    (hm : m.TakesBranches) (hhas : m.isHasFamily = name.isHasFamily)
    (his : m.isIsFamily = true → name.isIsFamily = true) {test : List (List Node) → Nat → Bool}
    (htest : ∀ bs, Filters p (.nested name bs) (test bs))
    (htest' : ∀ bs, Filters p (.nested m bs) fun n => !test bs n)
    (h : IsSelector (S ++ pseudosText [(name, A)])) :
    ∃ a : Nat → Bool,
      Finds p (S ++ pseudosText [(name, A)]) ((p.select X 0).eraseDups.filter a) ∧
      Finds p (S ++ pseudosText [(m, A)]) ((p.select X 0).eraseDups.filter fun n => !a n) := by
  obtain ⟨a, as, hopen, has⟩ := exists_opens hS hname hA h
  exact ⟨test as, .of_read hopen hX hname hA has (htest as),
    .of_read hopen hX hm hA (has.rename hhas his) (htest' as)⟩

theorem finds_not_list (hS : IsSeed S f) (hX : Css.Selector.ofText f = .ok X)
    (hA : Inside.start.Fills A) (hB : Inside.start.Fills B)
    (h : IsSelector (S ++ pseudosText [(.not, A)]))
    (h' : IsSelector (S ++ pseudosText [(.not, B)])) :
    ∃ k : Nat → Bool,
      Finds p (S ++ pseudosText [(.not, A ++ ',' :: ' ' :: B)])
        ((p.select X 0).eraseDups.filter k) ∧
      Finds p (S ++ pseudosText [(.not, A), (.not, B)]) ((p.select X 0).eraseDups.filter k) := by
  obtain ⟨a, as, hopen, has⟩ := exists_opens hS takesBranches_not hA h
  obtain ⟨bs, hbs⟩ := exists_isRead hopen takesBranches_not hB h'
  refine ⟨_, .of_read hopen hX takesBranches_not (hA.list hB) (has.list hA hbs) (filters_not _), ?_⟩
  have hfinds := Finds.of_reads hopen hX
    (fun y hy => by
      rcases List.mem_cons.mp hy with rfl | hy
      · exact ⟨takesBranches_not, hA⟩
      · exact List.mem_singleton.mp hy ▸ ⟨takesBranches_not, hB⟩)
    (.cons has (.cons hbs .nil)) (.cons (filters_not (p := p) as) (.cons (filters_not bs) .nil))
  rwa [List.filter_congr fun n _ => ?_] at hfinds
  rw [evalArgument_append]
  simp

/-- The asterisk that is meant in `:not(:not(A))` stands for every element, so nothing is lost by
it. -/
theorem finds_not_not (hp : p.document.Built) (hS : IsSeed S f)
    (hX : Css.Selector.ofText f = .ok X) (hA : Inside.start.Fills A)
    (h : IsSelector (S ++ pseudosText [(.is, A)])) :
    ∃ k : Nat → Bool,
      Finds p (S ++ pseudosText [(.not, pseudoText (.not, A))])
        ((p.select X 0).eraseDups.filter k) ∧
      Finds p (S ++ pseudosText [(.is, A)]) ((p.select X 0).eraseDups.filter k) := by
  obtain ⟨a, as, hopen, has⟩ := exists_opens hS takesBranches_is hA h
  refine ⟨_, ?_, .of_read hopen hX takesBranches_is hA has (filters_is as)⟩
  have hfinds := Finds.of_read hopen hX takesBranches_not hA.negation (has.negation hA)
    (filters_not (p := p) _)
  rwa [List.filter_congr fun n hn => ?_] at hfinds
  have helement : p.document.isElement n = true := by
    rw [List.mem_eraseDups, mem_select_document hp] at hn
    obtain ⟨x, -, hx⟩ := List.any_eq_true.mp hn
    exact isElement_of_selects hx
  rw [Bool.eq_iff_iff, Bool.not_eq_true', List.contains_iff_mem, ← Bool.not_eq_true,
    List.contains_iff_mem, mem_evalArgument_not hp, helement]
  simp

/-- **The relative pseudo-classes form a Boolean algebra** on the elements that a selector without
extensions finds, for all arguments that may be given to them. A branch of an argument that fails
only finds nothing, so nothing fails as a whole. -/
theorem relativeLaws (hp : p.document.Built) (hS : IsSeed S f) (hA : Inside.start.Fills A)
    (hB : Inside.start.Fills B) : ∃ ns, Finds p S ns ∧ RelativeLaws p S A B ns := by
  obtain ⟨X, hX⟩ : ∃ X, Css.Selector.ofText f = .ok X := by
    obtain ⟨-, -, -, ⟨X, hX⟩, -⟩ :=
      Extended.native_of_readAll rfl (Selector.ofText_eq_ok.mp hS.read)
    exact ⟨X, (Css.ofText_trim f).symm.trans hX⟩
  refine ⟨(p.select X 0).eraseDups, ⟨_, hS.read, all_single (evalBranch_native hX)⟩, ?_, ?_, ?_, ?_,
    ?_, ?_⟩
  · exact finds_union hS hX hA hB takesBranches_is filters_is fun as bs => funext fun n => by
      rw [evalArgument_append]
      simp
  · exact finds_not_list hS hX hA hB
  · exact finds_not_not hp hS hX hA
  · exact finds_union hS hX hA hB takesBranches_has filters_has fun as bs =>
      funext fun n => findsAny_append p (.element n) as bs
  · exact finds_complement hS hX hA takesBranches_is takesBranches_not rfl (by decide) filters_is
      filters_not
  · exact finds_complement hS hX hA takesBranches_has takesBranches_ifNot rfl (by decide)
      filters_has filters_ifNot

/-- One branch of the first argument steps up too far, and the laws hold all the same. -/
theorem relativeLaws_stepTooFar :
    RelativeLaws (.ofDocument linkInBox) "*".toList "div, a:nth-ancestor(5)".toList "a".toList
        [1, 2] ∧
      IsSelector "*:is(div, a:nth-ancestor(5))".toList ∧ IsSelector "*:is(a)".toList ∧
      IsSelector "*:not(div, a:nth-ancestor(5))".toList ∧ IsSelector "*:not(a)".toList ∧
      IsSelector "*:has(div, a:nth-ancestor(5))".toList ∧ IsSelector "*:has(a)".toList := by
  have hread : Selector.ofText "*".toList = .ok ⟨[[.fragment "*".toList]]⟩ := by decide +kernel
  have hall : all (.ofDocument linkInBox) ⟨[[.fragment "*".toList]]⟩ = .ok [1, 2] := by
    decide +kernel
  have hseed : IsSeed "*".toList "*".toList :=
    ⟨hread, fun c hc => Option.some_inj.mp hc ▸ rfl, by decide⟩
  obtain ⟨ns, ⟨s, hs, hns⟩, hlaws⟩ := relativeLaws (p := .ofDocument linkInBox)
    (A := "div, a:nth-ancestor(5)".toList) (B := "a".toList)
    ((Document.Built.empty.append 0 _).append 1 _) hseed (by decide +kernel) (by decide +kernel)
  obtain rfl := Except.ok.inj (hread.symm.trans hs)
  obtain rfl := Except.ok.inj (hall.symm.trans hns)
  refine ⟨hlaws, ?_, ?_, ?_, ?_, ?_, ?_⟩ <;> decide +kernel

end Query
end CosmeticFilter
