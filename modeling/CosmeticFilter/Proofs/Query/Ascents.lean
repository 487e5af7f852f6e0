import CosmeticFilter.Proofs.Extended.Ascents
import CosmeticFilter.Proofs.Query.Filters

/-!
# Steps to ancestors compose

A step leads from each candidate so many elements up, and fails if there are not so many above one
of them. The next step starts from where the candidates have come to, each place once. Two steps
lead as far up as one step of both depths: going up composes, repetitions that are dropped in
between would be dropped in the end, and the one step fails exactly if one of the two does, since a
candidate that is too close to the document for both is too close for the first step, or the place
it has come to is too close for the second.

* `Condition.above?_add`: going up composes;
* `Condition.mapM_ascend`, `Condition.mapM_ascend_error`: one step from all candidates;
* `eraseDups_filterMap`: repetitions that are dropped in between;
* `applyNodes_ascents`, `applyNodes_ascents_error`: steps one after the other;
* `all_ascents_add`: two steps behind a native text are one.
-/

namespace CosmeticFilter

variable {p : Page}

/-! ### One step -/

namespace Condition

theorem above?_add (d : Document) (j k n : Nat) :
    above? d (j + k) n = (above? d j n).bind (above? d k) := by
  induction j generalizing n with
  | zero => rw [Nat.zero_add, above?, Option.bind_some]
  | succ j ih =>
    have hnext : above? d (j + k) = fun m => (above? d j m).bind (above? d k) := funext ih
    rw [Nat.succ_add, above?, above?, hnext, Option.bind_assoc]

variable {depth : Nat} {ns : List Nat}

/-- A step from candidates that have so many elements above them. -/
theorem mapM_ascend (name : Extended.Name) (h : ∀ n ∈ ns, (above? p.document depth n).isSome) :
    ns.mapM (ascend p name depth) = .ok (ns.filterMap (above? p.document depth)) := by
  induction ns with
  | nil => rfl
  | cons n r ih =>
    obtain ⟨hn, hr⟩ := List.forall_mem_cons.mp h
    obtain ⟨m, hm⟩ := Option.isSome_iff_exists.mp hn
    rw [List.mapM_cons, ih hr, ascend, hm, List.filterMap_cons_some hm]
    rfl

/-- A step fails if one of the candidates has not so many elements above it. -/
theorem mapM_ascend_error (name : Extended.Name) {n : Nat} (hn : n ∈ ns)
    (h : above? p.document depth n = none) :
    ns.mapM (ascend p name depth) = .error (.outOfRange name depth) := by
  induction ns with
  | nil => exact absurd hn List.not_mem_nil
  | cons m r ih =>
    rw [List.mapM_cons, ascend]
    cases hm : above? p.document depth m with
    | none => rfl
    | some k =>
      have hr : n ∈ r := by
        refine (List.mem_cons.mp hn).resolve_left ?_
        rintro rfl
        exact Option.some_ne_none k (hm.symm.trans h)
      rw [ih hr]
      rfl

end Condition

namespace Query

open Extended (Ascent Node Selector TakesPseudoClass leadingFragment pseudosText)

/-! ### Steps one after the other -/

/-- Repetitions may be dropped before candidates are led elsewhere, or afterwards. -/
theorem eraseDups_filterMap (g : Nat → Option Nat) (l : List Nat) :
    (l.eraseDups.filterMap g).eraseDups = (l.filterMap g).eraseDups := by
  induction l using List.reverseRecOn with
  | nil => rfl
  | append_singleton l n ih =>
    rw [eraseDups_append, List.filterMap_append, List.filterMap_append, eraseDups_append,
      eraseDups_append (l.filterMap g), ih]
    by_cases hn : n ∈ l
    · -- the last candidate is dropped first, or where it leads to is dropped in the end
      have hfirst : ([n].eraseDups.filter fun m => !l.eraseDups.contains m) = [] := by
        simp [hn]
      have hlater : (([n].filterMap g).eraseDups.filter fun m =>
          !(l.filterMap g).eraseDups.contains m) = [] := by
        refine List.filter_eq_nil_iff.mpr fun m hm => ?_
        obtain ⟨k, hk, hgk⟩ := List.mem_filterMap.mp (List.mem_eraseDups.mp hm)
        rw [List.mem_singleton.mp hk] at hgk
        have hmem : m ∈ (l.filterMap g).eraseDups :=
          List.mem_eraseDups.mpr (List.mem_filterMap.mpr ⟨n, hn, hgk⟩)
        rw [List.contains_iff_mem.mpr hmem]
        exact Bool.false_ne_true
      rw [hfirst, hlater]
      rfl
    · have hkept : ([n].eraseDups.filter fun m => !l.eraseDups.contains m) = [n] := by
        rw [eraseDups_of_nodup (List.nodup_singleton n)]
        simp [hn]
      rw [hkept]

/-- How far steps lead up together. -/
def totalDepth (l : List Ascent) : Nat := (l.map Ascent.depth).sum

theorem above?_totalDepth_cons (d : Document) (x : Ascent) (l : List Ascent) (n : Nat) :
    Condition.above? d (totalDepth (x :: l)) n =
      (Condition.above? d x.depth n).bind (Condition.above? d (totalDepth l)) := by
  rw [← Condition.above?_add]
  rfl

theorem applyNode_ascent (x : Ascent) (ns : List Nat) :
    applyNode p ns x.node = ns.mapM (Condition.ascend p x.name x.depth) := by
  rw [Ascent.node, applyNode, applyTextual, x.compile_eq]
  rfl

/-- The next nodes start from where a step leads. -/
theorem applyNodes_ascent_cons {x : Ascent} {ns : List Nat}
    (h : ∀ n ∈ ns, (Condition.above? p.document x.depth n).isSome) (r : List Node) :
    applyNodes p ns (x.node :: r) =
      applyNodes p (ns.filterMap (Condition.above? p.document x.depth)).eraseDups r := by
  rw [applyNodes_cons]
  · rw [applyNode_ascent, Condition.mapM_ascend x.name h]
  · rintro rfl
    rfl

/-- Steps one after the other lead as far up as all of them together. -/
theorem applyNodes_ascents {l : List Ascent} {ns : List Nat}
    (h : ∀ n ∈ ns, (Condition.above? p.document (totalDepth l) n).isSome) :
    ∃ found, applyNodes p ns (l.map Ascent.node) = .ok found ∧
      found.eraseDups = (ns.filterMap (Condition.above? p.document (totalDepth l))).eraseDups := by
  induction l generalizing ns with
  | nil =>
    refine ⟨ns, rfl, ?_⟩
    have hstay : Condition.above? p.document (totalDepth []) = some := rfl
    rw [hstay, List.filterMap_some]
  | cons x l ih =>
    have hfirst : ∀ n ∈ ns, (Condition.above? p.document x.depth n).isSome := by
      intro n hn
      have hn := h n hn
      rw [above?_totalDepth_cons] at hn
      exact Option.isSome_of_isSome_bind hn
    have hothers : ∀ m ∈ (ns.filterMap (Condition.above? p.document x.depth)).eraseDups,
        (Condition.above? p.document (totalDepth l) m).isSome := by
      intro m hm
      obtain ⟨n, hn, hnm⟩ := List.mem_filterMap.mp (List.mem_eraseDups.mp hm)
      have hn := h n hn
      rwa [above?_totalDepth_cons, hnm, Option.bind_some] at hn
    obtain ⟨found, hfound, heq⟩ := ih hothers
    refine ⟨found, ?_, ?_⟩
    · rw [List.map_cons, applyNodes_ascent_cons hfirst, hfound]
    · rw [heq, eraseDups_filterMap, List.filterMap_filterMap]
      simp only [above?_totalDepth_cons]

/-- If one of the candidates has not so many elements above it, one of the steps fails. -/
theorem applyNodes_ascents_error {l : List Ascent} {ns : List Nat} {n : Nat} (hn : n ∈ ns)
    (h : Condition.above? p.document (totalDepth l) n = none) :
    ∃ x ∈ l, applyNodes p ns (l.map Ascent.node) = .error (.outOfRange x.name x.depth) := by
  induction l generalizing ns n with
  | nil => exact absurd h (Option.some_ne_none n)
  | cons x l ih =>
    by_cases hfirst : ∀ m ∈ ns, (Condition.above? p.document x.depth m).isSome
    · -- the first step does not fail, so the candidate is too close for the others
      obtain ⟨m, hm⟩ := Option.isSome_iff_exists.mp (hfirst n hn)
      rw [above?_totalDepth_cons, hm, Option.bind_some] at h
      have hmem : m ∈ (ns.filterMap (Condition.above? p.document x.depth)).eraseDups :=
        List.mem_eraseDups.mpr (List.mem_filterMap.mpr ⟨n, hn, hm⟩)
      obtain ⟨y, hy, hfail⟩ := ih hmem h
      refine ⟨y, List.mem_cons_of_mem x hy, ?_⟩
      rw [List.map_cons, applyNodes_ascent_cons hfirst, hfail]
    · obtain ⟨m, hm, hnone⟩ : ∃ m ∈ ns, Condition.above? p.document x.depth m = none := by
        simpa using hfirst
      have hne : ¬ ns.isEmpty = true := by
        rw [List.isEmpty_iff]
        exact List.ne_nil_of_mem hm
      refine ⟨x, List.mem_cons_self, ?_⟩
      rw [List.map_cons, applyNodes, if_neg hne, applyNode_ascent,
        Condition.mapM_ascend_error x.name hm hnone]

/-! ### Behind a fragment -/

variable {f t : Text} {X : Css.Selector}

theorem evalBranch_ascents (ht : Css.Selector.ofText t = .ok X) (l : List Ascent) :
    evalBranch p .document (.fragment t :: l.map Ascent.node) =
      applyNodes p (p.select X 0) (l.map Ascent.node) := by
  rw [evalBranch_fragment, search_eq ht]
  intro argument hhead
  cases l with
  | nil => exact absurd hhead (by simp)
  | cons x l =>
    obtain ⟨hname, -⟩ := Node.textual.inj (Option.some_inj.mp hhead)
    rcases x.leads with h | h <;> rw [h] at hname <;> exact absurd hname (by decide)

/-- Steps behind a fragment find what is so far above its elements, each once. -/
theorem all_ascents (ht : Css.Selector.ofText t = .ok X) {l : List Ascent}
    (h : ∀ n ∈ p.select X 0, (Condition.above? p.document (totalDepth l) n).isSome) :
    all p ⟨[.fragment t :: l.map Ascent.node]⟩ =
      .ok ((p.select X 0).filterMap (Condition.above? p.document (totalDepth l))).eraseDups := by
  obtain ⟨found, hfound, heq⟩ := applyNodes_ascents h
  rw [all_single ((evalBranch_ascents ht l).trans hfound), heq]

/-- They fail if one of its elements has not so many elements above it. -/
theorem all_ascents_error (ht : Css.Selector.ofText t = .ok X) {l : List Ascent} {n : Nat}
    (hn : n ∈ p.select X 0) (h : Condition.above? p.document (totalDepth l) n = none) :
    ∃ x ∈ l, all p ⟨[.fragment t :: l.map Ascent.node]⟩ = .error (.outOfRange x.name x.depth) := by
  obtain ⟨x, hx, hfail⟩ := applyNodes_ascents_error hn h
  refine ⟨x, hx, ?_⟩
  unfold all evalBranches
  rw [evalBranch_ascents ht l, hfail]
  rfl

/-- **Steps to ancestors compose.** If a native text takes a pseudo-class at all, two steps behind
it and one step of both depths find the same: what is so far above the elements of the text, each
once. If one of these has not so many elements above it, both are out of range. And if the text
takes no pseudo-class, both are refused for the same cause. -/
theorem all_ascents_add {S : Text} (hS : Selector.ofText S = .ok ⟨[[.fragment f]]⟩)
    (hlast : S.getLast? ≠ some '\\') (x y z : Ascent) (hdepth : x.depth + y.depth = z.depth)
    (p : Page) :
    (TakesPseudoClass S →
      ∃ s s' native, Selector.ofText (S ++ pseudosText [x.written, y.written]) = .ok s ∧
        Selector.ofText (S ++ pseudosText [z.written]) = .ok s' ∧
        p.query (leadingFragment S) 0 = .ok native ∧
        ((∃ found, all p s = .ok found ∧ all p s' = .ok found ∧
            found = (native.filterMap (Condition.above? p.document z.depth)).eraseDups ∧
            ∀ n ∈ native, (Condition.above? p.document z.depth n).isSome) ∨
          ((all p s = .error (.outOfRange x.name x.depth) ∨
              all p s = .error (.outOfRange y.name y.depth)) ∧
            all p s' = .error (.outOfRange z.name z.depth) ∧
            ∃ n ∈ native, Condition.above? p.document z.depth n = none))) ∧
    (¬ TakesPseudoClass S →
      ∃ cause,
        Selector.ofText (S ++ pseudosText [x.written, y.written]) =
            .error ⟨S ++ pseudosText [x.written, y.written], cause⟩ ∧
          Selector.ofText (S ++ pseudosText [z.written]) =
            .error ⟨S ++ pseudosText [z.written], cause⟩) := by
  have hescape : Extended.endsInEscape S = false := by
    rw [← Bool.not_eq_true]
    exact fun h => hlast (Extended.getLast?_of_escape h)
  refine ⟨fun htakes => ?_, fun htakes => ?_⟩
  · obtain ⟨X, hX⟩ := id htakes
    refine ⟨_, _, p.select X 0, Extended.ofText_ascents hS hescape htakes x [y],
      Extended.ofText_ascents hS hescape htakes z [], query_eq hX 0, ?_⟩
    have htwo : totalDepth [x, y] = z.depth := by
      simpa [totalDepth] using hdepth
    have hone : totalDepth [z] = z.depth := by
      simp [totalDepth]
    by_cases hall : ∀ n ∈ p.select X 0, (Condition.above? p.document z.depth n).isSome
    · have hfound := all_ascents hX (l := [x, y]) (htwo ▸ hall)
      have hfound' := all_ascents hX (l := [z]) (hone ▸ hall)
      rw [htwo] at hfound
      rw [hone] at hfound'
      exact .inl ⟨_, hfound, hfound', rfl, hall⟩
    · obtain ⟨n, hn, hnone⟩ : ∃ n ∈ p.select X 0,
          Condition.above? p.document z.depth n = none := by
        simpa using hall
      obtain ⟨u, hu, hfail⟩ := all_ascents_error hX (l := [x, y]) hn (htwo ▸ hnone)
      obtain ⟨v, hv, hfail'⟩ := all_ascents_error hX (l := [z]) hn (hone ▸ hnone)
      rw [List.mem_singleton.mp hv] at hfail'
      refine .inr ⟨?_, hfail', n, hn, hnone⟩
      rcases List.mem_cons.mp hu with rfl | hu
      · exact .inl hfail
      · rw [List.mem_singleton.mp hu] at hfail
        exact .inr hfail
  · obtain ⟨cause, hrefused⟩ := Extended.not_ofText_ascents hS hescape htakes
    exact ⟨_, hrefused x [y], hrefused z []⟩

/-- A single step. -/
def oneUp : Ascent := ⟨.nthAncestor, 1, .inl rfl, by decide⟩

/-- The same, spelled otherwise. -/
def oneUpward : Ascent := ⟨.upward, 1, .inr rfl, by decide⟩

/-- Two steps in one. -/
def twoUp : Ascent := ⟨.nthAncestor, 2, .inl rfl, by decide⟩

/-- From the innermost of three elements, two steps lead to the outermost. -/
theorem all_ascents_add_nestedElements :
    TakesPseudoClass "i".toList ∧
      ∃ s s', Selector.ofText ("i".toList ++ pseudosText [oneUp.written, oneUpward.written]) =
          .ok s ∧
        Selector.ofText ("i".toList ++ pseudosText [twoUp.written]) = .ok s' ∧
        all (.ofDocument nestedElements) s = .ok [1] ∧
        all (.ofDocument nestedElements) s' = .ok [1] := by
  have hread : Selector.ofText "i".toList = .ok ⟨[[.fragment "i".toList]]⟩ := by decide +kernel
  have htakes : TakesPseudoClass "i".toList :=
    Extended.takesPseudoClass_of_getLast? hread rfl fun c hc => by
      obtain rfl : 'i' = c := Option.some_inj.mp hc
      decide
  obtain ⟨hcompose, -⟩ := all_ascents_add hread (by decide) oneUp oneUpward twoUp rfl
    (.ofDocument nestedElements)
  obtain ⟨s, s', native, hs, hs', hnative, hboth⟩ := hcompose htakes
  have hquery : (Page.ofDocument nestedElements).query (leadingFragment "i".toList) 0 =
      .ok [3] := by decide +kernel
  obtain rfl := Except.ok.inj (hquery.symm.trans hnative)
  refine ⟨htakes, s, s', hs, hs', ?_⟩
  have habove : Condition.above? nestedElements 2 3 = some 1 := by decide +kernel
  rcases hboth with ⟨found, htwo, hone, rfl, -⟩ | ⟨-, -, n, hn, hnone⟩
  · have hfound : ([3].filterMap (Condition.above? nestedElements 2)).eraseDups = [1] := by
      rw [List.filterMap_cons_some habove]
      rfl
    exact ⟨htwo.trans (congrArg Except.ok hfound), hone.trans (congrArg Except.ok hfound)⟩
  · obtain rfl := List.mem_singleton.mp hn
    exact absurd (habove.symm.trans hnone) (by simp)

/-- **Some native texts take no pseudo-class.** The last character of the class name `w+` is no
combinator, but an asterisk is put behind it. -/
theorem not_all_ascents_add :
    ¬ ∀ (p : Page) (S f : Text) (x y z : Ascent), p.document.Built →
      Selector.ofText S = .ok ⟨[[.fragment f]]⟩ → S.getLast? ≠ some '\\' →
      x.depth + y.depth = z.depth →
      ∃ s s', Selector.ofText (S ++ pseudosText [x.written, y.written]) = .ok s ∧
        Selector.ofText (S ++ pseudosText [z.written]) = .ok s' ∧
        ((∃ found, all p s = .ok found ∧ all p s' = .ok found) ∨
          (∃ name depth, all p s = .error (.outOfRange name depth)) ∧
            ∃ name depth, all p s' = .error (.outOfRange name depth)) := by
  intro h
  have hread : Selector.ofText ".w\\+".toList = .ok ⟨[[.fragment ".w\\+".toList]]⟩ := by
    decide +kernel
  have hrefused : ¬ IsSelector (".w\\+".toList ++ pseudosText [twoUp.written]) := by
    decide +kernel
  obtain ⟨-, s', -, hs', -⟩ := h (.ofDocument nestedElements) _ _ oneUp oneUp twoUp
    built_nestedElements hread (by decide) rfl
  exact hrefused ⟨s', hs'⟩

end Query
end CosmeticFilter
