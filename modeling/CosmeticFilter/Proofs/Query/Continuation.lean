import CosmeticFilter.Proofs.Css.LastCharacter
import CosmeticFilter.Proofs.Css.Scope
import CosmeticFilter.Proofs.Document.Tree
import CosmeticFilter.Query.Continuation

/-!
# Following a fragment

What a fragment behind a pseudo-class leads to, where its selectors can be read: the elements that
meet its first compound, and then the elements that are selected relative to each of them.

* `cutsAtCompound`: the fragment is split behind its first compound;
* `keepMatching_eq`, `followAll_eq`: the two steps;
* `ofText_relativeSelector`: the selector of the second step;
* `apply_eq`: both steps.
-/

namespace CosmeticFilter
namespace Continuation

open Css (Compound IsPlain IsSingle readConditions readOn)

/-- The fragment is split where the reader of selectors ends its first compound. -/
def cutsAtCompound (w : Text) : Bool :=
  match readConditions false w with
  | .error _ => true
  | .ok (_, rest) => (splitCompound w).2 == rest

variable {p : Page}

/-! ### The elements that are kept -/

/-- An element is the nearest at or above itself exactly if it is selected. -/
theorem closest?_eq_self {t : Text} {s : Css.Selector} (ht : Css.Selector.ofText t = .ok s)
    (n : Nat) :
    ∃ found, p.closest? t n = .ok found ∧
      (found = some n ↔ s.selects p.document none n = true) := by
  refine ⟨_, by unfold Page.closest? Page.readSelector; rw [ht]; rfl, ?_⟩
  unfold Document.selfAndAncestors
  simp only [List.find?_cons]
  cases hselects : s.selects p.document none n with
  | true => simp
  | false =>
    simp only [Bool.false_eq_true, iff_false]
    intro hfound
    exact Nat.lt_irrefl n (Document.lt_of_mem_ancestors (List.mem_of_find?_eq_some hfound))

theorem keepMatching_eq {t : Text} {s : Css.Selector} (ht : Css.Selector.ofText t = .ok s)
    (ns : List Nat) :
    keepMatching p t ns = .ok (ns.filter (s.selects p.document none)) := by
  induction ns with
  | nil => rfl
  | cons n r ih =>
    obtain ⟨found, hclosest, hfound⟩ := closest?_eq_self (p := p) ht n
    rw [keepMatching, hclosest]
    simp only [ih, List.filter_cons]
    by_cases hn : found = some n
    · rw [if_pos (hfound.mp hn)]
      simp only [Except.map, if_pos hn]
    · rw [if_neg fun h => hn (hfound.mpr h)]
      simp only [Except.map, if_neg hn]

/-! ### The elements that are found from there -/

theorem follow_eq {t : Text} {s : Css.Selector}
    (ht : Css.Selector.ofText (relativeSelector t) = .ok s) (n : Nat) :
    follow p t n = .ok (p.select s n) := by
  unfold follow Page.query Page.readSelector
  rw [ht]
  rfl

theorem followAll_eq {t : Text} {s : Css.Selector}
    (ht : Css.Selector.ofText (relativeSelector t) = .ok s) (ns : List Nat) :
    followAll p t ns = .ok (ns.flatMap (p.select s)) := by
  have hmap : ns.mapM (follow p t) = .ok (ns.map (p.select s)) := by
    induction ns with
    | nil => rfl
    | cons n r ih =>
      rw [List.mapM_cons, follow_eq ht, ih]
      rfl
  unfold followAll
  rw [hmap, List.flatMap_def]
  rfl

/-! ### The two parts of a fragment -/

theorem splitCompound_append (w : Text) : (splitCompound w).1 ++ (splitCompound w).2 = w := by
  unfold splitCompound
  split
  · rename_i hcut
    exact (Nesting.cut_eq_some hcut).symm
  · exact List.append_nil w

theorem cut_splitCompound (w : Text) :
    Nesting.cut .roundAndSquare (fun c => Text.isBlank c || Css.isCombinator c) .top
      (splitCompound w).1 = none := by
  unfold splitCompound
  split
  · rename_i hcut
    exact Nesting.cut_eq_none_of_cut hcut
  · assumption

theorem after_splitCompound {w : Text} (h : Nesting.top.after .roundAndSquare w = .top) :
    Nesting.top.after .roundAndSquare (splitCompound w).1 = .top := by
  unfold splitCompound
  split
  · rename_i hcut
    exact Nesting.isTop_iff.mp (Nesting.isTop_of_cut hcut)
  · exact h

theorem isSingle_splitCompound {w : Text} (h : IsSingle w) :
    IsSingle (splitCompound w).1 ∧ IsSingle (splitCompound w).2 := by
  rw [← IsSingle.append_iff (after_splitCompound h.1), splitCompound_append]
  exact h

/-- A compound does not end in a blank, as it would have been cut there. -/
theorem not_blank_of_splitCompound {w : Text} (hw : IsPlain w)
    (h : Nesting.top.after .roundAndSquare w = .top) :
    ∀ c ∈ (splitCompound w).1.getLast?, Text.isBlank c = false := by
  have hafter := after_splitCompound h
  have hcut := cut_splitCompound w
  have hplain : IsPlain (splitCompound w).1 := fun c hc =>
    hw c (by rw [← splitCompound_append w]; exact List.mem_append_left _ hc)
  intro c hc
  rcases List.eq_nil_or_concat (splitCompound w).1 with hnil | ⟨x, d, hconcat⟩
  · rw [hnil] at hc
    exact absurd hc (by simp)
  · rw [List.concat_eq_append] at hconcat
    rw [hconcat] at hc hafter hcut hplain
    rw [List.getLast?_concat] at hc
    obtain rfl := Option.some_inj.mp hc
    by_contra hblank
    have hblank : Text.isBlank d = true := Bool.not_eq_false _ ▸ hblank
    have hx := Nesting.settled_top.after (b := .roundAndSquare)
      (Css.endsInEscape_of_plain fun e he => hplain e (List.mem_append_left _ he))
    rw [Nesting.after_append, Nesting.after_cons, Nesting.after_nil,
      hx.step_of_blank hblank] at hafter
    cases hcutx : Nesting.cut .roundAndSquare (fun c => Text.isBlank c || Css.isCombinator c) .top
        x with
    | some parts =>
      obtain ⟨y, e, z⟩ := parts
      rw [Nesting.cut_append_of_some hcutx] at hcut
      exact absurd hcut (by simp)
    | none =>
      rw [Nesting.cut_append_of_none hcutx, hafter, Nesting.cut, if_pos] at hcut
      · exact absurd hcut (by simp)
      · rw [Nesting.cutsAt, Nesting.not_isDelimiter_of_isBlank hblank, hblank]
        rfl

/-! ### The selectors of a fragment -/

/-- A further condition of a compound. -/
def isCondition (c : Char) : Bool := c == '.' || c == '#' || c == '[' || c == ':'

theorem not_blank_of_isCondition {c : Char} (hc : isCondition c = true) :
    (Text.isBlank c || Css.isCombinator c) = false := by
  unfold isCondition at hc
  simp only [Bool.or_eq_true, beq_iff_eq] at hc
  rcases hc with ((rfl | rfl) | rfl) | rfl <;> decide

/-- The further conditions of a compound may be the first ones of another. -/
theorem readConditions_first {c : Char} (hc : isCondition c = true) {r rest : Text}
    {more : Compound} (h : readConditions false (c :: r) = .ok (more, rest)) :
    readConditions true (c :: r) = .ok (more, rest) := by
  have hsimple : Css.readSimple true (c :: r) = Css.readSimple false (c :: r) := by
    unfold isCondition at hc
    simp only [Bool.or_eq_true, beq_iff_eq] at hc
    rcases hc with ((rfl | rfl) | rfl) | rfl <;> rfl
  rcases Css.readConditions_eq_ok h with ⟨hnone, rfl, rfl⟩ | ⟨y, mid, conditions, hsome, hmore, rfl⟩
  · exact Css.readConditions_of_none (hsimple.trans hnone)
  · rw [Css.readConditions_of_some (hsimple.trans hsome), hmore]
    rfl

theorem ne_nil_of_readConditions {c : Char} (hc : isCondition c = true) {r rest : Text}
    {more : Compound} (h : readConditions false (c :: r) = .ok (more, rest)) : more ≠ [] := by
  rcases Css.readConditions_eq_ok h with ⟨hnone, -, -⟩ | ⟨y, mid, conditions, -, -, rfl⟩
  · have hnone := Css.readSimple_none_cons hnone []
    unfold isCondition at hc
    simp only [Bool.or_eq_true, beq_iff_eq] at hc
    rcases hc with ((rfl | rfl) | rfl) | rfl <;> exact absurd hnone (by decide +kernel)
  · exact List.cons_ne_nil _ _

variable {w rest : Text} {more : Compound}

/-- The first compound of a fragment, read by itself. -/
theorem readConditions_splitCompound (hw : IsPlain w)
    (hread : readConditions false w = .ok (more, rest)) (hcut : (splitCompound w).2 = rest) :
    readConditions false (splitCompound w).1 = .ok (more, []) := by
  have happend := splitCompound_append w
  have hplain : IsPlain (splitCompound w).1 := fun c hc =>
    hw c (by rw [← splitCompound_append w]; exact List.mem_append_left _ hc)
  rw [← happend, hcut] at hread
  obtain ⟨r', -, hrest, hexchange⟩ :=
    Css.readConditions_exchange (.inl hplain) Css.detached_nil hread (Nat.le_refl _)
  have hnil : r' = [] := List.self_eq_append_left.mp hrest
  have hempty : readConditions false [] = .ok ([], []) := Css.readConditions_of_none rfl
  rw [if_pos hnil, List.append_nil, Bool.false_and, hempty] at hexchange
  rw [hexchange]
  simp [Except.map]

theorem splitCompound_ne_nil (hhead : ∃ c ∈ w.head?, isCondition c = true) :
    (splitCompound w).1 ≠ [] := by
  obtain ⟨c, hc, hcondition⟩ := hhead
  intro hnil
  unfold splitCompound at hnil
  split at hnil
  · rename_i compound d r hcut
    have hcompound : compound = [] := hnil
    have hsplit := Nesting.cut_eq_some hcut
    rw [hcompound, List.nil_append] at hsplit
    rw [hsplit] at hc
    obtain rfl := Option.some_inj.mp hc
    have hprop := Nesting.prop_of_cut hcut
    rw [not_blank_of_isCondition hcondition] at hprop
    exact absurd hprop Bool.false_ne_true
  · have hwnil : w = [] := hnil
    rw [hwnil] at hc
    exact absurd hc (by simp)

/-- The selector that filters. -/
theorem ofText_splitCompound (hw : IsPlain w) (hsingle : IsSingle w)
    (hhead : ∃ c ∈ w.head?, isCondition c = true)
    (hread : readConditions false w = .ok (more, rest)) (hcut : (splitCompound w).2 = rest) :
    Css.Selector.ofText (splitCompound w).1 = .ok ⟨[⟨more, []⟩]⟩ := by
  have hne := splitCompound_ne_nil hhead
  have hread' := readConditions_splitCompound hw hread hcut
  have hlast := not_blank_of_splitCompound hw hsingle.1
  have hplain : IsPlain (splitCompound w).1 := fun c hc =>
    hw c (by rw [← splitCompound_append w]; exact List.mem_append_left _ hc)
  have hfirst : (splitCompound w).1.head? = w.head? := by
    conv_rhs => rw [← splitCompound_append w]
    rw [List.head?_append_of_ne_nil _ hne]
  refine (Css.ofText_eq_single_iff hplain).mpr ⟨(isSingle_splitCompound hsingle).1, ?_⟩
  generalize (splitCompound w).1 = t at *
  obtain ⟨c, hc, hcondition⟩ := hhead
  rw [← hfirst] at hc
  have hnot := not_blank_of_isCondition hcondition
  rw [Bool.or_eq_false_iff] at hnot
  have htrim : Text.trim t = t := by
    refine Text.trim_eq_self (fun d hd => ?_) hlast
    rw [hc] at hd
    rw [← Option.some_inj.mp hd]
    exact hnot.1
  have hcombinator : ∀ d ∈ t.head?, Css.isCombinator d = false := by
    intro d hd
    rw [hc] at hd
    rw [← Option.some_inj.mp hd]
    exact hnot.2
  have hmore : more ≠ [] := by
    rcases Css.readConditions_eq_ok hread' with ⟨-, -, hnil⟩ | ⟨y, mid, conditions, -, -, rfl⟩
    · exact absurd hnil.symm hne
    · exact List.cons_ne_nil _ _
  obtain ⟨d, r, rfl⟩ := List.exists_cons_of_ne_nil hne
  obtain rfl := Option.some_inj.mp hc
  rw [htrim, Css.ofText_eq_readChain hne htrim hcombinator, Css.readChain_eq,
    Css.readCompound_eq_ok.mpr ⟨readConditions_first hcondition hread', hmore⟩]
  rfl

theorem head?_splitCompound_snd (w : Text) :
    ∀ c ∈ (splitCompound w).2.head?, (Text.isBlank c || Css.isCombinator c) = true := by
  intro c hc
  unfold splitCompound at hc
  split at hc
  · rename_i hcut
    rw [← Option.some_inj.mp hc]
    exact Nesting.prop_of_cut hcut
  · exact absurd hc (by simp)

/-- Behind a compound, blanks in front of another compound may be changed. -/
theorem readOn_blank {left : List (Css.Combinator × Compound)} {compound : Compound} {c : Char}
    {r t : Text} (hc : Css.isCombinator c = false) (hstart : Text.trimStart t = c :: r)
    (hhead : t.head? ≠ some c) : readOn left compound (' ' :: c :: r) = readOn left compound t := by
  have hblank := Text.not_blank_of_trimStart hstart
  have hstart' : Text.trimStart (' ' :: c :: r) = c :: r := by
    rw [Text.trimStart_cons_of_blank (by decide), Text.trimStart_cons_of_not_blank hblank]
  have hhead' : (' ' :: c :: r).head? ≠ some c := by
    intro heq
    rw [← Option.some_inj.mp heq] at hblank
    exact absurd hblank (by decide)
  rw [Css.readOn_descendant hc hstart hhead, Css.readOn_descendant hc hstart' hhead']

/-- The selector that is searched for relative to an element. -/
theorem ofText_relativeSelector {t : Text} {y : Css.Complex} (ht : IsPlain t) (hsingle : IsSingle t)
    (hlast : ∀ c ∈ t.getLast?, Text.isBlank c = false)
    (hhead : ∀ c ∈ t.head?, (Text.isBlank c || Css.isCombinator c) = true)
    (hne : Text.trimStart t ≠ []) (h : readOn [] [.pseudo .scope] t = .ok y) :
    Css.Selector.ofText (relativeSelector t) = .ok ⟨[y]⟩ := by
  obtain ⟨c, r, hstart⟩ := List.exists_cons_of_ne_nil hne
  have hsuffix : Text.trimStart t <:+ t := List.dropWhile_suffix _
  have htrim : Text.trim t = c :: r := (Text.trim_eq_trimStart hlast).trans hstart
  have hplain : IsPlain (Text.trim t) := by
    rw [htrim, ← hstart]
    exact ht.suffix hsuffix
  have hsingle' := (Css.isSingle_trim_iff ht).mpr hsingle
  by_cases hc : Css.isCombinator c = true
  · have hrelative : relativeSelector t = Text.trim t := by
      unfold relativeSelector
      rw [if_pos]
      rw [htrim]
      exact hc
    rw [hrelative]
    refine (Css.ofText_eq_single_iff hplain).mpr ⟨hsingle', ?_⟩
    rw [Text.trim_trim]
    exact Css.ofText_combinator hlast hstart hc h
  · have hc : Css.isCombinator c = false := Bool.not_eq_true _ ▸ hc
    have hrelative : relativeSelector t = ":scope ".toList ++ Text.trim t := by
      unfold relativeSelector
      rw [if_neg]
      rw [htrim]
      simpa using hc
    have hscope : IsSingle ":scope ".toList := by
      unfold IsSingle
      decide
    have hfirst : t.head? ≠ some c := by
      intro heq
      have hor := hhead c heq
      rw [Text.not_blank_of_trimStart hstart, hc] at hor
      exact absurd hor Bool.false_ne_true
    rw [hrelative]
    refine (Css.ofText_eq_single_iff ?_).mpr ⟨(IsSingle.append_iff hscope.1 _).mpr
      ⟨hscope, hsingle'⟩, ?_⟩
    · intro d hd
      rcases List.mem_append.mp hd with hd | hd
      · revert hd
        rintro hd rfl
        exact absurd hd (by decide)
      · exact hplain d hd
    · have hlast' : ∀ d ∈ (":scope ".toList ++ Text.trim t).getLast?, Text.isBlank d = false := by
        intro d hd
        rw [List.getLast?_append_of_ne_nil _ (by rw [htrim]; exact List.cons_ne_nil _ _)] at hd
        exact Text.not_blank_of_getLast?_trim hd
      have hself : Text.trim (":scope ".toList ++ Text.trim t) = ":scope ".toList ++ Text.trim t :=
        Text.trim_eq_self (fun d hd => by rw [← Option.some_inj.mp hd]; decide) hlast'
      have hne' : ":scope ".toList ++ Text.trim t ≠ [] :=
        List.append_ne_nil_of_left_ne_nil (by decide) _
      rw [hself, Css.ofText_eq_readChain hne' hself
        (fun d hd => by rw [← Option.some_inj.mp hd]; decide), Css.readChain_scope, htrim,
        readOn_blank hc hstart hfirst]
      exact h

/-! ### Where a fragment leads -/

/-- A fragment goes on behind a compound: with a further condition, a blank or a combinator. -/
def GoesOn (w : Text) : Prop :=
  ∀ c ∈ w.head?, isCondition c = true ∨ (Text.isBlank c || Css.isCombinator c) = true

theorem readConditions_of_isRelative (h : isRelative w = true) :
    readConditions false w = .ok ([], w) := by
  unfold isRelative at h
  cases w with
  | nil => exact absurd h (by simp)
  | cons c r =>
    have hc : (Text.isBlank c || Css.isCombinator c) = true := h
    have hne : ∀ d : Char, (Text.isBlank d || Css.isCombinator d) = false → c ≠ d := by
      rintro d hd rfl
      rw [hc] at hd
      exact absurd hd (by simp)
    refine Css.readConditions_of_none ?_
    rw [Css.readSimple, if_neg fun h => hne '*' (by decide) h.1, if_neg (hne '.' (by decide)),
      if_neg (hne '#' (by decide)), if_neg (hne '[' (by decide)), if_neg (hne ':' (by decide)),
      if_neg fun h => Bool.false_ne_true h.1, if_pos hc]

theorem GoesOn.exists_isCondition (h : GoesOn w) (hne : w ≠ []) (hrelative : isRelative w = false) :
    ∃ c ∈ w.head?, isCondition c = true := by
  obtain ⟨c, r, rfl⟩ := List.exists_cons_of_ne_nil hne
  refine ⟨c, rfl, (h c rfl).resolve_right ?_⟩
  have hc : (Text.isBlank c || Css.isCombinator c) = false := hrelative
  rw [hc]
  exact Bool.false_ne_true

/-- What is read of a fragment that goes on behind a compound: further conditions of it, and then
the rest, which is a selector relative to what meets them. -/
structure Reads (w : Text) (more : Compound) (rest : Text) (next : Css.Complex) : Prop where
  plain : IsPlain w
  single : IsSingle w
  not_blank : ∀ c ∈ w.getLast?, Text.isBlank c = false
  goesOn : GoesOn w
  conditions : readConditions false w = .ok (more, rest)
  next : rest ≠ [] → readOn [] [.pseudo .scope] rest = .ok next

variable {next : Css.Complex}

theorem Reads.trimStart_ne_nil (h : Reads w more rest next) (hne : rest ≠ []) :
    Text.trimStart rest ≠ [] := by
  intro hnil
  refine hne (Css.eq_nil_of_trimStart ?_ hnil)
  rw [← Css.getLast?_of_suffix ((Css.isRest_of_readConditions h.conditions).suffix) hne]
  exact h.not_blank

/-- A fragment that is searched for relative to an element can be read by itself. -/
theorem Reads.exists_ofText_of_isRelative (h : Reads w more rest next) (hne : w ≠ [])
    (hrelative : isRelative w = true) : ∃ s, Css.Complex.ofText (Text.trim w) = .ok s := by
  have hread := h.conditions
  rw [readConditions_of_isRelative hrelative] at hread
  obtain ⟨rfl, rfl⟩ := Prod.mk.inj (Except.ok.inj hread)
  obtain ⟨c, r, hstart⟩ := List.exists_cons_of_ne_nil (h.trimStart_ne_nil hne)
  by_cases hc : Css.isCombinator c = true
  · exact ⟨next, Css.ofText_combinator h.not_blank hstart hc (h.next hne)⟩
  · have hc : Css.isCombinator c = false := Bool.not_eq_true _ ▸ hc
    have hblank := Text.not_blank_of_trimStart hstart
    have hfirst : w.head? ≠ some c := by
      intro heq
      unfold isRelative at hrelative
      rw [heq, Option.any_some, hblank, hc] at hrelative
      exact absurd hrelative Bool.false_ne_true
    have htrim : Text.trim w = c :: r := (Text.trim_eq_trimStart h.not_blank).trans hstart
    have hself : Text.trim (c :: r) = c :: r := by rw [← htrim, Text.trim_trim]
    have hnext := h.next hne
    rw [Css.readOn_descendant hc hstart hfirst,
      ← List.nil_append [(Css.Combinator.descendant, [Css.Simple.pseudo .scope])],
      Css.readChain_left] at hnext
    obtain ⟨s, hs, -⟩ := Outcome.map_eq_ok.mp hnext
    refine ⟨s, ?_⟩
    rw [htrim, Css.ofText_eq_readChain (List.cons_ne_nil c r) hself
      fun d hd => by rw [← Option.some_inj.mp hd]; exact hc]
    exact hs

/-- A fragment that starts with conditions can be read by itself. -/
theorem Reads.exists_ofText_of_isCondition (h : Reads w more rest next)
    (hhead : ∃ c ∈ w.head?, isCondition c = true) :
    ∃ s, Css.Complex.ofText (Text.trim w) = .ok s := by
  obtain ⟨c, hc, hcondition⟩ := hhead
  obtain ⟨r, rfl⟩ : ∃ r, w = c :: r := by
    cases w with
    | nil => exact absurd hc (by simp)
    | cons d r => exact ⟨r, by rw [Option.some_inj.mp hc]⟩
  have hnot := not_blank_of_isCondition hcondition
  rw [Bool.or_eq_false_iff] at hnot
  have htrim : Text.trim (c :: r) = c :: r :=
    Text.trim_eq_self (fun d hd => by rw [← Option.some_inj.mp hd]; exact hnot.1) h.not_blank
  have hread := readConditions_first hcondition h.conditions
  rw [htrim, Css.ofText_eq_readChain (List.cons_ne_nil c r) htrim
    (fun d hd => by rw [← Option.some_inj.mp hd]; exact hnot.2), Css.readChain_eq,
    Css.readCompound_eq_ok.mpr ⟨hread, ne_nil_of_readConditions hcondition h.conditions⟩]
  show ∃ s, readOn [] more rest = .ok s
  by_cases hnil : rest = []
  · rw [hnil]
    exact ⟨_, rfl⟩
  · obtain ⟨k, s, -, -, hon⟩ := Css.readOn_eq_ok (h.next hnil) (h.trimStart_ne_nil hnil)
    exact ⟨_, hon [] more⟩

/-- A fragment can be read by itself. -/
theorem Reads.exists_ofText (h : Reads w more rest next) (hne : w ≠ []) :
    ∃ s, Css.Selector.ofText (Text.trim w) = .ok s := by
  have hread : ∃ s, Css.Complex.ofText (Text.trim w) = .ok s := by
    cases hrelative : isRelative w with
    | true => exact h.exists_ofText_of_isRelative hne hrelative
    | false => exact h.exists_ofText_of_isCondition (h.goesOn.exists_isCondition hne hrelative)
  obtain ⟨s, hs⟩ := hread
  rw [Css.ofText_of_isSingle ((Css.isSingle_trim_iff h.plain).mpr h.single), Text.trim_trim, hs]
  exact ⟨_, rfl⟩

/-- The elements that a fragment leads to: first those that meet its conditions, and then what is
found from each of them. -/
theorem Reads.mem_apply (h : Reads w more rest next) (hne : w ≠ [])
    (hcut : (splitCompound w).2 = rest) {ns : List Nat}
    (hns : ∀ n ∈ ns, p.document.isElement n = true) :
    ∃ found, apply p w ns = .ok found ∧ ∀ m, m ∈ found ↔
      ∃ n ∈ ns, Compound.holdsAt p.document none more n = true ∧
        if rest = [] then m = n else m ∈ p.select ⟨[next]⟩ n := by
  have hselector : rest ≠ [] → Css.Selector.ofText (relativeSelector rest) = .ok ⟨[next]⟩ := by
    intro hrest
    have hsuffix := (Css.isRest_of_readConditions h.conditions).suffix
    have hsingle := (isSingle_splitCompound h.single).2
    have hhead := head?_splitCompound_snd w
    rw [hcut] at hsingle hhead
    refine ofText_relativeSelector (h.plain.suffix hsuffix) hsingle ?_ hhead
      (h.trimStart_ne_nil hrest) (h.next hrest)
    rw [← Css.getLast?_of_suffix hsuffix hrest]
    exact h.not_blank
  unfold apply
  cases hrelative : isRelative w with
  | true =>
    have hread := h.conditions
    rw [readConditions_of_isRelative hrelative] at hread
    obtain ⟨rfl, rfl⟩ := Prod.mk.inj (Except.ok.inj hread)
    refine ⟨_, followAll_eq (hselector hne) ns, fun m => ?_⟩
    simp only [List.mem_flatMap, Compound.holdsAt, List.all_nil, true_and, if_neg hne]
  | false =>
    have hfilter := keepMatching_eq (p := p) (ofText_splitCompound h.plain h.single
      (h.goesOn.exists_isCondition hne hrelative) h.conditions hcut) ns
    have hkept : ns.filter (Css.Selector.selects p.document none ⟨[⟨more, []⟩]⟩) =
        ns.filter (Compound.holdsAt p.document none more) := by
      refine List.filter_congr fun n hn => ?_
      simp [Css.Selector.selects, Css.Complex.selects, hns n hn, Css.chainHolds]
    rw [hkept] at hfilter
    simp only [Bool.false_eq_true, if_false, hfilter, hcut]
    by_cases hrest : rest = []
    · subst hrest
      refine ⟨_, rfl, fun m => ?_⟩
      simp only [List.mem_filter, if_true]
      constructor
      · rintro ⟨hm, hholds⟩
        exact ⟨m, hm, hholds, rfl⟩
      · rintro ⟨n, hn, hholds, rfl⟩
        exact ⟨hn, hholds⟩
    · have hblank : Text.isAllBlank rest = false := by
        rw [← Bool.not_eq_true]
        intro hall
        exact h.trimStart_ne_nil hrest (Text.trimStart_eq_nil_iff.mpr (List.all_eq_true.mp hall))
      simp only [hblank, Bool.false_eq_true, if_false, if_neg hrest]
      refine ⟨_, followAll_eq (hselector hrest) _, fun m => ?_⟩
      simp only [List.mem_flatMap, List.mem_filter, and_assoc]

end Continuation
end CosmeticFilter
