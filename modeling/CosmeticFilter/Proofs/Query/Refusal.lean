import CosmeticFilter.Proofs.Document.Built
import CosmeticFilter.Proofs.Extended.Growth
import CosmeticFilter.Proofs.Query.Continuation
import CosmeticFilter.Query.Evaluation

/-!
# What a page may refuse

The fragments of a selector are read when the selector is, so a page should never refuse one. It is
handed parts of them, though: a fragment behind a pseudo-class is cut behind its first compound.
Where that is done as the reader of selectors would do it, both parts are selectors again, and what
goes wrong in an evaluation depends on the document.

* `MatchError.isOfDocument`: the errors that depend on the document;
* `cutsFirstCompound`: the fragment is cut where the reader of selectors ends its first compound;
* `exists_ofText_splitCompound`, `exists_ofText_relativeSelector`: both parts are selectors;
* `Safe`: a result that is no other error; it is kept by all steps of an evaluation;
* `isOfDocument_of_all`: a selector that has been read is not refused.
-/

namespace CosmeticFilter

/-- The error depends on the document, or it is an expression's own. -/
def MatchError.isOfDocument : MatchError → Bool
  | outOfRange _ _ => true
  | rejected (.invalidXPath _ _) => true
  | rejected (.invalidSelector _ _) => false

namespace Continuation

open Css (Compound IsOpenList parts readCompound readOn)

/-- The first selector of a list, without blanks around it. -/
def firstAlternative (t : Text) : Text := Text.trim ((parts t).headD [])

/-- The fragment is cut, if it is, where the reader of selectors ends its first compound. -/
def cutsFirstCompound (w : Text) : Bool :=
  isRelative w || Text.isAllBlank (splitCompound w).2 ||
    match readCompound (firstAlternative w) with
    | .error _ => true
    | .ok (_, rest) =>
      Text.trim (splitCompound w).1 == (splitCompound w).1 &&
        (splitCompound w).1 ++ rest == firstAlternative w

/-! ### Parts of a fragment -/

/-- What leads on from an element is a selector if it is one with or without its first part. -/
theorem exists_ofText_relativeSelector {t : Text} (h : IsOpenList t) :
    ∃ s, Css.Selector.ofText (relativeSelector t) = .ok s := by
  have hstart := h.trimStart
  cases heq : Text.trimStart t with
  | nil =>
    have hnil : Text.trim t = [] := by rw [Text.trim, heq, Text.trimEnd_nil]
    refine ⟨⟨[⟨[.pseudo .scope], []⟩]⟩, ?_⟩
    unfold relativeSelector
    rw [hnil]
    decide +kernel
  | cons c r =>
    have hblank := Text.not_blank_of_trimStart heq
    rw [heq] at hstart
    have hend : Text.trimEnd (c :: r) ≠ [] := by
      intro hnil
      have hc := Text.trimEnd_eq_nil_iff.mp hnil c (List.mem_cons_self ..)
      rw [hblank] at hc
      exact absurd hc (by simp)
    have htrim : Text.trim t = Text.trimEnd (c :: r) := by rw [Text.trim, heq]
    have hhead : (Text.trim t).head? = some c := by
      rw [htrim, Text.head?_trimEnd hend]
      rfl
    unfold relativeSelector
    simp only
    rw [hhead, Option.any_some]
    by_cases hc : Css.isCombinator c = true
    · -- the first part starts with the combinator, so it is there
      rw [if_pos hc, Css.ofText_trim, ← Css.ofText_trim, htrim, ← Text.trimStart_cons_of_not_blank
        hblank r]
      show ∃ s, Css.Selector.ofText (Text.trim (c :: r)) = .ok s
      rw [Css.ofText_trim]
      obtain ⟨hclosed, hfirst, hothers⟩ := hstart
      obtain ⟨x, xs, hx⟩ := List.exists_cons_of_ne_nil
        (Nesting.split_ne_nil .roundAndSquare (· == ',') .top (c :: r))
      unfold parts at hfirst hothers
      rw [hx] at hfirst hothers
      have hcomma : Nesting.cutsAt .roundAndSquare (· == ',') .top c = false := by
        have hne : (c == ',') = false := by
          rw [beq_eq_false_iff_ne]
          rintro rfl
          exact absurd hc (by decide)
        rw [Nesting.cutsAt, hne, Bool.and_false]
      obtain ⟨u, rfl⟩ : ∃ u, x = c :: u := by
        rw [Nesting.split, if_neg (by rw [hcomma]; exact Bool.false_ne_true)] at hx
        split at hx
        · exact ⟨[], (List.cons.inj hx).1.symm⟩
        · exact ⟨_, (List.cons.inj hx).1.symm⟩
      refine Css.exists_ofText_iff.mpr ⟨hclosed, fun part hpart => ?_⟩
      unfold parts at hpart
      rw [hx] at hpart
      rcases List.mem_cons.mp hpart with rfl | hpart
      · refine (hfirst _ rfl).resolve_left fun hnil => ?_
        have := Text.trim_eq_nil_iff.mp hnil c (List.mem_cons_self ..)
        rw [hblank] at this
        exact absurd this (by simp)
      · exact hothers part hpart
    · rw [if_neg hc]
      have hscope := Css.exists_ofText_scope (t := c :: r) (fun d hd => by
        rw [← Option.some_inj.mp hd]
        exact ⟨hblank, Bool.not_eq_true _ ▸ hc⟩) hstart
      rw [← Css.ofText_trim, Text.trim, Text.trimStart_eq_self
        (fun d hd => by rw [← Option.some_inj.mp hd]; decide), Text.trimEnd_append hend,
        ← htrim] at hscope
      exact hscope

variable {w : Text}

/-- What follows a compound is a selector by itself, relative to the compound. -/
theorem exists_complex_of_readOn {compound : Compound} {x : Text} {s : Css.Complex}
    (hhead : ∀ c ∈ x.head?, (Text.isBlank c || Css.isCombinator c) = true)
    (hne : Text.trim x ≠ []) (h : readOn [] compound (Text.trimEnd x) = .ok s) :
    ∃ y, Css.Complex.ofText x = .ok y := by
  have hend : Text.trimEnd x ≠ [] := by
    intro hnil
    exact hne (Text.trim_eq_nil_iff.mpr (Text.trimEnd_eq_nil_iff.mp hnil))
  have hlast : ∀ c ∈ (Text.trimEnd x).getLast?, Text.isBlank c = false :=
    fun c hc => Text.not_blank_of_getLast?_trimEnd hc
  have htrim : Text.trim x = Text.trimStart (Text.trimEnd x) := by
    rw [← Text.trim_trimEnd, Text.trim_eq_trimStart hlast]
  obtain ⟨c, r, hstart⟩ := List.exists_cons_of_ne_nil (htrim ▸ hne)
  obtain ⟨k, s', -, -, hall⟩ := Css.readOn_eq_ok h (by rw [hstart]; exact List.cons_ne_nil _ _)
  rw [← Css.complex_ofText_trim, htrim, hstart]
  by_cases hc : Css.isCombinator c = true
  · have hread := Css.ofText_combinator hlast hstart hc (hall [] [.pseudo .scope])
    rw [Text.trim_eq_trimStart hlast, hstart] at hread
    exact ⟨_, hread⟩
  · have hc : Css.isCombinator c = false := Bool.not_eq_true _ ▸ hc
    have hfirst : (Text.trimEnd x).head? ≠ some c := by
      rw [Text.head?_trimEnd hend]
      intro heq
      have hor := hhead c heq
      rw [Text.not_blank_of_trimStart hstart, hc] at hor
      exact absurd hor Bool.false_ne_true
    have hread := hall [] compound
    rw [Css.readOn_descendant hc hstart hfirst, ← List.nil_append [_], Css.readChain_left] at hread
    obtain ⟨y, hy, -⟩ := Outcome.map_eq_ok.mp hread
    refine ⟨y, (Css.ofText_eq_readChain (List.cons_ne_nil _ _) ?_ fun d hd => ?_).trans hy⟩
    · rw [← hstart, ← htrim, Text.trim_trim]
    · rw [← Option.some_inj.mp hd]
      exact hc

/-- Both parts of a fragment that is cut behind its first compound are selectors. -/
theorem exists_ofText_splitCompound (hw : ∃ s, Css.Selector.ofText w = .ok s)
    (hrelative : isRelative w = false) (hcut : cutsFirstCompound w = true) :
    (∃ s, Css.Selector.ofText (splitCompound w).1 = .ok s) ∧
      (Text.isAllBlank (splitCompound w).2 = false → IsOpenList (splitCompound w).2) := by
  have happend := splitCompound_append w
  have hhead := head?_splitCompound_snd w
  by_cases hblank : Text.isAllBlank (splitCompound w).2 = true
  · -- nothing but blanks is cut off
    refine ⟨?_, fun hnot => absurd hblank (by rw [hnot]; exact Bool.false_ne_true)⟩
    have htrim := Text.trim_append_of_blank (List.all_eq_true.mp hblank) (splitCompound w).1
    rw [happend] at htrim
    rw [← Css.ofText_trim, htrim, Css.ofText_trim] at hw
    exact hw
  have hblank : Text.isAllBlank (splitCompound w).2 = false := Bool.not_eq_true _ ▸ hblank
  have htop : Nesting.top.after .roundAndSquare (splitCompound w).1 = .top := by
    unfold splitCompound
    split
    · rename_i hparts
      exact Nesting.isTop_iff.mp (Nesting.isTop_of_cut hparts)
    · rename_i hnone
      unfold splitCompound at hblank
      rw [hnone] at hblank
      exact absurd hblank (by simp [Text.isAllBlank])
  obtain ⟨hclosed, hparts⟩ := Css.exists_ofText_iff.mp hw
  have hnot : ∀ c ∈ w.head?, Text.isBlank c = false ∧ Css.isCombinator c = false := by
    intro c hc
    unfold isRelative at hrelative
    rw [hc, Option.any_some, Bool.or_eq_false_iff] at hrelative
    exact hrelative
  unfold cutsFirstCompound firstAlternative at hcut
  rw [hrelative, hblank, Bool.false_or, Bool.false_or] at hcut
  obtain ⟨p₁, ps, hp₁⟩ := List.exists_cons_of_ne_nil
    (Nesting.split_ne_nil .roundAndSquare (· == ',') .top w)
  unfold parts at hparts hcut
  rw [hp₁] at hparts hcut
  rw [List.headD_cons] at hcut
  obtain ⟨s, hs⟩ := hparts p₁ (List.mem_cons_self ..)
  -- the first alternative starts like the fragment, and is read as a chain of compounds
  have hne₁ : Text.trim p₁ ≠ [] := by
    intro hnil
    unfold Css.Complex.ofText at hs
    rw [hnil] at hs
    exact absurd hs (by simp)
  have hp₁ne : p₁ ≠ [] := by
    rintro rfl
    exact hne₁ rfl
  have hhead₁ : ∀ c ∈ (Text.trim p₁).head?, Css.isCombinator c = false := by
    have hstart : Text.trimStart p₁ = p₁ := Text.trimStart_eq_self fun c hc =>
      (hnot c (by rw [← Nesting.head?_of_split hp₁ hp₁ne]; exact hc)).1
    rw [Text.trim, hstart, Text.head?_trimEnd (by rw [← hstart]; exact hne₁),
      Nesting.head?_of_split hp₁ hp₁ne]
    exact fun c hc => (hnot c hc).2
  rw [← Css.complex_ofText_trim, Css.ofText_eq_readChain hne₁ (Text.trim_trim _) hhead₁,
    Css.readChain_eq] at hs
  obtain ⟨⟨compound, rest⟩, hcompound, hon⟩ := Outcome.bind_eq_ok.mp hs
  rw [hcompound] at hcut
  simp only [Bool.and_eq_true, beq_iff_eq] at hcut
  obtain ⟨htrim, hwhole⟩ := hcut
  generalize hy : (splitCompound w).1 = y at *
  generalize hz : (splitCompound w).2 = z at *
  obtain ⟨hconditions, hne⟩ := Css.readCompound_eq_ok.mp hcompound
  rw [← hwhole] at hconditions hhead₁
  -- the first part is read as the compound by itself
  obtain ⟨r', -, hr', hexchange⟩ := Css.readConditions_exchange (Css.apart_nil y rest)
    Css.detached_nil hconditions (Nat.le_refl _)
  have hnil : r' = [] := List.self_eq_append_left.mp hr'
  have hempty : Css.readConditions (true && y.isEmpty) [] = .ok ([], []) :=
    Css.readConditions_of_none rfl
  rw [if_pos hnil, List.append_nil, hempty] at hexchange
  have hyread : Css.readConditions true y = .ok (compound, []) := by
    rw [hexchange]
    simp [Except.map]
  have hyne : y ≠ [] := by
    rintro rfl
    rcases Css.readConditions_eq_ok hyread with ⟨-, hnil, -⟩ | ⟨_, _, _, hsome, -, -⟩
    · exact hne hnil
    · exact absurd hsome (by simp [Css.readSimple])
  have hyhead : ∀ c ∈ y.head?, Css.isCombinator c = false := by
    intro c hc
    refine hhead₁ c ?_
    rw [List.head?_append_of_ne_nil _ hyne]
    exact hc
  have hycomplex : Css.Complex.ofText y = .ok ⟨compound, []⟩ := by
    rw [Css.ofText_eq_readChain hyne htrim hyhead, Css.readChain_eq,
      Css.readCompound_eq_ok.mpr ⟨hyread, hne⟩]
    rfl
  -- and it has no comma, as the first alternative is not shorter
  have hsingle : Nesting.cut .roundAndSquare (· == ',') .top y = none := by
    cases hcomma : Nesting.cut .roundAndSquare (· == ',') .top y with
    | none => rfl
    | some found =>
      obtain ⟨a, d, b⟩ := found
      have hwcut := Nesting.cut_append_of_some hcomma z
      rw [happend] at hwcut
      obtain ⟨xs, hxs⟩ := Nesting.split_of_cut hwcut
      obtain ⟨rfl, -⟩ := List.cons.inj (hp₁.symm.trans hxs)
      have hlong := congrArg List.length hwhole
      have hshort := congrArg List.length (Nesting.cut_eq_some hcomma)
      have hle := Text.length_trim_le p₁
      rw [List.length_append] at hlong
      rw [List.length_append, List.length_cons] at hshort
      omega
  have hyparts := Css.split_eq_of_cut hsingle
  obtain ⟨x, xs, hx, hboth⟩ := Nesting.split_append_of_none hyparts z
  rw [htop] at hx
  rw [happend, hp₁] at hboth
  obtain ⟨rfl, rfl⟩ := List.cons.inj hboth
  refine ⟨Css.exists_ofText_iff.mpr ⟨by rw [htop]; exact Nesting.isClosed_top, ?_⟩, fun _ => ?_⟩
  · unfold parts
    rw [hyparts]
    intro part hpart
    rw [List.mem_singleton.mp hpart]
    exact ⟨_, hycomplex⟩
  · refine ⟨?_, ?_, ?_⟩
    · rw [← happend, Nesting.after_append, htop] at hclosed
      exact hclosed
    · unfold parts
      rw [hx]
      intro part hpart
      obtain rfl := Option.some_inj.mp hpart
      by_cases hxnil : Text.trim x = []
      · exact Or.inl hxnil
      · -- what the compound leaves unread is what follows the cut
        have hxne : x ≠ [] := by
          rintro rfl
          exact hxnil rfl
        have hend : Text.trimEnd x ≠ [] := fun hnil =>
          hxnil (Text.trim_eq_nil_iff.mpr (Text.trimEnd_eq_nil_iff.mp hnil))
        have hrest : rest = Text.trimEnd x := by
          have hstart : Text.trimStart (y ++ x) = y ++ x := by
            refine Text.trimStart_eq_self fun c hc => (hnot c ?_).1
            rw [← Nesting.head?_of_split hp₁ hp₁ne]
            exact hc
          rw [Text.trim, hstart, Text.trimEnd_append hend] at hwhole
          exact List.append_cancel_left hwhole
        rw [hrest] at hon
        refine Or.inr (exists_complex_of_readOn (fun c hc => hhead c ?_) hxnil hon)
        rw [← Nesting.head?_of_split hx hxne]
        exact hc
    · unfold parts
      rw [hx]
      exact fun part hpart => hparts part (List.mem_cons_of_mem _ hpart)

end Continuation

/-! ### Errors that depend on the document -/

/-- What goes wrong, if anything does, depends on the document. -/
def Safe {α : Type} (r : Except MatchError α) : Prop :=
  ∀ e, r = .error e → e.isOfDocument = true

section Safe

variable {α β : Type} {p : Page}

theorem safe_ok (a : α) : Safe (.ok a) := fun _ h => absurd h (by simp)

theorem safe_error {e : MatchError} (h : e.isOfDocument = true) : Safe (.error e : Except _ α) :=
  fun _ heq => Except.error.inj heq ▸ h

theorem Safe.of_error {r : Except MatchError α} (h : Safe r) {e : MatchError}
    (hr : r = .error e) : Safe (.error e : Except _ β) :=
  safe_error (h e hr)

theorem Safe.map {r : Except MatchError α} (h : Safe r) (f : α → β) : Safe (r.map f) := by
  cases hr : r with
  | error e => exact h.of_error hr
  | ok a => exact safe_ok (f a)

theorem Safe.mapM {f : α → Except MatchError β} (h : ∀ a, Safe (f a)) (l : List α) :
    Safe (l.mapM f) := by
  induction l with
  | nil => exact safe_ok []
  | cons a r ih =>
    rw [List.mapM_cons]
    cases hf : f a with
    | error e => exact (h a).of_error hf
    | ok b =>
      show Safe ((r.mapM f).map (b :: ·))
      exact ih.map _

/-! ### Conditions -/

theorem safe_xpath (expression : Text) (n : Nat) {e : PageError}
    (h : p.xpath expression n = .error e) : (MatchError.rejected e).isOfDocument = true := by
  unfold Page.xpath at h
  split at h
  · exact absurd h (by simp)
  · rw [← Except.error.inj h]
    rfl

theorem safe_followPath (expression : Text) (n : Nat) :
    Safe (Condition.followPath p expression n) := by
  unfold Condition.followPath
  split
  · exact safe_ok _
  · rename_i hx
    exact safe_error (safe_xpath expression n hx)

theorem safe_ascend (name : Extended.Name) (depth n : Nat) :
    Safe (Condition.ascend p name depth n) := by
  unfold Condition.ascend
  split
  · exact safe_ok _
  · exact safe_error rfl

theorem safe_condition (name : Extended.Name) (candidates : List Nat) (c : Condition) :
    Safe (c.apply p name candidates) := by
  cases c with
  | ancestor depth => exact Safe.mapM (safe_ascend name depth) candidates
  | xpath expression => exact (Safe.mapM (safe_followPath expression) candidates).map _
  | _ => exact safe_ok _

theorem safe_applyTextual (name : Extended.Name) (argument : Text) (candidates : List Nat) :
    Safe (Query.applyTextual p name argument candidates) := by
  unfold Query.applyTextual
  split
  · exact safe_condition name candidates _
  · exact safe_ok []

/-! ### Fragments -/

open Continuation

theorem safe_follow {t : Text} (ht : Css.IsOpenList t) (n : Nat) : Safe (follow p t n) := by
  obtain ⟨s, hs⟩ := exists_ofText_relativeSelector ht
  unfold follow Page.query Page.readSelector
  rw [hs]
  exact safe_ok _

theorem safe_followAll {t : Text} (ht : Css.IsOpenList t) (ns : List Nat) :
    Safe (followAll p t ns) :=
  (Safe.mapM (safe_follow ht) ns).map _

theorem safe_keepMatching {t : Text} {s : Css.Selector} (ht : Css.Selector.ofText t = .ok s)
    (ns : List Nat) : Safe (keepMatching p t ns) := by
  induction ns with
  | nil => exact safe_ok []
  | cons n r ih =>
    unfold keepMatching Page.closest? Page.readSelector
    rw [ht]
    exact ih.map _

/-- A fragment leads on safely if it is cut behind its first compound. -/
theorem safe_apply {w : Text} {s : Css.Selector} (hw : Css.Selector.ofText w = .ok s)
    (hcut : cutsFirstCompound w = true) (ns : List Nat) : Safe (apply p w ns) := by
  unfold apply
  split
  · exact safe_followAll (Css.isOpenList_of_ofText ⟨s, hw⟩) ns
  · rename_i hrelative
    obtain ⟨⟨s, hs⟩, hrest⟩ :=
      exists_ofText_splitCompound ⟨s, hw⟩ (Bool.not_eq_true _ ▸ hrelative) hcut
    simp only
    split
    · rename_i hkept
      exact (safe_keepMatching hs ns).of_error hkept
    · split
      · exact safe_ok _
      · rename_i hblank
        exact safe_followAll (hrest (Bool.not_eq_true _ ▸ hblank)) _

/-! ### Branches -/

open Extended (Node)

/-- A node other than a fragment never refuses, and a fragment that leads on does not if it is cut
behind its first compound. -/
theorem safe_applyNode {a : Node} (ha : a.IsAdmitted Extended.readAll s)
    (hcut : ∀ w, a = .fragment w → cutsFirstCompound w = true) (candidates : List Nat) :
    Safe (Query.applyNode p candidates a) := by
  cases a with
  | fragment w =>
    obtain ⟨_, hread⟩ := ha.exists_ofText
    rw [Query.applyNode]
    exact safe_apply hread (hcut w rfl) candidates
  | textual name argument =>
    rw [Query.applyNode]
    exact safe_applyTextual name argument candidates
  | nested name branches =>
    rw [Query.applyNode]
    split
    · exact safe_ok _
    · exact safe_ok _
    · exact safe_ok _
    · exact safe_ok _
    · exact safe_ok _
    · split
      · exact safe_ok _
      · exact safe_ok _

theorem safe_applyNodes {ns : List Node} (hns : ∀ a ∈ ns, a.IsAdmitted Extended.readAll s)
    (hcut : ∀ w, .fragment w ∈ ns → cutsFirstCompound w = true) (candidates : List Nat) :
    Safe (Query.applyNodes p candidates ns) := by
  induction ns generalizing candidates with
  | nil =>
    rw [Query.applyNodes]
    exact safe_ok _
  | cons a r ih =>
    have hnode := safe_applyNode (p := p) (hns a (List.mem_cons_self ..))
      (fun w hw => hcut w (hw ▸ List.mem_cons_self ..)) candidates
    rw [Query.applyNodes]
    split
    · exact safe_ok _
    · split
      · rename_i happly
        exact hnode.of_error happly
      · exact ih (fun b hb => hns b (List.mem_cons_of_mem _ hb))
          (fun w hw => hcut w (List.mem_cons_of_mem _ hw)) _

theorem safe_evalBranch {ns : List Node} (hns : ∀ a ∈ ns, a.IsAdmitted Extended.readAll s)
    (hcut : ∀ w, .fragment w ∈ ns.tail → cutsFirstCompound w = true) :
    Safe (Query.evalBranch p .document ns) := by
  have hsearch : ∀ t, .fragment t ∈ ns → Safe (Query.search p .document t) := by
    intro t ht
    obtain ⟨_, hread⟩ := (hns _ ht).exists_ofText
    unfold Query.search Page.query Page.readSelector
    rw [hread]
    exact safe_ok _
  have htail : ∀ found, Safe (Query.applyNodes p found ns.tail) :=
    safe_applyNodes (fun a ha => hns a (List.mem_of_mem_tail ha)) hcut
  unfold Query.evalBranch
  split
  · split
    · split
      · rename_i hx
        exact safe_error (safe_xpath _ _ hx)
      · refine safe_applyNodes (fun a ha => hns a ?_) (fun w hw => hcut w ?_) _
        · exact List.mem_cons_of_mem _ (List.mem_cons_of_mem _ ha)
        · exact List.mem_cons_of_mem _ hw
    · split
      · rename_i hs
        exact (hsearch _ (List.mem_cons_self ..)).of_error hs
      · exact htail _
  · split
    · rename_i hs
      exact (hsearch _ (List.mem_cons_self ..)).of_error hs
    · exact htail _
  · exact safe_ok []

theorem safe_evalBranches {bs : List (List Node)}
    (h : ∀ ns ∈ bs, Safe (Query.evalBranch p .document ns)) : Safe (Query.evalBranches p bs) := by
  induction bs with
  | nil => exact safe_ok []
  | cons ns r ih =>
    unfold Query.evalBranches
    split
    · rename_i hns
      exact (h ns (List.mem_cons_self ..)).of_error hns
    · exact (ih fun b hb => h b (List.mem_cons_of_mem _ hb)).map _

end Safe

namespace Query

/-- A selector that has been read is not refused: what goes wrong is that there are not enough
ancestors, or that an XPath expression is none. -/
theorem isOfDocument_of_all {t : Text} {s : Extended.Selector}
    (ht : Extended.Selector.ofText t = .ok s)
    (hcut : ∀ ns ∈ s.branches, ∀ w, .fragment w ∈ ns.tail →
      Continuation.cutsFirstCompound w = true)
    {p : Page} {e : MatchError} (h : all p s = .error e) :
    (∃ name depth, e = .outOfRange name depth) ∨
      ∃ expression cause, e = .rejected (.invalidXPath expression cause) := by
  have hcomplete := (Extended.isComplete_of_readAll (Extended.Selector.ofText_eq_ok.mp ht)).2
  have hsafe : Safe (all p s) :=
    (safe_evalBranches fun ns hns =>
      safe_evalBranch (hcomplete ns hns).isAdmitted (hcut ns hns)).map _
  have hdocument := hsafe e h
  match e with
  | .outOfRange name depth => exact Or.inl ⟨name, depth, rfl⟩
  | .rejected (.invalidXPath x cause) => exact Or.inr ⟨x, cause, rfl⟩

/-- A link in a box, which has a class and a language with a bracket in it. -/
def linkInBox : Document :=
  (Document.empty.append 0 (.element ⟨"div".toList,
    [("class".toList, "b".toList), ("lang".toList, "a]b c".toList)], []⟩)).append 1
    (.element ⟨"a".toList, [], []⟩)

/-- A step up that leads too far, behind a fragment that is cut. -/
theorem isOfDocument_of_all_nthAncestor :
    (∃ name depth, MatchError.outOfRange .nthAncestor 9 = .outOfRange name depth) ∨
      ∃ expression cause, MatchError.outOfRange .nthAncestor 9 =
        .rejected (.invalidXPath expression cause) := by
  have hread : Extended.Selector.ofText "div:has(a).b > a:nth-ancestor(9)".toList =
      .ok ⟨[[.fragment "div".toList, .nested .has [[.fragment "a".toList]],
        .fragment ".b > a".toList, .textual .nthAncestor "9".toList]]⟩ := by decide +kernel
  have hcut : Continuation.cutsFirstCompound ".b > a".toList = true := by decide +kernel
  have herror : all (.ofDocument linkInBox) ⟨[[.fragment "div".toList,
      .nested .has [[.fragment "a".toList]], .fragment ".b > a".toList,
      .textual .nthAncestor "9".toList]]⟩ = .error (.outOfRange .nthAncestor 9) := by
    decide +kernel
  refine isOfDocument_of_all hread (fun ns hns w hw => ?_) herror
  rw [List.mem_singleton.mp hns] at hw
  have hw : w = ".b > a".toList := by simpa using hw
  rw [hw]
  exact hcut

/-- A square bracket in an argument makes the fragment fall apart inside the argument. -/
theorem not_isOfDocument_of_all :
    ¬ ∀ (t : Text) (s : Extended.Selector), Extended.Selector.ofText t = .ok s →
      ∀ (p : Page) (e : MatchError), p.document.Built → all p s = .error e →
        (∃ name depth, e = .outOfRange name depth) ∨
          ∃ expression cause, e = .rejected (.invalidXPath expression cause) := by
  intro h
  have hread : Extended.Selector.ofText "div:has(a):lang(a]b c)".toList =
      .ok ⟨[[.fragment "div".toList, .nested .has [[.fragment "a".toList]],
        .fragment ":lang(a]b c)".toList]]⟩ := by decide +kernel
  have herror : all (.ofDocument linkInBox) ⟨[[.fragment "div".toList,
      .nested .has [[.fragment "a".toList]], .fragment ":lang(a]b c)".toList]]⟩ =
      .error (.rejected (.invalidSelector ":lang(a]b".toList (.unterminated '('))) := by
    decide +kernel
  rcases h _ _ hread _ _ ((Document.Built.empty.append 0 _).append 1 _) herror with
    ⟨_, _, heq⟩ | ⟨_, _, heq⟩
  · exact absurd heq (by simp)
  · exact absurd (MatchError.rejected.inj heq) (by simp)

end Query
end CosmeticFilter
