import CosmeticFilter.Proofs.Extended.Inserted
import CosmeticFilter.Proofs.Extended.Uninterrupted
import CosmeticFilter.Proofs.Query.Continuation
import CosmeticFilter.Query.Evaluation

/-!
# Matching in two steps

An extended pseudo-class between two parts of a selector makes its evaluation take two steps: the
left part is searched for, and the right part leads on from what has been found. If the pseudo-class
keeps every element, the elements are those that match the selector without it.

* `mem_select_root`, `mem_select_scope`: what a page finds;
* `mem_evalBranch_inserted`: the two steps;
* `all_inserted`: both selectors find the same elements.
-/

namespace CosmeticFilter
namespace Query

open Css (Compound IsPlain IsSingle IsUnscoped readChain readConditions readOn)
open Extended (IsUnextended Node alwaysTrue isNext)

variable {p : Page}

/-! ### What a page finds -/

theorem ne_zero_of_isElement (hp : p.document.Built) {n : Nat}
    (h : p.document.isElement n = true) : n ≠ 0 := by
  rintro rfl
  rw [hp.not_isElement_zero] at h
  exact absurd h Bool.false_ne_true

theorem mem_descendants_of_isElement (hp : p.document.Built) {n : Nat}
    (h : p.document.isElement n = true) : n ∈ p.document.descendants 0 :=
  hp.mem_descendants (Document.lt_size_of_isElement h) (ne_zero_of_isElement hp h)

theorem isElement_of_selects {s : Css.Complex} {scope : Option Nat} {n : Nat}
    (h : s.selects p.document scope n = true) : p.document.isElement n = true := by
  unfold Css.Complex.selects at h
  rw [Bool.and_eq_true, Bool.and_eq_true] at h
  exact h.1.1

theorem selects_single (s : Css.Complex) (scope : Option Nat) (n : Nat) :
    Css.Selector.selects p.document scope ⟨[s]⟩ n = s.selects p.document scope n :=
  Bool.or_false _

/-- From the document, every element that a selector stands for is found. -/
theorem mem_select_root (hp : p.document.Built) (s : Css.Complex) (n : Nat) :
    n ∈ p.select ⟨[s]⟩ 0 ↔ s.selects p.document none n = true := by
  unfold Page.select Page.scopeOf
  rw [ite_self, if_pos rfl, List.mem_filter, selects_single]
  exact ⟨And.right, fun h => ⟨mem_descendants_of_isElement hp (isElement_of_selects h), h⟩⟩

/-- From an element, every element is found that a selector with `:scope` stands for. -/
theorem mem_select_scope (hp : p.document.Built) {s : Css.Complex} (hs : s.isAnchored = true)
    {n : Nat} (hn : n ≠ 0) (m : Nat) :
    m ∈ p.select ⟨[s]⟩ n ↔ s.selects p.document (some n) m = true := by
  have hanchored : Css.Selector.isAnchored ⟨[s]⟩ = true := by
    unfold Css.Selector.isAnchored
    rw [List.any_cons, hs]
    rfl
  unfold Page.select Page.scopeOf
  rw [if_pos hanchored, if_neg hn, List.mem_filter, selects_single]
  exact ⟨And.right, fun h => ⟨mem_descendants_of_isElement hp (isElement_of_selects h), h⟩⟩

theorem search_eq {t : Text} {s : Css.Selector} (ht : Css.Selector.ofText t = .ok s) :
    search p .document t = .ok (p.select s 0) := by
  unfold search Page.query Page.readSelector
  rw [ht]
  rfl

theorem evalBranch_native {t : Text} {s : Css.Selector} (ht : Css.Selector.ofText t = .ok s) :
    evalBranch p .document [.fragment t] = .ok (p.select s 0) := by
  rw [evalBranch, search_eq ht]
  · rfl
  · simp

theorem all_single {b : List Node} {found : List Nat} (h : evalBranch p .document b = .ok found) :
    all p ⟨[b]⟩ = .ok found.eraseDups := by
  unfold all evalBranches evalBranches
  rw [h]
  show Except.ok (List.eraseDups (found ++ [])) = _
  rw [List.append_nil]

/-! ### A filter that keeps everything -/

/-- No element is hovered over. -/
theorem evalArgument_hover : evalArgument p [[.fragment ":hover".toList]] = [] := by
  have hread : Css.Selector.ofText ":hover".toList = .ok ⟨[⟨[.never], []⟩]⟩ := by decide +kernel
  have hnone : p.select ⟨[⟨[.never], []⟩]⟩ 0 = [] := by
    refine List.filter_eq_nil_iff.mpr fun n _ hn => ?_
    have hnever : Css.Simple.never.holdsAt p.document (Page.scopeOf 0) n = false := by
      unfold Css.Simple.holdsAt
      cases p.document.element? n <;> rfl
    rw [selects_single] at hn
    unfold Css.Complex.selects Compound.holdsAt at hn
    simp [hnever] at hn
  rw [evalArgument, evalArgument, evalBranch_native hread, hnone]
  rfl

theorem applyNode_hover (ns : List Nat) :
    applyNode p ns (.nested .not [[.fragment ":hover".toList]]) = .ok ns := by
  have hnot : Extended.Name.not.operation = some .not := rfl
  rw [applyNode, hnot, evalArgument_hover]
  show Except.ok (ns.filter fun _ => true) = _
  rw [List.filter_true]

/-- One node of a branch, where it finds nothing among no candidates. -/
theorem applyNodes_cons {ns found : List Nat} {a : Node} (h : applyNode p ns a = .ok found)
    (hnil : ns = [] → found = []) (r : List Node) :
    applyNodes p ns (a :: r) = applyNodes p found.eraseDups r := by
  rw [applyNodes]
  split
  · rename_i hempty
    rw [hnil (List.isEmpty_iff.mp hempty)]
    cases r with
    | nil => rw [applyNodes]; rfl
    | cons b r => rw [applyNodes]; rfl
  · rw [h]

/-- The two steps of a branch: the elements of the first fragment, and where the second one leads
from them. -/
theorem mem_evalBranch_inserted {f w rest : Text} {s next : Css.Complex} {more : Compound}
    (hp : p.document.Built) (hf : Css.Selector.ofText f = .ok ⟨[s]⟩)
    (hw : Continuation.Reads w more rest next) (hcut : (Continuation.splitCompound w).2 = rest) :
    ∃ found, evalBranch p .document (.fragment f :: .nested .not [[.fragment ":hover".toList]] ::
        if w = [] then [] else [.fragment w]) = .ok found ∧
      ∀ m, m ∈ found ↔ ∃ n, s.selects p.document none n = true ∧
        Compound.holdsAt p.document none more n = true ∧
        if rest = [] then m = n else m ∈ p.select ⟨[next]⟩ n := by
  have hbranch : ∀ r : List Node,
      evalBranch p .document (.fragment f :: .nested .not [[.fragment ":hover".toList]] :: r) =
        applyNodes p (p.select ⟨[s]⟩ 0).eraseDups r := by
    intro r
    rw [evalBranch, search_eq hf]
    · exact applyNodes_cons (applyNode_hover _) id r
    · simp
  have hmem : ∀ n, n ∈ (p.select ⟨[s]⟩ 0).eraseDups ↔ s.selects p.document none n = true := by
    intro n
    rw [List.mem_eraseDups]
    exact mem_select_root hp s n
  rw [hbranch]
  generalize (p.select ⟨[s]⟩ 0).eraseDups = ns at *
  by_cases hne : w = []
  · subst hne
    have hread : readConditions false [] = .ok ([], []) := Css.readConditions_of_none rfl
    obtain ⟨rfl, rfl⟩ := Prod.mk.inj (Except.ok.inj (hread.symm.trans hw.conditions))
    rw [if_pos rfl, applyNodes]
    refine ⟨_, rfl, fun m => ?_⟩
    rw [hmem]
    constructor
    · exact fun hm => ⟨m, hm, rfl, by rw [if_pos rfl]⟩
    · rintro ⟨n, hn, -, heq⟩
      rw [if_pos rfl] at heq
      rw [heq]
      exact hn
  · have hns : ∀ n ∈ ns, p.document.isElement n = true := fun n hn =>
      isElement_of_selects ((hmem n).mp hn)
    obtain ⟨found, hfound, hmem'⟩ := hw.mem_apply hne hcut hns
    rw [if_neg hne, applyNodes_cons (by rw [applyNode, hfound]), applyNodes]
    · refine ⟨_, rfl, fun m => ?_⟩
      rw [List.mem_eraseDups, hmem']
      simp only [hmem]
    · rintro rfl
      refine List.eq_nil_iff_forall_not_mem.mpr fun m hm => ?_
      obtain ⟨n, hn, -⟩ := (hmem' m).mp hm
      exact List.not_mem_nil hn

/-! ### The fragments of a selector in two parts -/

/-- A word of a fragment stands in the text of the selector, in any letter case. -/
theorem infix_lower_of_native {s : Extended.Scope} {t u g : Text} (hs : s.mayLead = false)
    (h : Extended.readAll s t = .ok [[.fragment g]]) (hu : ∀ c ∈ u, Text.isBlank c = false)
    (hg : u <:+: Text.lower g) : u <:+: Text.lower t := by
  obtain ⟨x, y, heq⟩ := hg
  obtain ⟨gx, gy, rfl, hgx, rfl⟩ := List.map_eq_append_iff.mp heq.symm
  obtain ⟨gx', gu, rfl, rfl, rfl⟩ := List.map_eq_append_iff.mp hgx
  have hinfix := Extended.infix_of_native hs h (Text.not_blank_of_lower hu) ⟨gx', gy, rfl⟩
  exact hinfix.map Char.toLower

theorem isPlain_of_native {s : Extended.Scope} {t g : Text} (hs : s.mayLead = false)
    (h : Extended.readAll s t = .ok [[.fragment g]]) (ht : IsPlain t) : IsPlain g := by
  rintro c hc rfl
  obtain ⟨x, y, rfl⟩ := List.append_of_mem hc
  have hinfix : ['\\'] <:+: x ++ '\\' :: y := ⟨x, y, by simp⟩
  have hmem := (Extended.infix_of_native hs h (Text.not_blank_of_any (by decide)) hinfix).subset
    (List.mem_singleton_self _)
  exact ht _ hmem rfl

/-- A character that a selector goes on with is no letter. -/
theorem toLower_of_isNext {c : Char} (hc : isNext c = true) : c.toLower = c := by
  unfold isNext Css.isCombinator at hc
  simp only [Bool.or_eq_true, beq_iff_eq] at hc
  rcases hc with ((((hblank | (rfl | rfl) | rfl) | rfl) | rfl) | rfl) | rfl
  · exact Text.toLower_of_blank hblank
  all_goals decide

/-- A word that goes on with names only, as `:scope` does, does not come about where the parts
meet. -/
theorem not_infix_lower_append {u A c : Text} (hu : u.tail.any isNext = false)
    (hA : ¬ u <:+: Text.lower A) (hc : ¬ u <:+: Text.lower c)
    (hnext : ∀ d ∈ c.head?, isNext d = true) : ¬ u <:+: Text.lower (A ++ c) := by
  intro hinfix
  rw [Text.lower, List.map_append] at hinfix
  rcases Extended.infix_append_cases hinfix with h | h | ⟨v, w, rfl, hw, hv, -, hprefix⟩
  · exact hA h
  · exact hc h
  · obtain ⟨e, v', rfl⟩ := List.exists_cons_of_ne_nil hv
    obtain ⟨d, w', rfl⟩ := List.exists_cons_of_ne_nil hw
    cases c with
    | nil => exact absurd (List.prefix_nil.mp hprefix) (List.cons_ne_nil _ _)
    | cons b r =>
      obtain ⟨rfl, -⟩ := List.cons_prefix_cons.mp hprefix
      have hb := hnext b rfl
      rw [List.any_eq_false] at hu
      refine hu b.toLower (List.mem_append_right _ (List.mem_cons_self ..)) ?_
      rwa [toLower_of_isNext hb]

theorem trim_ne_nil_of_native {s : Extended.Scope} {t g : Text} (hs : s.mayLead = false)
    (h : Extended.readAll s t = .ok [[.fragment g]]) :
    Text.trim g = Text.trimStart g ∧ Text.trimStart g ≠ [] := by
  obtain ⟨-, -, hne, -, -⟩ := Extended.native_of_readAll hs h
  obtain ⟨-, hlast⟩ := Extended.pending_of_native hs h
  exact ⟨Text.trim_eq_trimStart hlast, fun hnil => hne (Css.eq_nil_of_trimStart hlast hnil)⟩

/-- A native fragment is read as a chain of compounds. -/
theorem readChain_of_native {s : Extended.Scope} {t g : Text} (hs : s.mayLead = false)
    (h : Extended.readAll s t = .ok [[.fragment g]]) (ht : IsPlain t) (hsingle : IsSingle g) :
    ∃ y, Css.Selector.ofText g = .ok ⟨[y]⟩ ∧ readChain [] (Text.trim g) = .ok y := by
  obtain ⟨-, -, -, ⟨S, hS⟩, hlead⟩ := Extended.native_of_readAll hs h
  obtain ⟨htrim, hne⟩ := trim_ne_nil_of_native hs h
  rw [← htrim] at hne
  have hsingle' := (Css.isSingle_trim_iff (isPlain_of_native hs h ht)).mpr hsingle
  rw [Css.ofText_of_isSingle hsingle', Text.trim_trim] at hS
  obtain ⟨y, hy, -⟩ := Outcome.map_eq_ok.mp hS
  refine ⟨y, ?_, ?_⟩
  · rw [Css.ofText_of_isSingle hsingle, hy]
    rfl
  · rw [← Css.ofText_eq_readChain hne (Text.trim_trim g) hlead]
    exact hy

theorem exists_isLast_of_native {s : Extended.Scope} {t g : Text} (hs : s.mayLead = false)
    (h : Extended.readAll s t = .ok [[.fragment g]]) (ht : IsPlain t) (hsingle : IsSingle g) :
    ∃ d ∈ g.getLast?, Css.isLast d = true := by
  obtain ⟨y, -, hchain⟩ := readChain_of_native hs h ht hsingle
  obtain ⟨htrim, hne⟩ := trim_ne_nil_of_native hs h
  have hlast := Css.exists_isLast_of_readChain (isPlain_of_native hs h ht).trim
    (fun d hd => Text.not_blank_of_getLast?_trim hd) hchain
  rw [htrim] at hlast
  exact Css.exists_getLast?_of_suffix (List.dropWhile_suffix _) hlast

theorem isSingle_of_native {s : Extended.Scope} {t g : Text} (hs : s.mayLead = false)
    (h : Extended.readAll s t = .ok [[.fragment g]]) (ht : IsPlain t) :
    IsSingle g ↔ IsSingle t := by
  rw [← Css.isSingle_withoutBlanks_iff (isPlain_of_native hs h ht),
    Extended.withoutBlanks_of_native hs h, Css.isSingle_withoutBlanks_iff ht]

/-- A native selector ends outside everything. -/
theorem after_of_native {s : Extended.Scope} {t g : Text} (hs : s.mayLead = false)
    (h : Extended.readAll s t = .ok [[.fragment g]]) (ht : IsPlain t) :
    Nesting.top.after .roundAndSquare t = .top := by
  obtain ⟨-, -, -, ⟨S, hS⟩, -⟩ := Extended.native_of_readAll hs h
  obtain ⟨htrim, -⟩ := trim_ne_nil_of_native hs h
  have hplain := isPlain_of_native hs h ht
  obtain ⟨parts, hparts, -⟩ := Outcome.bind_eq_ok.mp hS
  have hafter := Css.after_eq_top_of_splitList hplain.trim hparts
  rw [htrim, Nesting.after_trimStart, ← Css.after_withoutBlanks hplain Nesting.settled_top,
    Extended.withoutBlanks_of_native hs h, Css.after_withoutBlanks ht Nesting.settled_top] at hafter
  exact hafter

/-- What goes on does not go on with a name; among the blanks, some could. -/
theorem detached_of_isNext {w : Text}
    (h : ∀ d ∈ w.head?, isNext d = true ∧ (Text.isBlank d = true → d = ' ')) : Css.Detached w := by
  intro d hd
  obtain ⟨hnext, hspace⟩ := h d hd
  unfold isNext Css.isCombinator at hnext
  simp only [Bool.or_eq_true, beq_iff_eq] at hnext
  rcases hnext with ((((hblank | (rfl | rfl) | rfl) | rfl) | rfl) | rfl) | rfl
  · rw [hspace hblank]
    decide
  all_goals decide

theorem goesOn_of_isNext {w : Text} (h : ∀ d ∈ w.head?, isNext d = true) :
    Continuation.GoesOn w := by
  intro d hd
  have hnext := h d hd
  unfold isNext at hnext
  simp only [Bool.or_eq_true] at hnext
  unfold Continuation.isCondition
  simp only [Bool.or_eq_true]
  tauto

/-- A selector in two parts: the left one is a selector, and the right one goes on behind its last
compound. -/
theorem exists_reads {f w : Text} {s x : Css.Complex} (hplain : IsPlain (f ++ w))
    (hf : ∀ d ∈ f.getLast?, Text.isBlank d = false) (hne : Text.trimStart f ≠ [])
    (hw : ∀ d ∈ w.getLast?, Text.isBlank d = false)
    (hnext : ∀ d ∈ w.head?, isNext d = true ∧ (Text.isBlank d = true → d = ' '))
    (hsingle : IsSingle w) (hs : readChain [] (Text.trim f) = .ok s)
    (hx : readChain [] (Text.trim (f ++ w)) = .ok x) :
    ∃ more rest next, Continuation.Reads w more rest next ∧
      if rest = [] then x = ⟨s.subject ++ more, s.chain⟩
      else ∃ (k : Css.Combinator) (right : Css.Complex),
        x = ⟨right.subject, right.chain ++ (k, s.subject ++ more) :: s.chain⟩ ∧
          next = ⟨right.subject, right.chain ++ [(k, [.pseudo .scope])]⟩ := by
  have hplainf : IsPlain f := fun d hd => hplain d (List.mem_append_left _ hd)
  have hplainw : IsPlain w := fun d hd => hplain d (List.mem_append_right _ hd)
  have hlast : ∀ d ∈ (f ++ w).getLast?, Text.isBlank d = false := by
    intro d hd
    rw [List.getLast?_append] at hd
    cases hwlast : w.getLast? with
    | none =>
      rw [hwlast, Option.none_or] at hd
      exact hf d hd
    | some e =>
      rw [hwlast, Option.some_or] at hd
      exact hw d (by rw [hwlast]; exact hd)
  have htrim : Text.trim (f ++ w) = Text.trim f ++ w := by
    rw [Text.trim_eq_trimStart hlast, Text.trimStart_append hne, Text.trim_eq_trimStart hf]
  rw [htrim, Css.readChain_append hplainf.trim (fun d hd => Text.not_blank_of_getLast?_trim hd)
    (detached_of_isNext hnext) hs] at hx
  obtain ⟨⟨more, rest⟩, hread, hon⟩ := Outcome.bind_eq_ok.mp hx
  by_cases hrest : rest = []
  · subst hrest
    refine ⟨more, [], x, ⟨hplainw, hsingle, hw,
      goesOn_of_isNext fun d hd => (hnext d hd).1, hread, fun hne => absurd rfl hne⟩, ?_⟩
    rw [if_pos rfl]
    exact (Except.ok.inj hon).symm
  · have hstart : Text.trimStart rest ≠ [] := by
      intro hnil
      refine hrest (Css.eq_nil_of_trimStart ?_ hnil)
      rw [← Css.getLast?_of_suffix (Css.isRest_of_readConditions hread).suffix hrest]
      exact hw
    obtain ⟨k, right, hsubject, hchain, hall⟩ := Css.readOn_eq_ok hon hstart
    refine ⟨more, rest, ⟨right.subject, right.chain ++ [(k, [.pseudo .scope])]⟩,
      ⟨hplainw, hsingle, hw, goesOn_of_isNext fun d hd => (hnext d hd).1, hread,
        fun _ => hall [] [.pseudo .scope]⟩, ?_⟩
    rw [if_neg hrest]
    refine ⟨k, right, ?_, rfl⟩
    rw [← hsubject, ← hchain]

/-- Matching the right part from what the left part finds is matching the whole. -/
theorem selects_iff_reads (hp : p.document.Built) {rest : Text} {s x next : Css.Complex}
    {more : Compound}
    (hunscoped : (IsUnscoped x.subject ∧ x.subject ≠ []) ∧
      ∀ q ∈ x.chain, IsUnscoped q.2 ∧ q.2 ≠ [])
    (hx : if rest = [] then x = ⟨s.subject ++ more, s.chain⟩
      else ∃ (k : Css.Combinator) (right : Css.Complex),
        x = ⟨right.subject, right.chain ++ (k, s.subject ++ more) :: s.chain⟩ ∧
          next = ⟨right.subject, right.chain ++ [(k, [.pseudo .scope])]⟩) (m : Nat) :
    (∃ n, s.selects p.document none n = true ∧ Compound.holdsAt p.document none more n = true ∧
        if rest = [] then m = n else m ∈ p.select ⟨[next]⟩ n) ↔
      x.selects p.document none m = true := by
  by_cases hrest : rest = []
  · rw [if_pos hrest] at hx
    rw [hx, Css.selects_append, Bool.and_eq_true]
    constructor
    · rintro ⟨n, hn, hmore, heq⟩
      rw [if_pos hrest] at heq
      rw [heq]
      exact ⟨hn, hmore⟩
    · rintro ⟨hm, hmore⟩
      exact ⟨m, hm, hmore, by rw [if_pos hrest]⟩
  · rw [if_neg hrest] at hx
    obtain ⟨k, right, rfl, rfl⟩ := hx
    obtain ⟨⟨hsubject, -⟩, hchain⟩ := hunscoped
    obtain ⟨hleft, hne⟩ := hchain (k, s.subject ++ more)
      (List.mem_append_right _ (List.mem_cons_self ..))
    have hanchored : (⟨right.subject, right.chain ++ [(k, [.pseudo .scope])]⟩ :
        Css.Complex).isAnchored = true := by
      unfold Css.Complex.isAnchored Css.Complex.compounds
      simp
    rw [Css.selects_chain_iff ⟨s.subject ++ more, s.chain⟩ right hleft hne hsubject
      fun q hq => (hchain q (List.mem_append_left _ hq)).1]
    refine exists_congr fun n => ?_
    rw [if_neg hrest, Css.selects_append, Bool.and_eq_true, and_assoc]
    refine and_congr_right fun hn => and_congr_right fun _ => ?_
    exact mem_select_scope hp hanchored (ne_zero_of_isElement hp (isElement_of_selects hn)) m

/-- A native selector and the same one with `:not(:hover)` put somewhere behind one of its
conditions or compounds find the same elements, if the second part is split where its first compound
ends. -/
theorem all_inserted (hp : p.document.Built) {A c f : Text} {x : Css.Complex}
    (hA : Extended.Selector.ofText A = .ok ⟨[[.fragment f]]⟩)
    (hlast : ∀ d ∈ A.getLast?, Text.isBlank d = false)
    (hc : ∃ d ∈ c.head?, isNext d = true)
    (hplain : IsPlain A ∧ IsPlain c)
    (hscope : Text.occursIn ":scope".toList (Text.lower A) = false ∧
      Text.occursIn ":scope".toList (Text.lower c) = false)
    (hext : Text.occursIn "-ext-".toList (Text.lower A) = false ∧
      Text.occursIn "-ext-".toList (Text.lower c) = false)
    {whole : Extended.Selector} (hAc : Extended.Selector.ofText (A ++ c) = .ok whole)
    (hx : Css.Selector.ofText (A ++ c) = .ok ⟨[x]⟩)
    (hcut : ∀ g, whole = ⟨[[.fragment g]]⟩ →
      Continuation.cutsAtCompound (g.drop f.length) = true) :
    ∃ s found found', Extended.Selector.ofText (A ++ (alwaysTrue ++ c)) = .ok s ∧
      all p whole = .ok found ∧ all p s = .ok found' ∧ ∀ n, n ∈ found' ↔ n ∈ found := by
  have hf := Extended.Selector.ofText_eq_ok.mp hA
  have hg := Extended.Selector.ofText_eq_ok.mp hAc
  obtain ⟨hplainA, hplainc⟩ := hplain
  have hplainAc : IsPlain (A ++ c) := fun d hd =>
    (List.mem_append.mp hd).elim (hplainA d) (hplainc d)
  have hnext : ∀ d ∈ c.head?, isNext d = true := by
    obtain ⟨e, he, hnext⟩ := hc
    intro d hd
    rw [Option.mem_unique hd he]
    exact hnext
  have hno : ∀ {u : Text}, u.tail.any isNext = false → Text.occursIn u (Text.lower A) = false ∧
      Text.occursIn u (Text.lower c) = false → ¬ u <:+: Text.lower (A ++ c) := fun hu hparts => by
    refine not_infix_lower_append hu ?_ ?_ hnext
    · rw [← Text.occursIn_iff, hparts.1]
      exact Bool.false_ne_true
    · rw [← Text.occursIn_iff, hparts.2]
      exact Bool.false_ne_true
  -- by itself, the whole is read as one fragment
  obtain ⟨branches⟩ := whole
  obtain rfl := IsUnextended.eq_of_readAll ⟨hplainAc, hno (by decide) hext, hx⟩ hg
  generalize Extended.squeeze true (Text.trim (A ++ c)) = g at hg hcut ⊢
  replace hcut := hcut g rfl
  -- it is one selector, and so are both parts
  have hsingle := ((Css.ofText_eq_single_iff hplainAc).mp hx).1
  obtain ⟨hsingleA, -⟩ := (IsSingle.append_iff (after_of_native rfl hf hplainA) c).mp hsingle
  have hsinglef := (isSingle_of_native rfl hf hplainA).mpr hsingleA
  have hsingleg := (isSingle_of_native rfl hg hplainAc).mpr hsingle
  have hplaing := isPlain_of_native rfl hg hplainAc
  obtain ⟨s, hs, hchainf⟩ := readChain_of_native rfl hf hplainA hsinglef
  obtain ⟨y, hy, hchain⟩ := readChain_of_native rfl hg hplainAc hsingleg
  obtain ⟨w, rfl, hhead, hinserted⟩ := Extended.readAll_inserted hplainA hlast hnext hf hg
    (exists_isLast_of_native rfl hf hplainA hsinglef)
  obtain ⟨-, hsinglew⟩ := (IsSingle.append_iff hsinglef.1 w).mp hsingleg
  obtain ⟨-, hlastf⟩ := Extended.pending_of_native rfl hf
  obtain ⟨-, hlastg⟩ := Extended.pending_of_native rfl hg
  have hlastw : ∀ d ∈ w.getLast?, Text.isBlank d = false := by
    intro d hd
    refine hlastg d ?_
    rw [List.getLast?_append_of_ne_nil]
    · exact hd
    · rintro rfl
      exact absurd hd (by simp)
  obtain ⟨more, rest, next, hreads, hparts⟩ := exists_reads hplaing hlastf
    (trim_ne_nil_of_native rfl hf).2 hlastw hhead hsinglew hchainf hchain
  have hunscoped : ¬ ":scope".toList <:+: Text.lower (Text.trim (f ++ w)) := by
    intro hinfix
    rw [(trim_ne_nil_of_native rfl hg).1] at hinfix
    exact hno (by decide) hscope (infix_lower_of_native rfl hg (Text.not_blank_of_any (by decide))
      (Css.infix_lower_of_suffix hinfix (List.dropWhile_suffix _)))
  have hrest : (Continuation.splitCompound w).2 = rest := by
    rw [List.drop_left, Continuation.cutsAtCompound, hreads.conditions] at hcut
    exact beq_iff_eq.mp hcut
  obtain ⟨found', hfound', hmem⟩ := mem_evalBranch_inserted hp hs hreads hrest
  have hread' := hinserted (by
    by_cases hne : w = []
    · exact Or.inr hne
    · exact Or.inl (hreads.exists_ofText hne))
  refine ⟨_, _, _, Extended.Selector.ofText_eq_ok.mpr hread', all_single (evalBranch_native hy),
    all_single hfound', fun n => ?_⟩
  rw [List.mem_eraseDups, List.mem_eraseDups, hmem, mem_select_root hp]
  exact selects_iff_reads hp (Css.isUnscoped_of_readChain hplaing.trim hunscoped hchain) hparts n

/-- A box and a paragraph in it, with a bracket in the language of each. -/
def bracketLanguages : Document :=
  (Document.empty.append 0 (.element ⟨"div".toList, [("lang".toList, "a[b".toList)], []⟩)).append 1
    (.element ⟨"p".toList, [("lang".toList, "d]e".toList)], []⟩)

theorem not_blank_div : ∀ d ∈ "div".toList.getLast?, Text.isBlank d = false := by
  intro d hd
  obtain rfl := Option.some_inj.mp hd
  decide

/-- With a further condition and another compound in the second part. -/
theorem all_inserted_root :
    ∃ s found found', Extended.Selector.ofText ("div".toList ++ (alwaysTrue ++ ":root > p".toList)) =
        .ok s ∧
      all (.ofDocument bracketLanguages) ⟨[[.fragment "div:root > p".toList]]⟩ = .ok found ∧
      all (.ofDocument bracketLanguages) s = .ok found' ∧ ∀ n, n ∈ found' ↔ n ∈ found :=
  all_inserted (f := "div".toList)
    (x := ⟨[.tag "p".toList], [(.child, [.tag "div".toList, .pseudo .root])]⟩)
    ((Document.Built.empty.append 0 _).append 1 _) (by decide +kernel) not_blank_div
    ⟨':', rfl, by decide⟩ ⟨by decide, by decide⟩ ⟨by decide +kernel, by decide +kernel⟩
    ⟨by decide +kernel, by decide +kernel⟩ (by decide +kernel) (by decide +kernel)
    fun g hg => by
      cases hg
      decide +kernel

/-- A square bracket in an argument of the second part hides where its first compound ends. -/
theorem not_all_inserted :
    ¬ ∀ (p : Page) (A c f g : Text) (x : Css.Complex), p.document.Built →
      Extended.Selector.ofText A = .ok ⟨[[.fragment f]]⟩ →
      (∀ d ∈ A.getLast?, Text.isBlank d = false) → (∃ d ∈ c.head?, isNext d = true) →
      IsPlain A ∧ IsPlain c →
      (Text.occursIn ":scope".toList (Text.lower A) = false ∧
        Text.occursIn ":scope".toList (Text.lower c) = false) →
      (Text.occursIn "-ext-".toList (Text.lower A) = false ∧
        Text.occursIn "-ext-".toList (Text.lower c) = false) →
      Extended.Selector.ofText (A ++ c) = .ok ⟨[[.fragment g]]⟩ →
      Css.Selector.ofText (A ++ c) = .ok ⟨[x]⟩ →
      ∃ s found found', Extended.Selector.ofText (A ++ (alwaysTrue ++ c)) = .ok s ∧
        all p ⟨[[.fragment g]]⟩ = .ok found ∧ all p s = .ok found' ∧
        ∀ n, n ∈ found' ↔ n ∈ found := by
  intro h
  obtain ⟨s, found, found', hs, hfound, hfound', hmem⟩ := h (.ofDocument bracketLanguages)
    "div".toList ":lang(a[b) > p:lang(d]e)".toList "div".toList
    "div:lang(a[b) > p:lang(d]e)".toList
    ⟨[.tag "p".toList, .pseudo (.lang "d]e".toList)],
      [(.child, [.tag "div".toList, .pseudo (.lang "a[b".toList)])]⟩
    ((Document.Built.empty.append 0 _).append 1 _) (by decide +kernel) not_blank_div
    ⟨':', rfl, by decide⟩ ⟨by decide, by decide⟩
    ⟨by decide +kernel, by decide +kernel⟩ ⟨by decide +kernel, by decide +kernel⟩
    (by decide +kernel) (by decide +kernel)
  have hread : Extended.Selector.ofText
      ("div".toList ++ (alwaysTrue ++ ":lang(a[b) > p:lang(d]e)".toList)) =
      .ok ⟨[[.fragment "div".toList, .nested .not [[.fragment ":hover".toList]],
        .fragment ":lang(a[b) > p:lang(d]e)".toList]]⟩ := by decide +kernel
  obtain rfl := Except.ok.inj (hread.symm.trans hs)
  have hone : all (.ofDocument bracketLanguages)
      ⟨[[.fragment "div:lang(a[b) > p:lang(d]e)".toList]]⟩ = .ok [2] := by decide +kernel
  have hnone : all (.ofDocument bracketLanguages)
      ⟨[[.fragment "div".toList, .nested .not [[.fragment ":hover".toList]],
        .fragment ":lang(a[b) > p:lang(d]e)".toList]]⟩ = .ok [] := by decide +kernel
  obtain rfl := Except.ok.inj (hone.symm.trans hfound)
  obtain rfl := Except.ok.inj (hnone.symm.trans hfound')
  exact List.not_mem_nil ((hmem 2).mpr (List.mem_singleton_self 2))

end Query
end CosmeticFilter
