import CosmeticFilter.Proofs.Extended.Arguments

/-!
# Pseudo-classes with texts behind a native text

A pseudo-class whose argument is a text, such as `:contains()`, is read by itself: whether it is
accepted does not depend on what stands around it. So where such pseudo-classes follow a native
text, whether the whole is a selector depends on the text alone: it is cut off as a fragment, and
the fragment has to be a selector again. Where the text ends in a blank or a combinator, an asterisk
is put behind it, for any element. But the character may be escaped, or the blank may end an escape:
then the asterisk is wrong, and no pseudo-class may follow at all.

* `IsTextual`: a pseudo-class with a text that it accepts;
* `IsTextual.addExtended_eq`: it is added behind whatever is cut off;
* `draftOf`, `leadingFragment`: what a native text leaves pending, and what is cut off;
* `TakesPseudoClass`: what is cut off is a selector;
* `takesPseudoClass_of_getLast?`: a last character that guarantees it;
* `ofText_append_textual`: native texts with such pseudo-classes behind them.
-/

namespace CosmeticFilter

/-! ### Texts -/

namespace Text

/-- What stands behind a text does not change its first character. -/
theorem head?_trim_append {t : Text} (h : trim t ≠ []) (u : Text) :
    (trim (t ++ u)).head? = (trim t).head? := by
  have hstart : trimStart t ≠ [] := by
    intro hnil
    exact h (trim_eq_nil_iff.mpr (trimStart_eq_nil_iff.mp hnil))
  have happend : trim (t ++ u) ≠ [] := by
    intro hnil
    exact h (trim_eq_nil_iff.mpr fun c hc =>
      trim_eq_nil_iff.mp hnil c (List.mem_append_left u hc))
  unfold trim at h happend ⊢
  rw [head?_trimEnd happend, head?_trimEnd h, trimStart_append hstart,
    List.head?_append_of_ne_nil _ hstart]

/-- A text without blanks at its end has the last character of its other characters. -/
theorem getLast?_withoutBlanks {t : Text} (ht : ∀ c ∈ t.getLast?, isBlank c = false) :
    (withoutBlanks t).getLast? = t.getLast? := by
  rcases List.eq_nil_or_concat t with rfl | ⟨u, c, rfl⟩
  · rfl
  · rw [List.concat_eq_append, List.getLast?_concat] at *
    have hc : isBlank c = false := ht c rfl
    rw [withoutBlanks_append, withoutBlanks_cons_of_not_blank (by simp [hc])]
    exact List.getLast?_concat

end Text

namespace Extended

variable {inner : BranchReader} {s : Scope} {S f : Text} {x : Name × Text}

/-! ### Texts as arguments -/

/-- The pseudo-class accepts the text as its argument, and may stand behind anything that another
pseudo-class may follow. -/
structure IsTextual (x : Name × Text) : Prop where
  /-- The pseudo-class may stand in any argument, and behind a pseudo-element. -/
  unscoped : x.1.isScoped = false
  /-- Another pseudo-class may follow. -/
  inner : x.1 ≠ .remove ∧ x.1 ≠ .xpath
  /-- The argument is no list of branches. -/
  kind : x.1.argumentKind x.2 = .absolute
  /-- The argument is not left out. -/
  given : Text.isAllBlank x.2 = false
  /-- The argument is accepted. -/
  accepted : ∃ c, Condition.compile x.1 x.2 = .ok c
  /-- The argument ends where its brackets end. -/
  fills : Inside.start.Fills x.2

/-- What the pseudo-class is read as. -/
def textualNode (x : Name × Text) : Node := .textual x.1 x.2

namespace IsTextual

theorem nodeOf_eq (h : IsTextual x) : Draft.nodeOf inner s x.1 x.2 = .ok (textualNode x) := by
  obtain ⟨c, hc⟩ := h.accepted
  unfold Draft.nodeOf
  rw [h.kind, hc]
  rfl

/-- The pseudo-class is added behind whatever is cut off. -/
theorem addExtended_eq (h : IsTextual x) {d : Draft} (hremove : d.has .remove = false)
    (hxpath : d.has .xpath = false) :
    d.addExtended inner s x.1 x.2 =
      (d.cutBeforeExtended s).map fun cut => { cut with nodes := cut.nodes ++ [textualNode x] } := by
  obtain ⟨hhas, his⟩ : x.1.isHasFamily = false ∧ x.1.isIsFamily = false :=
    Bool.or_eq_false_iff.mp h.unscoped
  have hplace : d.checkPlacement s x.1 = .ok () := by
    rw [checkPlacement_eq_ok, h.unscoped, hremove, hxpath, hhas, his,
      beq_eq_false_iff_ne.mpr h.inner.1]
    simp
  unfold Draft.addExtended
  rw [hplace, h.given, Bool.and_false, h.nodeOf_eq]
  cases d.cutBeforeExtended s <;> rfl

theorem step_eq (h : IsTextual x) {p : Progress} (hremove : p.draft.has .remove = false)
    (hxpath : p.draft.has .xpath = false) :
    p.step inner s (pseudoPiece x) =
      (p.draft.cutBeforeExtended s).map fun cut =>
        ⟨p.branches, { cut with nodes := cut.nodes ++ [textualNode x] }⟩ := by
  rw [pseudoPiece, Progress.step, Draft.addPseudoClass, Name.ofText?_text]
  dsimp only
  rw [h.addExtended_eq hremove hxpath]
  cases p.draft.cutBeforeExtended s <;> rfl

/-- Anything may follow the pseudo-class. -/
theorem letFollow (h : IsTextual x) {ns : List Node} (hns : LetFollow ns) :
    LetFollow (ns ++ [textualNode x]) := by
  intro n hn
  rcases List.mem_append.mp hn with hn | hn
  · exact hns n hn
  · rw [List.mem_singleton.mp hn]
    simpa [textualNode, Node.name?] using h.inner

/-- Behind nodes, such pseudo-classes are added one after the other. -/
theorem foldlM_pseudoPiece {l : List (Name × Text)} (hl : ∀ y ∈ l, IsTextual y) {ns : List Node}
    (hne : ns ≠ []) (hns : LetFollow ns) (a : Bool) :
    (l.map pseudoPiece).foldlM (Progress.step inner s) ⟨[], ⟨ns, [], a⟩⟩ =
      .ok ⟨[], ⟨ns ++ l.map textualNode, [], a⟩⟩ := by
  induction l generalizing ns with
  | nil => simp [pure, Except.pure]
  | cons x l ih =>
    obtain ⟨hx, hl⟩ := List.forall_mem_cons.mp hl
    obtain ⟨hremove, hxpath⟩ := hns.has [] a
    rw [List.map_cons, List.foldlM_cons, hx.step_eq hremove hxpath, cutBeforeExtended_nodes hne]
    show (l.map pseudoPiece).foldlM _ _ = _
    rw [ih hl (by simp) (hx.letFollow hns)]
    simp

/-- Behind native text, the first pseudo-class cuts it off, and the branch ends with the last
one. -/
theorem finish_pseudoPiece (hx : IsTextual x) {l : List (Name × Text)}
    (hl : ∀ y ∈ l, IsTextual y) {d : Draft} (hd : d.nodes = []) :
    finish s (((x :: l).map pseudoPiece).foldlM (Progress.step inner s) ⟨[], d⟩) =
      (d.cutBeforeExtended s).map fun cut => [cut.nodes ++ (x :: l).map textualNode] := by
  have hhas : ∀ name, d.has name = false := by
    intro name
    rw [Draft.has, hd]
    rfl
  rw [List.map_cons, List.foldlM_cons, hx.step_eq (hhas _) (hhas _)]
  cases hcut : d.cutBeforeExtended s with
  | error e => rfl
  | ok cut =>
    have hfollow : LetFollow cut.nodes := by
      rw [cutBeforeExtended_eq_ok hcut, hd]
      intro n hn
      split at hn
      · exact absurd hn List.not_mem_nil
      · rw [List.mem_singleton.mp hn]
        simp [Node.name?]
    have hpending : cut.pending = [] := by rw [cutBeforeExtended_eq_ok hcut]
    show finish s ((l.map pseudoPiece).foldlM _
      ⟨[], ⟨cut.nodes ++ [textualNode x], cut.pending, cut.afterElement⟩⟩) = _
    rw [hpending, foldlM_pseudoPiece hl (by simp) (hx.letFollow hfollow)]
    rw [finish, endBranch_nodes (by simp), List.append_assoc]
    rfl

end IsTextual

/-! ### Native texts -/

/-- The branch when a native text has been read. -/
def draftOf (S : Text) : Draft := (piecesIn (Text.trimStart S)).foldl Draft.addText .empty

/-- The fragment that a native text becomes when a pseudo-class follows. -/
def leadingFragment (S : Text) : Text := (draftOf S).cutText

/-- A native text may be followed by a pseudo-class: what is cut off then is a selector. -/
def TakesPseudoClass (S : Text) : Prop := ∃ X, Css.Selector.ofText (leadingFragment S) = .ok X

theorem draftOf_nodes (S : Text) : (draftOf S).nodes = [] := foldl_addText_nodes _ .empty

/-- A native text has been read up to its end, and it could end there. -/
theorem exists_stands_of_native (hS : Selector.ofText S = .ok ⟨[[.fragment f]]⟩)
    (hescape : endsInEscape S = false) :
    Stands readAll .top (Text.trimStart S) ⟨[], draftOf S⟩ ∧
      Progress.endBranch .top ⟨[], draftOf S⟩ = .ok [[.fragment f]] := by
  obtain ⟨p, hstands, hend⟩ := exists_stands_of_readAll (Selector.ofText_eq_ok.mp hS) hescape
  rcases foldlM_cases hstands.run with hmarked | ⟨-, hnative⟩
  · exact absurd hend (not_native_of_isMarked hmarked)
  · obtain rfl := Except.ok.inj ((foldlM_of_isNative hnative .start).symm.trans hstands.run)
    exact ⟨hstands, hend⟩

theorem leadingFragment_ne_nil (S : Text) : leadingFragment S ≠ [] := by
  rcases cutText_cases (draftOf S) with hstar | ⟨-, hclosed⟩
  · rw [leadingFragment, hstar]
    exact List.append_ne_nil_of_right_ne_nil _ (List.cons_ne_nil _ _)
  · intro hnil
    rw [draftOf_nodes, pending_eq_nil_of_cutText hnil] at hclosed
    exact absurd hclosed (by decide)

/-- No combinator stands in front of what is cut off. -/
theorem not_isCombinator_leadingFragment (hS : Selector.ofText S = .ok ⟨[[.fragment f]]⟩)
    (hescape : endsInEscape S = false) :
    (Text.trim (leadingFragment S)).head?.any Css.isCombinator = false := by
  obtain ⟨-, hend⟩ := exists_stands_of_native hS hescape
  obtain ⟨d, hcut, hne, -⟩ := endBranch_eq_ok.mp hend
  rcases cutAtEnd_cases hcut with ⟨-, hnodes⟩ | ⟨-, -, hadd⟩
  · exact absurd (hnodes.trans (draftOf_nodes S)) hne
  · obtain ⟨-, hlead⟩ := of_addFragment hadd
    rw [Text.trim_trimEnd] at hlead
    have hpending : Text.trim (draftOf S).pending ≠ [] := by
      intro hnil
      have hblank := Text.trimEnd_eq_nil_iff.mpr (Text.trim_eq_nil_iff.mp hnil)
      rw [nodes_of_cutAtEnd hcut, if_pos hblank, List.append_nil] at hne
      exact hne (draftOf_nodes S)
    have hhead : (Text.trim (leadingFragment S)).head? =
        (Text.trim (draftOf S).pending).head? := by
      rcases cutText_cases (draftOf S) with hstar | ⟨hsame, -⟩
      · rw [leadingFragment, hstar, Text.head?_trim_append hpending]
      · rw [leadingFragment, hsame]
    rw [hhead, Option.any_eq_false]
    exact fun c hc => Bool.not_eq_true _ ▸ hlead (draftOf_nodes S) rfl c hc

/-- What a pseudo-class cuts off becomes the first fragment, if it is a selector. -/
theorem cutBeforeExtended_draftOf (hS : Selector.ofText S = .ok ⟨[[.fragment f]]⟩)
    (hescape : endsInEscape S = false) :
    (draftOf S).cutBeforeExtended .top =
      match Css.Selector.ofText (Text.trim (leadingFragment S)) with
      | .ok _ => .ok ⟨[.fragment (leadingFragment S)], [], (draftOf S).afterElement⟩
      | .error cause => .error (.invalidFragment (Text.trim (leadingFragment S)) cause) := by
  have htext : (draftOf S).cutText = leadingFragment S := rfl
  rw [cutBeforeExtended_eq, htext, if_neg (leadingFragment_ne_nil S)]
  unfold Draft.addFragment
  dsimp only
  rw [not_isCombinator_leadingFragment hS hescape, Bool.and_false, draftOf_nodes,
    if_neg Bool.false_ne_true]
  cases Css.Selector.ofText (Text.trim (leadingFragment S)) <;> rfl

/-! ### Native texts with pseudo-classes behind them -/

/-- The pseudo-classes are read behind whatever the first of them cuts off. -/
theorem ofText_append_textual (hS : Selector.ofText S = .ok ⟨[[.fragment f]]⟩)
    (hescape : endsInEscape S = false) (hx : IsTextual x) {l : List (Name × Text)}
    (hl : ∀ y ∈ l, IsTextual y) :
    Selector.ofText (S ++ pseudosText (x :: l)) =
      match (draftOf S).cutBeforeExtended .top with
      | .ok cut => .ok ⟨[cut.nodes ++ (x :: l).map textualNode]⟩
      | .error cause => .error ⟨S ++ pseudosText (x :: l), cause⟩ := by
  obtain ⟨hstands, -⟩ := exists_stands_of_native hS hescape
  have hstart : Text.trimStart S ≠ [] := by
    obtain ⟨c, r, htrim, -⟩ := exists_trim_of_readAll (Selector.ofText_eq_ok.mp hS)
    intro hnil
    rw [Text.trim, hnil, Text.trimEnd_nil] at htrim
    exact List.cons_ne_nil _ _ htrim.symm
  have htrim : Text.trim (S ++ pseudosText (x :: l)) =
      Text.trimStart S ++ pseudosText (x :: l) := by
    rw [trim_append_pseudosText, Text.trimStart_append hstart]
  have hpieces := piecesIn_pseudos (isClosed_of_run hstands.run) hstands.escape
    hstands.heldIn_ne_colon (List.forall_mem_cons.mpr ⟨hx.fills, fun y hy => (hl y hy).fills⟩)
  have hread : readAll .top (S ++ pseudosText (x :: l)) =
      ((draftOf S).cutBeforeExtended .top).map fun cut =>
        [cut.nodes ++ (x :: l).map textualNode] := by
    rw [← hx.finish_pseudoPiece hl (draftOf_nodes S), readAll_eq, htrim]
    show finish .top ((piecesIn (Text.trimStart S ++ _)).foldlM _ _) = _
    rw [hpieces, List.foldlM_append, hstands.run]
    rfl
  rw [Selector.ofText_eq, hread]
  cases (draftOf S).cutBeforeExtended .top <;> rfl

/-- If what is cut off is a selector, the whole is one. -/
theorem ofText_textual (hS : Selector.ofText S = .ok ⟨[[.fragment f]]⟩)
    (hescape : endsInEscape S = false) (htakes : TakesPseudoClass S) (hx : IsTextual x)
    {l : List (Name × Text)} (hl : ∀ y ∈ l, IsTextual y) :
    Selector.ofText (S ++ pseudosText (x :: l)) =
      .ok ⟨[.fragment (leadingFragment S) :: (x :: l).map textualNode]⟩ := by
  obtain ⟨X, hX⟩ := htakes
  rw [ofText_append_textual hS hescape hx hl, cutBeforeExtended_draftOf hS hescape, Css.ofText_trim,
    hX]
  rfl

/-- A text takes a pseudo-class if it ends neither in a blank nor in a combinator. -/
theorem takesPseudoClass_of_getLast? (hS : Selector.ofText S = .ok ⟨[[.fragment f]]⟩)
    (hescape : endsInEscape S = false)
    (hlast : ∀ c ∈ S.getLast?, Text.isBlank c = false ∧ Css.isCombinator c = false) :
    TakesPseudoClass S := by
  have hseed : IsSeed S f := ⟨hS, fun c hc => (hlast c hc).1, hescape⟩
  obtain ⟨d, hrun, -, hpending, hne, hblank, X, hX⟩ := hseed.exists_run
  obtain ⟨hstands, -⟩ := exists_stands_of_native hS hescape
  obtain rfl : draftOf S = d :=
    congrArg Progress.draft (Except.ok.inj (hstands.run.symm.trans hrun))
  have hsame : f.getLast? = S.getLast? := by
    rw [← Text.getLast?_withoutBlanks hblank, ← Text.getLast?_withoutBlanks hseed.last,
      withoutBlanks_of_native rfl (Selector.ofText_eq_ok.mp hS)]
  have hclosed : Draft.isOpenEnded f = false := by
    rw [Draft.isOpenEnded, hsame, Option.any_eq_false]
    intro c hc
    have hspace : c ≠ ' ' := by
      rintro rfl
      exact absurd (hlast _ hc).1 (by decide)
    simp [hspace, (hlast c hc).2]
  refine ⟨X, ?_⟩
  rw [leadingFragment, Draft.cutText, hpending, hclosed, List.isEmpty_eq_false_iff.mpr hne,
    Bool.and_false, Bool.or_false, if_neg Bool.false_ne_true]
  exact hX

end Extended
end CosmeticFilter
