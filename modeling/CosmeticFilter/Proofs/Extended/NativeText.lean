import CosmeticFilter.Proofs.Extended.Reading

/-!
# Native text

A piece that is neither a comma nor an extended pseudo-class only adds its text to the pending text,
whatever has been read before it. So a selector without extensions is one fragment, the text of all
its pieces, and its second half behind an extended pseudo-class is the fragment of the same pieces.

* `Piece.IsNative`: the piece only adds its text;
* `Progress.IsMarked`: something else has been read; it stays in what is read;
* `foldlM_cases`: what is read of pieces is marked, or all of them are native;
* `isNative_of_step`: what a piece does that spells no extended pseudo-class, it does everywhere;
* `isNative_of_readAll`, `native_of_readAll`: a selector without extensions;
* `GoesOn`: the same pieces add the same text behind an extended pseudo-class.
-/

namespace CosmeticFilter
namespace Extended

variable {inner : BranchReader} {s : Scope}

/-! ### Pieces that only add text -/

/-- An argument with its brackets. -/
def Argument.text : Argument → Text
  | absent => []
  | given content => '(' :: content ++ [')']
  | unclosed => []

/-- The text that a piece adds, a space for a blank. -/
def Piece.text : Piece → Text
  | verbatim t => t
  | space => [' ']
  | comma => []
  | pseudoClass name argument => ':' :: name ++ argument.text
  | pseudoElement name argument => ':' :: ':' :: name ++ argument.text
  | attributeTest content => '[' :: content ++ [']']
  | unbalanced => []
  | unclosedQuote _ => []

/-- A pseudo-element is read with the piece. -/
def Piece.isElement : Piece → Bool
  | pseudoClass name _ => Css.isLegacyPseudoElement name
  | pseudoElement _ _ => true
  | _ => false

/-- The extended pseudo-class that a piece spells. -/
def Piece.name? : Piece → Option Name
  | pseudoClass name _ => Name.ofText? name
  | attributeTest content =>
    (Draft.extendedBody? content).bind fun body => Name.ofText? (Draft.nameAndValue body).1
  | _ => none

/-- The branch with the text of a piece added to it. -/
def Draft.addText (d : Draft) (q : Piece) : Draft :=
  { (if q = .space then d.writeSpace else d.write q.text) with
    afterElement := d.afterElement || q.isElement }

/-- The same in the course of reading. -/
def Progress.addText (p : Progress) (q : Piece) : Progress := ⟨p.branches, p.draft.addText q⟩

/-- The piece only adds its text, whatever has been read before it. -/
def Piece.IsNative (inner : BranchReader) (s : Scope) (q : Piece) : Prop :=
  ∀ p : Progress, p.step inner s q = .ok (p.addText q)

/-- A comma or an extended pseudo-class has been read. -/
def Progress.IsMarked (p : Progress) : Prop :=
  p.branches ≠ [] ∨ ∃ n ∈ p.draft.nodes, n.isFragment = false

theorem writeSpace_afterElement (d : Draft) : d.writeSpace.afterElement = d.afterElement := by
  unfold Draft.writeSpace
  split <;> rfl

theorem writeSpace_nodes (d : Draft) : d.writeSpace.nodes = d.nodes := by
  unfold Draft.writeSpace
  split <;> rfl

@[simp] theorem addText_nodes (d : Draft) (q : Piece) : (d.addText q).nodes = d.nodes := by
  unfold Draft.addText
  split
  · exact writeSpace_nodes d
  · rfl

theorem isNative_verbatim (t : Text) : (Piece.verbatim t).IsNative inner s := by
  intro p
  simp only [Progress.step, Progress.addText, Draft.addText, Piece.isElement, Bool.or_false,
    Piece.text, reduceCtorEq, if_false]
  rfl

theorem isNative_space : Piece.space.IsNative inner s := by
  intro p
  simp only [Progress.step, Progress.addText, Draft.addText, Piece.isElement, Bool.or_false,
    if_true]
  rw [← writeSpace_afterElement p.draft]

theorem isNative_pseudoClass {name : Text} {argument : Argument} (hname : Name.ofText? name = none)
    (hknown : Css.isPseudoClass name = true) (hargument : argument ≠ .unclosed) :
    (Piece.pseudoClass name argument).IsNative inner s := by
  intro p
  cases argument with
  | unclosed => exact absurd rfl hargument
  | absent =>
    simp [Progress.step, Draft.addPseudoClass, hname, hknown, Draft.writeArgument, Except.map,
      Progress.addText, Draft.addText, Piece.text, Argument.text, Draft.write, Piece.isElement]
  | given content =>
    simp [Progress.step, Draft.addPseudoClass, hname, hknown, Draft.writeArgument, Except.map,
      Progress.addText, Draft.addText, Piece.text, Argument.text, Draft.write, Piece.isElement]

theorem isNative_pseudoElement {name : Text} {argument : Argument}
    (hscoped : ∀ content, argument = .given content → Draft.holdsScoped content = false)
    (hargument : argument ≠ .unclosed) : (Piece.pseudoElement name argument).IsNative inner s := by
  intro p
  cases argument with
  | unclosed => exact absurd rfl hargument
  | absent =>
    simp [Progress.step, Draft.addPseudoElement, Draft.writeArgument, Except.map,
      Progress.addText, Draft.addText, Piece.text, Argument.text, Draft.write, Piece.isElement]
  | given content =>
    simp [Progress.step, Draft.addPseudoElement, hscoped content rfl, Draft.writeArgument,
      Except.map, Progress.addText, Draft.addText, Piece.text, Argument.text, Draft.write,
      Piece.isElement]

theorem isNative_attributeTest {content : Text} (hbody : Draft.extendedBody? content = none) :
    (Piece.attributeTest content).IsNative inner s := by
  intro p
  simp [Progress.step, Draft.addAttribute, hbody, Except.map, Progress.addText, Draft.addText,
    Piece.text, Draft.write, Piece.isElement]

/-- An extended pseudo-class is added where it may stand, behind what was pending. -/
theorem addExtended_eq_ok {d d' : Draft} {name : Name} {argument : Text} :
    d.addExtended inner s name argument = .ok d' ↔
      d.checkPlacement s name = .ok () ∧
        (name.requiresArgument && Text.isAllBlank argument) = false ∧
        ∃ cut node, d.cutBeforeExtended s = .ok cut ∧
          Draft.nodeOf inner s name argument = .ok node ∧
          d' = { cut with nodes := cut.nodes ++ [node] } := by
  unfold Draft.addExtended
  constructor
  · intro h
    obtain ⟨⟨⟩, hplace, h⟩ := Outcome.bind_eq_ok.mp h
    split at h
    · exact absurd h (by simp [throw, throwThe, MonadExceptOf.throw, bind, Except.bind])
    · rename_i hargument
      obtain ⟨-, -, h⟩ := Outcome.bind_eq_ok.mp h
      obtain ⟨cut, hcut, h⟩ := Outcome.bind_eq_ok.mp h
      obtain ⟨node, hnode, h⟩ := Outcome.bind_eq_ok.mp h
      exact ⟨hplace, Bool.not_eq_true _ ▸ hargument, cut, node, hcut, hnode,
        (Except.ok.inj h).symm⟩
  · rintro ⟨hplace, hargument, cut, node, hcut, hnode, rfl⟩
    rw [hplace, hargument, hcut, hnode]
    rfl

/-- A fragment is added if it is a native selector and starts with no combinator in vain. -/
theorem addFragment_eq_ok {d d' : Draft} {t : Text} :
    d.addFragment s t = .ok d' ↔
      (d.nodes.isEmpty && !s.mayLead && (Text.trim t).head?.any Css.isCombinator) = false ∧
        (∃ S, Css.Selector.ofText (Text.trim t) = .ok S) ∧
        d' = { d with nodes := d.nodes ++ [.fragment t], pending := [] } := by
  unfold Draft.addFragment
  constructor
  · intro h
    simp only at h
    split at h
    · exact absurd h (by simp)
    · rename_i hlead
      split at h
      · exact absurd h (by simp)
      · rename_i S hread
        exact ⟨Bool.not_eq_true _ ▸ hlead, ⟨S, hread⟩, (Except.ok.inj h).symm⟩
  · rintro ⟨hlead, ⟨S, hread⟩, rfl⟩
    simp only [hlead, hread, Bool.false_eq_true, if_false]

theorem nodes_of_addFragment {d d' : Draft} {t : Text} (h : d.addFragment s t = .ok d') :
    d'.nodes = d.nodes ++ [.fragment t] := by
  obtain ⟨-, -, rfl⟩ := addFragment_eq_ok.mp h
  rfl

theorem isFragment_of_nodeOf {name : Name} {argument : Text} {n : Node}
    (h : Draft.nodeOf inner s name argument = .ok n) : n.isFragment = false := by
  unfold Draft.nodeOf at h
  split at h
  · split at h
    · rw [← Except.ok.inj h]
      rfl
    · exact absurd h (by simp)
  · obtain ⟨branches, -, rfl⟩ := Outcome.map_eq_ok.mp h
    rfl

/-- An extended pseudo-class stays among the nodes. -/
theorem exists_of_addExtended {d d' : Draft} {name : Name} {argument : Text}
    (h : d.addExtended inner s name argument = .ok d') :
    ∃ n ∈ d'.nodes, n.isFragment = false := by
  obtain ⟨-, -, cut, node, -, hnode, rfl⟩ := addExtended_eq_ok.mp h
  exact ⟨node, List.mem_append_right _ (List.mem_singleton_self _), isFragment_of_nodeOf hnode⟩

/-- A piece that is read, is no comma and spells no extended pseudo-class only adds its text,
wherever it stands. -/
theorem isNative_of_step {p p' : Progress} {q : Piece} (h : p.step inner s q = .ok p')
    (hcomma : q ≠ .comma) (hname : q.name? = none) {inner' : BranchReader} {s' : Scope} :
    q.IsNative inner' s' := by
  cases q with
  | verbatim t => exact isNative_verbatim t
  | space => exact isNative_space
  | comma => exact absurd rfl hcomma
  | pseudoClass name argument =>
    obtain ⟨d, hadd, -⟩ := Outcome.map_eq_ok.mp h
    have hname : Name.ofText? name = none := hname
    unfold Draft.addPseudoClass at hadd
    rw [hname] at hadd
    simp only at hadd
    split at hadd
    · rename_i hknown
      refine isNative_pseudoClass hname hknown ?_
      rintro rfl
      exact absurd hadd (by simp [Draft.writeArgument])
    · exact absurd hadd (by simp)
  | pseudoElement name argument =>
    obtain ⟨d, hadd, -⟩ := Outcome.map_eq_ok.mp h
    unfold Draft.addPseudoElement at hadd
    refine isNative_pseudoElement ?_ ?_
    · rintro content rfl
      by_contra hscoped
      rw [Bool.not_eq_false] at hscoped
      exact absurd hadd (by simp [hscoped])
    · rintro rfl
      exact absurd hadd (by simp [Draft.writeArgument])
  | attributeTest content =>
    obtain ⟨d, hadd, -⟩ := Outcome.map_eq_ok.mp h
    unfold Draft.addAttribute at hadd
    cases hbody : Draft.extendedBody? content with
    | none => exact isNative_attributeTest hbody
    | some body =>
      have hname : Name.ofText? (Draft.nameAndValue body).1 = none := by
        rw [Piece.name?, hbody] at hname
        exact hname
      rw [hbody] at hadd
      simp only [hname] at hadd
      exact absurd hadd (by simp)
  | unbalanced => exact absurd h (by simp [Progress.step])
  | unclosedQuote q => exact absurd h (by simp [Progress.step])

/-- A piece that spells an extended pseudo-class adds it. -/
theorem exists_addExtended_of_step {p p' : Progress} {q : Piece} (h : p.step inner s q = .ok p')
    {name : Name} (hname : q.name? = some name) :
    ∃ argument d, p.draft.addExtended inner s name argument = .ok d ∧ p' = ⟨p.branches, d⟩ := by
  cases q with
  | verbatim t => exact absurd hname (by simp [Piece.name?])
  | space => exact absurd hname (by simp [Piece.name?])
  | comma => exact absurd hname (by simp [Piece.name?])
  | pseudoElement name argument => exact absurd hname (by simp [Piece.name?])
  | unbalanced => exact absurd hname (by simp [Piece.name?])
  | unclosedQuote q => exact absurd hname (by simp [Piece.name?])
  | pseudoClass text argument =>
    obtain ⟨d, hadd, rfl⟩ := Outcome.map_eq_ok.mp h
    have hname : Name.ofText? text = some name := hname
    unfold Draft.addPseudoClass at hadd
    rw [hname] at hadd
    cases argument with
    | absent => exact ⟨[], d, hadd, rfl⟩
    | given content => exact ⟨content, d, hadd, rfl⟩
    | unclosed => exact absurd hadd (by simp)
  | attributeTest content =>
    obtain ⟨d, hadd, rfl⟩ := Outcome.map_eq_ok.mp h
    unfold Draft.addAttribute at hadd
    cases hbody : Draft.extendedBody? content with
    | none => exact absurd hname (by simp [Piece.name?, hbody])
    | some body =>
      have hname : Name.ofText? (Draft.nameAndValue body).1 = some name := by
        rw [Piece.name?, hbody] at hname
        exact hname
      rw [hbody] at hadd
      simp only [hname] at hadd
      exact ⟨_, d, hadd, rfl⟩

/-- What one piece does: it adds its text, it completes the branch, or it adds the extended
pseudo-class that it spells. -/
theorem step_named {p p' : Progress} {q : Piece} (h : p.step inner s q = .ok p') :
    (q.name? = none ∧ q.IsNative inner s ∧ p' = p.addText q) ∨
    (q = .comma ∧ ∃ branches, p.endBranch s = .ok branches ∧ p' = ⟨branches, .empty⟩) ∨
    ∃ name argument d, q.name? = some name ∧
      p.draft.addExtended inner s name argument = .ok d ∧ p' = ⟨p.branches, d⟩ := by
  by_cases hcomma : q = .comma
  · subst hcomma
    obtain ⟨branches, hend, rfl⟩ := Outcome.map_eq_ok.mp h
    exact Or.inr (Or.inl ⟨rfl, branches, hend, rfl⟩)
  · cases hname : q.name? with
    | none =>
      have hq : q.IsNative inner s := isNative_of_step h hcomma hname
      exact Or.inl ⟨rfl, hq, Except.ok.inj (h.symm.trans (hq p))⟩
    | some name =>
      obtain ⟨argument, d, hadd⟩ := exists_addExtended_of_step h hname
      exact Or.inr (Or.inr ⟨name, argument, d, rfl, hadd⟩)

/-- The same, whatever the piece spells. -/
theorem step_inversion {p p' : Progress} {q : Piece} (h : p.step inner s q = .ok p') :
    (q.IsNative inner s ∧ p' = p.addText q) ∨
    (q = .comma ∧ ∃ branches, p.endBranch s = .ok branches ∧ p' = ⟨branches, .empty⟩) ∨
    ∃ name argument d, p.draft.addExtended inner s name argument = .ok d ∧
      p' = ⟨p.branches, d⟩ := by
  rcases step_named h with ⟨-, hnative⟩ | hcomma | ⟨name, argument, d, -, hadd⟩
  · exact Or.inl hnative
  · exact Or.inr (Or.inl hcomma)
  · exact Or.inr (Or.inr ⟨name, argument, d, hadd⟩)

/-- A branch is completed behind the fragment at its end, if there is one, and it is not empty. -/
theorem endBranch_eq_ok {p : Progress} {branches : List (List Node)} :
    p.endBranch s = .ok branches ↔
      ∃ d, p.draft.cutAtEnd s = .ok d ∧ d.nodes ≠ [] ∧ branches = p.branches ++ [d.nodes] := by
  unfold Progress.endBranch
  cases hcut : p.draft.cutAtEnd s with
  | error e => simp
  | ok d =>
    cases hnodes : d.nodes with
    | nil => simp [hnodes]
    | cons n r =>
      simp only [hnodes, List.isEmpty_cons, Bool.false_eq_true, if_false, Except.ok.injEq,
        exists_eq_left', ne_eq, reduceCtorEq, not_false_eq_true, true_and]
      exact eq_comm

/-- A piece leaves a mark, or it only adds its text. -/
theorem step_cases {p p' : Progress} {q : Piece} (h : p.step inner s q = .ok p') :
    p'.IsMarked ∨ q.IsNative inner s := by
  rcases step_inversion h with ⟨hq, -⟩ | ⟨-, branches, hend, rfl⟩ | ⟨name, argument, d, hadd, rfl⟩
  · exact Or.inr hq
  · obtain ⟨d, -, -, rfl⟩ := endBranch_eq_ok.mp hend
    exact Or.inl (Or.inl (List.append_ne_nil_of_right_ne_nil _ (List.cons_ne_nil _ _)))
  · exact Or.inl (Or.inr (exists_of_addExtended hadd))

theorem isMarked_addText {p : Progress} (h : p.IsMarked) (q : Piece) : (p.addText q).IsMarked := by
  rcases h with h | ⟨n, hn, hfragment⟩
  · exact Or.inl h
  · refine Or.inr ⟨n, ?_, hfragment⟩
    rw [Progress.addText, addText_nodes]
    exact hn

/-! ### Runs and ends -/

/-- What is read of pieces is marked, or all of them only add their text. -/
theorem foldlM_cases {p p' : Progress} {qs : List Piece}
    (h : qs.foldlM (Progress.step inner s) p = .ok p') :
    p'.IsMarked ∨ (¬ p.IsMarked ∧ ∀ q ∈ qs, q.IsNative inner s) := by
  induction qs generalizing p with
  | nil =>
    obtain rfl := Except.ok.inj h
    by_cases hp : p.IsMarked
    · exact Or.inl hp
    · exact Or.inr ⟨hp, fun q hq => absurd hq List.not_mem_nil⟩
  | cons q r ih =>
    obtain ⟨mid, hmid, h⟩ := foldlM_cons_eq_ok.mp h
    rcases ih h with hmarked | ⟨hunmarked, hr⟩
    · exact Or.inl hmarked
    · rcases step_cases hmid with hmarked | hq
      · exact absurd hmarked hunmarked
      · refine Or.inr ⟨fun hp => hunmarked ?_, fun q' hq' => ?_⟩
        · obtain rfl := Except.ok.inj ((hq p).symm.trans hmid)
          exact isMarked_addText hp q
        · rcases List.mem_cons.mp hq' with rfl | hq'
          · exact hq
          · exact hr q' hq'

theorem foldlM_of_isNative {qs : List Piece} (h : ∀ q ∈ qs, q.IsNative inner s) (p : Progress) :
    qs.foldlM (Progress.step inner s) p = .ok ⟨p.branches, qs.foldl Draft.addText p.draft⟩ := by
  induction qs generalizing p with
  | nil => rfl
  | cons q r ih =>
    rw [List.foldlM_cons, h q (List.mem_cons_self ..) p]
    exact ih (fun q' hq' => h q' (List.mem_cons_of_mem _ hq')) _

theorem foldl_addText_nodes (qs : List Piece) (d : Draft) :
    (qs.foldl Draft.addText d).nodes = d.nodes := by
  induction qs generalizing d with
  | nil => rfl
  | cons q r ih => exact (ih _).trans (addText_nodes d q)

theorem nodes_of_cutAtEnd {d d' : Draft} (h : d.cutAtEnd s = .ok d') :
    d'.nodes = d.nodes ++
      if Text.trimEnd d.pending = [] then [] else [.fragment (Text.trimEnd d.pending)] := by
  unfold Draft.cutAtEnd at h
  simp only at h
  split at h
  · rename_i hnil
    rw [← Except.ok.inj h, if_pos hnil, List.append_nil]
  · rename_i hne
    rw [if_neg hne]
    split at h
    · exact absurd h (by simp)
    · split at h
      · exact absurd h (by simp)
      · exact nodes_of_addFragment h

/-- A mark is seen in the branches. -/
theorem not_native_of_isMarked {p : Progress} (hp : p.IsMarked) {g : Text} :
    p.endBranch s ≠ .ok [[.fragment g]] := by
  intro h
  unfold Progress.endBranch at h
  split at h
  · exact absurd h (by simp)
  · rename_i d hcut
    split at h
    · exact absurd h (by simp)
    · have heq := Except.ok.inj h
      rcases hp with hbranches | ⟨n, hn, hfragment⟩
      · obtain ⟨b, r, hcons⟩ := List.exists_cons_of_ne_nil hbranches
        rw [hcons, List.cons_append] at heq
        exact absurd (List.cons.inj heq).2 (List.append_ne_nil_of_right_ne_nil _
          (List.cons_ne_nil _ _))
      · have hmem : n ∈ d.nodes := by
          rw [nodes_of_cutAtEnd hcut]
          exact List.mem_append_left _ hn
        have hd : d.nodes = [.fragment g] := by
          have hlength := congrArg List.length heq
          rw [List.length_append, List.length_singleton, List.length_singleton] at hlength
          rw [List.length_eq_zero_iff.mp (by omega : p.branches.length = 0), List.nil_append] at heq
          exact (List.cons.inj heq).1
        rw [hd, List.mem_singleton] at hmem
        rw [hmem] at hfragment
        exact absurd hfragment (by simp [Node.isFragment])

/-- What is known of a fragment that has been added. -/
theorem of_addFragment {d d' : Draft} {t : Text} (h : d.addFragment s t = .ok d') :
    (∃ S, Css.Selector.ofText (Text.trim t) = .ok S) ∧
      (d.nodes = [] → s.mayLead = false →
        ∀ c ∈ (Text.trim t).head?, Css.isCombinator c = false) := by
  obtain ⟨hlead, hread, -⟩ := addFragment_eq_ok.mp h
  refine ⟨hread, fun hnodes hscope c hc => ?_⟩
  rw [hnodes, hscope, hc] at hlead
  simpa using hlead

/-- A selector without extensions: all of its pieces only add their text, and what is pending then
is added as its fragment. -/
theorem isNative_of_readAll {t g : Text} (h : readAll s t = .ok [[.fragment g]]) :
    (∀ q ∈ pieces t, q.IsNative readAll s) ∧
      g = Text.trimEnd ((pieces t).foldl Draft.addText .empty).pending ∧ g ≠ [] ∧
      ∃ d', ((pieces t).foldl Draft.addText .empty).addFragment s g = .ok d' := by
  rw [readAll_eq] at h
  have hpieces : piecesFrom .nothing (chunks (Text.trim t)) = pieces t := (piecesOf_eq _).symm
  rw [run, hpieces] at h
  cases hrun : (pieces t).foldlM (Progress.step readAll s) .start with
  | error e =>
    rw [hrun] at h
    exact absurd h (by simp [finish])
  | ok p =>
    rw [hrun] at h
    rcases foldlM_cases hrun with hmarked | ⟨-, hnative⟩
    · exact absurd h (not_native_of_isMarked hmarked)
    · rw [foldlM_of_isNative hnative] at hrun
      obtain rfl := Except.ok.inj hrun
      have hnodes := foldl_addText_nodes (pieces t) .empty
      simp only [finish, Progress.endBranch, Progress.start] at h
      generalize (pieces t).foldl Draft.addText .empty = d at h hnodes ⊢
      have hnodes : d.nodes = [] := hnodes
      cases hcut : d.cutAtEnd s with
      | error e =>
        rw [hcut] at h
        exact absurd h (by simp)
      | ok d' =>
        rw [hcut] at h
        simp only at h
        split at h
        · exact absurd h (by simp)
        · have heq : d'.nodes = [.fragment g] := (List.cons.inj (Except.ok.inj h)).1
          rw [nodes_of_cutAtEnd hcut, hnodes, List.nil_append] at heq
          split at heq
          · exact absurd heq (by simp)
          · rename_i hne
            obtain rfl := Node.fragment.inj (List.cons.inj heq).1
            unfold Draft.cutAtEnd at hcut
            simp only [if_neg hne] at hcut
            split at hcut
            · exact absurd hcut (by simp)
            · split at hcut
              · exact absurd hcut (by simp)
              · exact ⟨hnative, rfl, hne, d', hcut⟩

/-- Where no combinator may stand in front, the fragment starts with none. -/
theorem native_of_readAll {t g : Text} (hs : s.mayLead = false)
    (h : readAll s t = .ok [[.fragment g]]) :
    (∀ q ∈ pieces t, q.IsNative readAll s) ∧
      g = Text.trimEnd ((pieces t).foldl Draft.addText .empty).pending ∧ g ≠ [] ∧
      (∃ S, Css.Selector.ofText (Text.trim g) = .ok S) ∧
      ∀ c ∈ (Text.trim g).head?, Css.isCombinator c = false := by
  obtain ⟨hnative, hg, hne, d', hadd⟩ := isNative_of_readAll h
  obtain ⟨hread, hlead⟩ := of_addFragment hadd
  exact ⟨hnative, hg, hne, hread, hlead (foldl_addText_nodes (pieces t) .empty) hs⟩

/-! ### Text behind other text -/

/-- The second branch has a node already, and is pending what the first one is pending behind
`f`. -/
structure GoesOn (f : Text) (d d' : Draft) : Prop where
  /-- The pending text of the first branch starts with `f`. -/
  pending : d.pending = f ++ d'.pending
  /-- The second branch has a node. -/
  nodes : d'.nodes ≠ []

theorem writeSpace_eq {d : Draft} (h : d.pending ≠ [] ∨ d.nodes ≠ []) :
    d.writeSpace = if d.pending.getLast? = some ' ' then d else d.write [' '] := by
  have hempty : (d.pending.isEmpty && d.nodes.isEmpty) = false := by
    rw [Bool.and_eq_false_iff, List.isEmpty_eq_false_iff, List.isEmpty_eq_false_iff]
    exact h
  unfold Draft.writeSpace
  rw [hempty, Bool.false_or]
  simp only [beq_iff_eq]

theorem GoesOn.addText {f : Text} (hne : f ≠ []) (hf : f.getLast? ≠ some ' ') {d d' : Draft}
    (h : GoesOn f d d') (q : Piece) : GoesOn f (d.addText q) (d'.addText q) := by
  refine ⟨?_, by rw [addText_nodes]; exact h.nodes⟩
  unfold Draft.addText
  split
  · have hlast : (f ++ d'.pending).getLast? = some ' ' ↔ d'.pending.getLast? = some ' ' := by
      by_cases hnil : d'.pending = []
      · rw [hnil, List.append_nil]
        exact iff_of_false hf (by simp)
      · rw [List.getLast?_append_of_ne_nil f hnil]
    have hpending : d.pending ≠ [] := by
      rw [h.pending]
      exact List.append_ne_nil_of_left_ne_nil hne _
    rw [writeSpace_eq (Or.inl hpending), writeSpace_eq (Or.inr h.nodes), h.pending]
    by_cases hspace : d'.pending.getLast? = some ' '
    · rw [if_pos (hlast.mpr hspace), if_pos hspace]
      exact h.pending
    · rw [if_neg (fun heq => hspace (hlast.mp heq)), if_neg hspace]
      simp only [Draft.write, h.pending, List.append_assoc]
  · simp only [Draft.write, h.pending, List.append_assoc]

theorem GoesOn.foldl_addText {f : Text} (hne : f ≠ []) (hf : f.getLast? ≠ some ' ')
    {d d' : Draft} (h : GoesOn f d d') (qs : List Piece) :
    GoesOn f (qs.foldl Draft.addText d) (qs.foldl Draft.addText d') := by
  induction qs generalizing d d' with
  | nil => exact h
  | cons q r ih => exact ih (h.addText hne hf q)

end Extended
end CosmeticFilter
