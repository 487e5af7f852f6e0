import CosmeticFilter.Proofs.Extended.Placement
import CosmeticFilter.Proofs.Extended.WrittenBranch

/-!
# The text of a selector, read again

The text of a selector is read as the selector again, unless an escape or a quote gets another
meaning where the text has been put together. The first half of the proof is that branches have been
written; here is the second half, that written branches are read back from their texts.

* `Selector.isLegible`: every argument still fills its brackets, and so on;
* `Node.IsReread`: what it takes to read a node back;
* `AreWritten.reread`, `IsWrittenBranch.reread`: nodes and branches that are read back;
* `readAll_listText`: branches at every depth;
* `ofText_text`: selectors.
-/

namespace CosmeticFilter
namespace Extended

variable {inner : BranchReader} {s : Scope}

/-! ### Legible selectors -/

/-- Right behind the bracket that opens an argument. -/
def Inside.start : Inside := ⟨0, none, '('⟩

mutual

/-- The text of a node can be read back: the bracket that closes an argument is still the one behind
it, and in a fragment no pseudo-element has come by a scoped pseudo-class in its argument. -/
def Node.isLegible : Node → Bool
  | .fragment t => (piecesIn t).all fun q => !q.isHidden
  | .textual _ argument => decide (Inside.start.Fills argument)
  | .nested _ argument =>
    decide (Inside.start.Fills (Node.listText argument)) && listIsLegible argument

/-- The text of a branch can be read back. -/
def branchIsLegible : List Node → Bool
  | [] => true
  | n :: r => n.isLegible && branchIsLegible r

/-- The text of branches can be read back. A branch with others behind it does not end in a backslash
that would take the comma. -/
def listIsLegible : List (List Node) → Bool
  | [] => true
  | b :: r =>
    branchIsLegible b && (r.isEmpty || !endsInEscape (Node.branchText b)) && listIsLegible r

end

/-- The text of the selector can be read back. -/
def Selector.isLegible (s : Selector) : Bool := listIsLegible s.branches

theorem isLegible_of_mem {ns : List Node} (h : branchIsLegible ns = true) :
    ∀ n ∈ ns, n.isLegible = true := by
  induction ns with
  | nil => exact fun n hn => absurd hn List.not_mem_nil
  | cons m r ih =>
    rw [branchIsLegible, Bool.and_eq_true] at h
    intro n hn
    rcases List.mem_cons.mp hn with rfl | hn
    · exact h.1
    · exact ih h.2 n hn

theorem branchIsLegible_of_mem {bs : List (List Node)} (h : listIsLegible bs = true) :
    ∀ ns ∈ bs, branchIsLegible ns = true := by
  induction bs with
  | nil => exact fun ns hns => absurd hns List.not_mem_nil
  | cons b r ih =>
    rw [listIsLegible, Bool.and_eq_true, Bool.and_eq_true] at h
    intro ns hns
    rcases List.mem_cons.mp hns with rfl | hns
    · exact h.1.1
    · exact ih h.2 ns hns

/-! ### Texts of nodes -/

theorem branchText_append (ns ms : List Node) :
    Node.branchText (ns ++ ms) = Node.branchText ns ++ Node.branchText ms := by
  induction ns with
  | nil => rfl
  | cons n r ih =>
    rw [List.cons_append, Node.branchText, Node.branchText, ih, List.append_assoc]

theorem branchText_singleton (n : Node) : Node.branchText [n] = n.text := by
  rw [Node.branchText, Node.branchText, List.append_nil]

theorem branchText_optional (f : Text) :
    Node.branchText (if f = [] then [] else [.fragment f]) = f := by
  split
  · rename_i hnil
    rw [Node.branchText, hnil]
  · rw [branchText_singleton, Node.text]

theorem listText_singleton (b : List Node) : Node.listText [b] = Node.branchText b := by
  rw [Node.listText, Node.moreText, List.append_nil]

theorem listText_cons_cons (b c : List Node) (r : List (List Node)) :
    Node.listText (b :: c :: r) = Node.branchText b ++ ',' :: ' ' :: Node.listText (c :: r) := by
  rw [Node.listText, Node.moreText, Node.listText, List.append_assoc]
  rfl

/-- What stands between the brackets of a pseudo-class. -/
def Node.argumentText : Node → Text
  | fragment _ => []
  | textual _ argument => argument
  | nested _ argument => Node.listText argument

theorem text_of_name? {n : Node} {name : Name} (h : n.name? = some name) :
    n.text = ':' :: name.text ++ '(' :: n.argumentText ++ [')'] := by
  cases n with
  | fragment t => exact absurd h (by simp [Node.name?])
  | textual m a =>
    obtain rfl := Option.some_inj.mp h
    rw [Node.text, Node.argumentText]
  | nested m a =>
    obtain rfl := Option.some_inj.mp h
    rw [Node.text, Node.argumentText]

/-! ### Reading a pseudo-class back -/

/-- The node is read back from its text. -/
def Node.IsReread (inner : BranchReader) (s : Scope) : Node → Prop
  | fragment t => ∀ q ∈ piecesIn t, q.isHidden = false
  | textual _ argument => Inside.start.Fills argument
  | nested name argument =>
    Inside.start.Fills (Node.listText argument) ∧ Text.isAllBlank (Node.listText argument) = false ∧
      name.argumentKind (Node.listText argument) = .relative ∧
      inner (s.inside name) (Node.listText argument) = .ok argument

theorem isWord_name (name : Name) : IsWord name.text ∧ endsInEscape name.text = false := by
  cases name <;> decide +kernel

/-- The argument of a pseudo-class is the only one in its brackets. -/
theorem Node.IsReread.fills {n : Node} {name : Name} (h : n.IsReread inner s)
    (hname : n.name? = some name) : Inside.start.Fills n.argumentText := by
  cases n with
  | fragment t => exact absurd hname (by simp [Node.name?])
  | textual m a => exact h
  | nested m a => exact h.1

/-- The node of a pseudo-class is made of its printed argument too. -/
theorem Node.IsReread.nodeOf {n : Node} {name : Name} {argument : Text} (h : n.IsReread inner s)
    (hnode : Draft.nodeOf inner s name argument = .ok n)
    (hargument : (name.requiresArgument && Text.isAllBlank argument) = false) :
    Draft.nodeOf inner s name n.argumentText = .ok n ∧
      (name.requiresArgument && Text.isAllBlank n.argumentText) = false := by
  cases n with
  | fragment t => exact absurd (name?_of_nodeOf hnode) (by simp [Node.name?])
  | textual m a =>
    have heq : argument = a := by
      unfold Draft.nodeOf at hnode
      split at hnode
      · split at hnode
        · exact (Node.textual.inj (Except.ok.inj hnode)).2
        · exact absurd hnode (by simp)
      · obtain ⟨_, -, hnested⟩ := Outcome.map_eq_ok.mp hnode
        exact absurd hnested (by simp)
    rw [Node.argumentText, ← heq]
    exact ⟨heq ▸ hnode, hargument⟩
  | nested m a =>
    obtain rfl : m = name := Option.some_inj.mp (name?_of_nodeOf hnode)
    obtain ⟨-, hblank, hkind, hread⟩ := h
    rw [Node.argumentText]
    refine ⟨?_, by rw [hblank, Bool.and_false]⟩
    unfold Draft.nodeOf
    rw [hkind]
    simp only [hread]
    rfl

/-- The chunks of a pseudo-class: a colon, a word, and what the bracket behind it opens. -/
theorem chunks_pseudoClass {w : Text} (hword : IsWord w) (hescape : endsInEscape w = false)
    (u : Text) : chunks (':' :: (w ++ '(' :: u)) = .mark ':' :: .word w :: chunks ('(' :: u) := by
  rw [chunks_of_mark (by decide) (by decide), chunks_append, hword]
  · rfl
  · rw [hword]
    exact fun k hk => List.mem_singleton.mp hk ▸ rfl
  · exact hescape
  · exact fun _ _ _ => rfl

/-- The pieces of a pseudo-class behind text that ends outside groups. -/
theorem piecesIn_node {f : Text} (hclosed : ∀ k ∈ chunks f, k.isClosed = true)
    (hescape : endsInEscape f = false) (hcolon : heldIn f ≠ .colon) {n : Node} {name : Name}
    (hname : n.name? = some name) (hfills : Inside.start.Fills n.argumentText) (u : Text) :
    piecesIn (f ++ n.text ++ u) =
      piecesIn f ++ .pseudoClass name.text (.given n.argumentText) :: piecesIn u := by
  obtain ⟨hword, hword'⟩ := isWord_name name
  have hgroup : chunks ('(' :: (n.argumentText ++ ')' :: u)) =
      .group .parens n.argumentText true :: chunks u :=
    chunks_closed_group rfl ((Inside.fills_iff u).mp hfills)
  have hchunks : chunks (n.text ++ u) =
      .mark ':' :: .word name.text :: .group .parens n.argumentText true :: chunks u := by
    have htext : n.text ++ u = ':' :: (name.text ++ '(' :: (n.argumentText ++ ')' :: u)) := by
      rw [text_of_name? hname]
      simp only [List.cons_append, List.append_assoc, List.nil_append]
    rw [htext, chunks_pseudoClass hword hword', hgroup]
  have hall : chunks (f ++ (n.text ++ u)) = chunks f ++ chunks (n.text ++ u) :=
    chunks_append hclosed hescape fun _ _ _ => by rw [text_of_name? hname]; rfl
  rw [List.append_assoc, piecesIn_append hall, hchunks, piecesFrom, feed_colon hcolon,
    ← List.append_assoc, ← piecesIn_eq]
  rfl

/-! ### Reading nodes back -/

/-- A fragment is added whatever pseudo-elements have been read. -/
theorem addFragment_congr {ns : List Node} {f t : Text} {a : Bool} {d : Draft}
    (h : Draft.addFragment s ⟨ns, f, a⟩ t = .ok d) (b : Bool) :
    Draft.addFragment s ⟨ns, f, b⟩ t = .ok { d with afterElement := b } := by
  obtain ⟨hlead, hread, rfl⟩ := addFragment_eq_ok.mp h
  exact addFragment_eq_ok.mpr ⟨hlead, hread, rfl⟩

/-- Cutting in front of a pseudo-class does not depend on the pseudo-elements that have been read. -/
theorem cutBeforeExtended_congr {ns : List Node} {f : Text} {a : Bool} {cut : Draft}
    (h : Draft.cutBeforeExtended s ⟨ns, f, a⟩ = .ok cut) (b : Bool) :
    Draft.cutBeforeExtended s ⟨ns, f, b⟩ = .ok { cut with afterElement := b } := by
  rw [cutBeforeExtended_eq] at h ⊢
  have htext : Draft.cutText ⟨ns, f, b⟩ = Draft.cutText ⟨ns, f, a⟩ := rfl
  rw [htext]
  split at h
  · rename_i hnil
    rw [if_pos hnil, ← Except.ok.inj h]
  · rename_i hne
    rw [if_neg hne]
    exact addFragment_congr h b

/-- The nodes after a cut in front of a pseudo-class that adds no asterisk. -/
theorem nodes_of_cutBeforeExtended {ns : List Node} {f : Text} {a : Bool} {cut : Draft}
    (hcut : Draft.cutText ⟨ns, f, a⟩ = f) (h : Draft.cutBeforeExtended s ⟨ns, f, a⟩ = .ok cut) :
    cut.nodes = ns ++ if f = [] then [] else [.fragment f] := by
  have heq := congrArg Draft.nodes (cutBeforeExtended_eq_ok h)
  rw [hcut] at heq
  exact heq

/-- The pieces of a fragment that is read back, if there is one. -/
theorem not_hidden_of_isReread {ns : List Node} {f : Text}
    (h : ∀ n ∈ ns ++ (if f = [] then [] else [.fragment f]), n.IsReread inner s) :
    ∀ q ∈ piecesIn f, q.isHidden = false := by
  by_cases hnil : f = []
  · rw [hnil, piecesIn_nil]
    exact fun q hq => absurd hq List.not_mem_nil
  · rw [if_neg hnil] at h
    exact h (.fragment f) (List.mem_append_right _ (List.mem_singleton_self _))

theorem ne_nil_of_isEmpty {ns : List Node} (h : (!ns.isEmpty) = true) : ns ≠ [] := by
  rintro rfl
  exact absurd h (by simp)

/-- Written pieces, none of them hidden, are read as their text. -/
theorem IsWritten.foldlM {b : Bool} {f : Text} (hf : IsWritten inner s b f)
    (hhidden : ∀ q ∈ piecesIn f, q.isHidden = false) {ns : List Node} (hb : b = true → ns ≠ [])
    (a : Bool) (branches : List (List Node)) :
    (piecesIn f).foldlM (Progress.step inner s) ⟨branches, ⟨ns, [], a⟩⟩ =
      .ok ⟨branches, ⟨ns, f, a || (piecesIn f).any Piece.isElement⟩⟩ := by
  have hnative : ∀ q ∈ piecesIn f, q.IsNative inner s := by
    intro q hq
    refine (hf.pieces q hq).resolve_left ?_
    rw [hhidden q hq]
    exact Bool.false_ne_true
  rw [foldlM_of_isNative hnative]
  have hnodes := foldl_addText_nodes (piecesIn f) ⟨ns, [], a⟩
  have hpending := hf.pending (d := ⟨ns, [], a⟩) rfl hb
  have helement := foldl_addText_afterElement (piecesIn f) ⟨ns, [], a⟩
  generalize (piecesIn f).foldl Draft.addText ⟨ns, [], a⟩ = d at hnodes hpending helement
  obtain ⟨_, _, _⟩ := d
  simp only at hnodes hpending helement
  rw [hnodes, hpending, helement]

/-- An extended pseudo-class is read back behind its text. -/
theorem foldlM_extended {ns : List Node} {f : Text} {a : Bool} {name : Name} {argument : Text}
    {d : Draft} (hf : IsWritten inner s (!ns.isEmpty) f)
    (helement : (piecesIn f).any Piece.isElement = true → a = true)
    (hcut : Draft.cutText ⟨ns, f, a⟩ = f)
    (hadd : Draft.addExtended inner s ⟨ns, f, a⟩ name argument = .ok d)
    (hd : ∀ n ∈ d.nodes, n.IsReread inner s) :
    ∃ n, d.nodes = ns ++ (if f = [] then [] else [.fragment f]) ++ [n] ∧ n.name? = some name ∧
      ∀ (branches : List (List Node)) (a' : Bool), (a' = true → a = true) →
        ∃ a'', (a'' = true → a = true) ∧
          (piecesIn f ++ [Piece.pseudoClass name.text (.given n.argumentText)]).foldlM
            (Progress.step inner s) ⟨branches, ⟨ns, [], a'⟩⟩ =
              .ok ⟨branches, ⟨d.nodes, [], a''⟩⟩ := by
  obtain ⟨hplace, hargument, cut, n, hbefore, hnode, rfl⟩ := addExtended_eq_ok.mp hadd
  have hnodes := nodes_of_cutBeforeExtended hcut hbefore
  have hhidden := not_hidden_of_isReread fun m hm => hd m (List.mem_append_left _ (hnodes ▸ hm))
  have hread : n.IsReread inner s := hd n (List.mem_append_right _ (List.mem_singleton_self n))
  refine ⟨n, by rw [hnodes], name?_of_nodeOf hnode, fun branches a' ha => ?_⟩
  have ha' : (a' || (piecesIn f).any Piece.isElement) = true → a = true := fun h =>
    (Bool.or_eq_true_iff.mp h).elim ha helement
  have hpieces := hf.foldlM hhidden ne_nil_of_isEmpty a' branches
  generalize (a' || (piecesIn f).any Piece.isElement) = a'' at ha' hpieces
  refine ⟨a'', ha', ?_⟩
  have hagain : Draft.addExtended inner s ⟨ns, f, a''⟩ name n.argumentText =
      .ok ⟨cut.nodes ++ [n], [], a''⟩ := by
    obtain ⟨hnode', hargument'⟩ := hread.nodeOf hnode hargument
    obtain ⟨hscoped, hothers⟩ := checkPlacement_eq_ok.mp hplace
    refine addExtended_eq_ok.mpr ⟨checkPlacement_eq_ok.mpr ⟨?_, hothers⟩, hargument', _, n,
      cutBeforeExtended_congr hbefore a'', hnode', ?_⟩
    · cases ha'' : a'' with
      | false => rfl
      | true =>
        rw [ha' ha''] at hscoped
        exact hscoped
    · rw [cutBeforeExtended_eq_ok hbefore]
  rw [List.foldlM_append, hpieces]
  show Progress.step inner s ⟨branches, ⟨ns, f, a''⟩⟩ _ >>= _ = _
  rw [Progress.step, Draft.addPseudoClass, Name.ofText?_text]
  simp only [hagain]
  rfl

/-- The text in front of a pseudo-class is a native selector, if there is any. -/
theorem heldIn_ne_colon_of_addExtended {ns : List Node} {f : Text} {a b : Bool} {name : Name}
    {argument : Text} {d : Draft} (hf : IsWritten inner s b f)
    (hcut : Draft.cutText ⟨ns, f, a⟩ = f)
    (hadd : Draft.addExtended inner s ⟨ns, f, a⟩ name argument = .ok d) : heldIn f ≠ .colon := by
  obtain ⟨-, -, cut, -, hbefore, -, -⟩ := addExtended_eq_ok.mp hadd
  rw [cutBeforeExtended_eq, hcut] at hbefore
  split at hbefore
  · rename_i hnil
    rw [hnil, heldIn_nil]
    simp
  · obtain ⟨⟨S, hread⟩, -⟩ := of_addFragment hbefore
    exact heldIn_ne_colon_of_ofText hf.closed ((Css.ofText_trim f).symm.trans hread)

/-- No backslash takes the bracket behind a text that fills its brackets. -/
theorem Inside.Fills.endsInEscape {i : Inside} {t : Text} (h : i.Fills t) :
    endsInEscape t = false := by
  have hcontent := endsInEscape_groupContent_fst (g := .parens) (s := i) (t := t ++ [')'])
  rw [show groupContent .parens i (t ++ [')']) = (t, [')']) from h] at hcontent
  exact hcontent (List.cons_ne_nil _ _)

theorem endsInEscape_node {n : Node} {name : Name} (hname : n.name? = some name)
    (hfills : Inside.start.Fills n.argumentText) : endsInEscape n.text = false := by
  rw [text_of_name? hname]
  simp only [List.cons_append, List.append_assoc]
  rw [endsInEscape_cons (by decide), endsInEscape_append (isWord_name name).2,
    endsInEscape_cons (by decide), endsInEscape_append hfills.endsInEscape]
  rfl

/-- Written nodes are read back from their text, whatever text follows them. -/
theorem AreWritten.reread {ns : List Node} {a : Bool} (h : AreWritten inner s ns a)
    (hns : ∀ n ∈ ns, n.IsReread inner s) :
    endsInEscape (Node.branchText ns) = false ∧
      ∃ qs, (∀ u, piecesIn (Node.branchText ns ++ u) = qs ++ piecesIn u) ∧
        ∀ branches, ∃ a', (a' = true → a = true) ∧
          qs.foldlM (Progress.step inner s) ⟨branches, .empty⟩ = .ok ⟨branches, ⟨ns, [], a'⟩⟩ := by
  induction h with
  | nil => exact ⟨rfl, [], fun _ => rfl, fun _ => ⟨false, id, rfl⟩⟩
  | weaken _ ha ih =>
    obtain ⟨hescape, qs, hpieces, hread⟩ := ih hns
    refine ⟨hescape, qs, hpieces, fun branches => ?_⟩
    obtain ⟨a', ha', hrun⟩ := hread branches
    exact ⟨a', fun h => ha (ha' h), hrun⟩
  | @extended ns a f name argument d _ hf hescape helement hcut hadd ih =>
    obtain ⟨n, hnodes, hname, hread⟩ := foldlM_extended hf helement hcut hadd hns
    have hn : n.IsReread inner s := hns n (by
      rw [hnodes]
      exact List.mem_append_right _ (List.mem_singleton_self n))
    obtain ⟨hescape', qs, hpieces, hread'⟩ := ih fun m hm => hns m (by
      rw [hnodes, List.append_assoc]
      exact List.mem_append_left _ hm)
    have htext : Node.branchText d.nodes = Node.branchText ns ++ (f ++ n.text) := by
      rw [hnodes, branchText_append, branchText_append, branchText_optional, branchText_singleton,
        List.append_assoc]
    rw [htext]
    refine ⟨?_, qs ++ (piecesIn f ++ [.pseudoClass name.text (.given n.argumentText)]), fun u => ?_,
      fun branches => ?_⟩
    · rw [endsInEscape_append hescape', endsInEscape_append hescape]
      exact endsInEscape_node hname (hn.fills hname)
    · rw [List.append_assoc, hpieces, piecesIn_node hf.closed hescape
        (heldIn_ne_colon_of_addExtended hf hcut hadd) hname (hn.fills hname)]
      simp only [List.append_assoc, List.singleton_append]
    · obtain ⟨a', ha', hrun⟩ := hread' branches
      obtain ⟨a'', ha'', hrun'⟩ := hread branches a' ha'
      refine ⟨a'', ha'', ?_⟩
      rw [List.foldlM_append, hrun]
      exact hrun'

/-! ### Reading branches back -/

/-- Cutting at the end does not depend on the pseudo-elements that have been read. -/
theorem cutAtEnd_congr {ns : List Node} {f : Text} {a : Bool} {d : Draft}
    (h : Draft.cutAtEnd s ⟨ns, f, a⟩ = .ok d) (b : Bool) :
    Draft.cutAtEnd s ⟨ns, f, b⟩ = .ok { d with afterElement := b } := by
  unfold Draft.cutAtEnd at h ⊢
  simp only at h ⊢
  split at h
  · rename_i hnil
    rw [if_pos hnil, ← Except.ok.inj h]
  · rename_i hne
    rw [if_neg hne]
    split at h
    · exact absurd h (by simp)
    · rename_i hremove
      rw [if_neg (show ¬ Draft.has ⟨ns, f, b⟩ .remove = true from hremove)]
      split at h
      · exact absurd h (by simp)
      · rename_i hxpath
        rw [if_neg (show ¬ Draft.has ⟨ns, f, b⟩ .xpath = true from hxpath)]
        exact addFragment_congr h b

/-- A written branch is read back from its text, at the end or in front of a comma. -/
theorem IsWrittenBranch.reread {ns : List Node} (h : IsWrittenBranch inner s ns)
    (hns : ∀ n ∈ ns, n.IsReread inner s) :
    (endsInEscape (Node.branchText ns) = false → ∀ u,
      piecesIn (Node.branchText ns ++ ',' :: u) =
        piecesIn (Node.branchText ns) ++ .comma :: piecesIn u) ∧
      ∀ branches, ∃ p, (piecesIn (Node.branchText ns)).foldlM (Progress.step inner s)
        ⟨branches, .empty⟩ = .ok p ∧ p.endBranch s = .ok (branches ++ [ns]) := by
  obtain ⟨ms, a, f, d, hms, hf, htrim, hcut, hne, rfl⟩ := h
  have hnodes := nodes_of_cutAtEnd hcut
  rw [htrim] at hnodes
  have hhidden := not_hidden_of_isReread fun m hm => hns m (hnodes ▸ hm)
  obtain ⟨hescape, qs, hpieces, hread⟩ := hms.reread fun m hm => hns m (by
    rw [hnodes]
    exact List.mem_append_left _ hm)
  have htext : Node.branchText d.nodes = Node.branchText ms ++ f := by
    rw [hnodes, branchText_append, branchText_optional]
  rw [htext, hpieces]
  refine ⟨fun hend u => ?_, fun branches => ?_⟩
  · rw [endsInEscape_append hescape] at hend
    have hcomma : isMark ',' = true ∧ Group.ofMark? ',' = none := by decide
    rw [List.append_assoc, hpieces,
      piecesIn_append_mark hf.closed hend hcomma.1 hcomma.2 (by decide),
      piecesIn_mark hcomma.1 hcomma.2 (by decide), List.append_assoc]
    rfl
  · obtain ⟨a', -, hrun⟩ := hread branches
    have hrun' := hf.foldlM hhidden ne_nil_of_isEmpty a' branches
    have hcut' := cutAtEnd_congr hcut (a' || (piecesIn f).any Piece.isElement)
    refine ⟨⟨branches, ⟨ms, f, a' || (piecesIn f).any Piece.isElement⟩⟩, ?_, ?_⟩
    · rw [List.foldlM_append, hrun]
      exact hrun'
    · exact endBranch_eq_ok.mpr ⟨_, hcut', hne, rfl⟩

/-! ### The ends of texts -/

/-- There is a text, and no blank at either end of it. -/
structure IsTrimmed (t : Text) : Prop where
  /-- There is a text. -/
  ne_nil : t ≠ []
  /-- Its first character. -/
  head? : ∀ c ∈ t.head?, Text.isBlank c = false
  /-- Its last character. -/
  getLast? : ∀ c ∈ t.getLast?, Text.isBlank c = false

theorem IsTrimmed.append {t u v : Text} (ht : IsTrimmed t) (hv : IsTrimmed v) :
    IsTrimmed (t ++ u ++ v) := by
  refine ⟨List.append_ne_nil_of_right_ne_nil _ hv.ne_nil, ?_, ?_⟩
  · rw [List.append_assoc, List.head?_append_of_ne_nil _ ht.ne_nil]
    exact ht.head?
  · rw [List.getLast?_append_of_ne_nil _ hv.ne_nil]
    exact hv.getLast?

theorem IsTrimmed.trim_eq {t : Text} (h : IsTrimmed t) : Text.trim t = t :=
  Text.trim_eq_self h.head? h.getLast?

theorem isTrimmed_of_name? {n : Node} {name : Name} (h : n.name? = some name) :
    IsTrimmed n.text := by
  rw [text_of_name? h]
  refine ⟨by simp, fun c hc => ?_, fun c hc => ?_⟩
  · rw [← Option.some_inj.mp hc]
    decide
  · rw [List.getLast?_concat] at hc
    rw [← Option.some_inj.mp hc]
    decide

/-- Written nodes start with a fragment and end with a pseudo-class. -/
theorem AreWritten.isTrimmed {ns : List Node} {a : Bool} (h : AreWritten inner s ns a)
    (hne : ns ≠ []) : IsTrimmed (Node.branchText ns) := by
  induction h with
  | nil => exact absurd rfl hne
  | weaken _ _ ih => exact ih hne
  | @extended ns a f name argument d _ hf _ _ hcut hadd ih =>
    obtain ⟨-, -, cut, n, hbefore, hnode, rfl⟩ := addExtended_eq_ok.mp hadd
    have hn := isTrimmed_of_name? (name?_of_nodeOf hnode)
    have hnodes := nodes_of_cutBeforeExtended hcut hbefore
    show IsTrimmed (Node.branchText (cut.nodes ++ [n]))
    rw [hnodes, branchText_append, branchText_append, branchText_optional, branchText_singleton]
    cases ns with
    | nil =>
      have hstart : f ≠ [] := by
        rintro rfl
        exact absurd hcut (by simp [Draft.cutText])
      refine ⟨List.append_ne_nil_of_right_ne_nil _ hn.ne_nil, ?_, ?_⟩
      · rw [List.append_assoc, Node.branchText, List.nil_append,
          List.head?_append_of_ne_nil _ hstart]
        exact hf.not_blank_head?
      · rw [List.getLast?_append_of_ne_nil _ hn.ne_nil]
        exact hn.getLast?
    | cons m r => exact (ih (List.cons_ne_nil m r)).append hn

theorem IsWrittenBranch.isTrimmed {ns : List Node} (h : IsWrittenBranch inner s ns) :
    IsTrimmed (Node.branchText ns) := by
  obtain ⟨ms, a, f, d, hms, hf, htrim, hcut, hne, rfl⟩ := h
  have hnodes := nodes_of_cutAtEnd hcut
  rw [htrim] at hnodes
  have hlast : ∀ c ∈ f.getLast?, Text.isBlank c = false := by
    intro c hc
    rw [← htrim] at hc
    exact Text.not_blank_of_getLast?_trimEnd hc
  have htext : Node.branchText d.nodes = Node.branchText ms ++ f := by
    rw [hnodes, branchText_append, branchText_optional]
  rw [htext]
  by_cases hnil : f = []
  · rw [hnil, List.append_nil]
    refine hms.isTrimmed fun hms => hne ?_
    rw [hnodes, hms, if_pos hnil]
    rfl
  · cases ms with
    | nil =>
      rw [Node.branchText, List.nil_append]
      exact ⟨hnil, hf.not_blank_head?, hlast⟩
    | cons m r =>
      have hstart := hms.isTrimmed (List.cons_ne_nil m r)
      refine ⟨List.append_ne_nil_of_right_ne_nil _ hnil, ?_, ?_⟩
      · rw [List.head?_append_of_ne_nil _ hstart.ne_nil]
        exact hstart.head?
      · rw [List.getLast?_append_of_ne_nil _ hnil]
        exact hlast

theorem isTrimmed_listText {bs : List (List Node)} (hne : bs ≠ [])
    (h : ∀ ns ∈ bs, IsWrittenBranch inner s ns) : IsTrimmed (Node.listText bs) := by
  induction bs with
  | nil => exact absurd rfl hne
  | cons b r ih =>
    have hb := (h b (List.mem_cons_self ..)).isTrimmed
    cases r with
    | nil =>
      rw [listText_singleton]
      exact hb
    | cons c r =>
      have hr := ih (List.cons_ne_nil c r) fun ns hns => h ns (List.mem_cons_of_mem b hns)
      rw [listText_cons_cons]
      have hall := hb.append (u := [',', ' ']) hr
      rw [List.append_assoc] at hall
      exact hall

/-! ### Reading branches at every depth back -/

/-- Written branches are read back from their text. -/
theorem foldlM_listText {bs : List (List Node)} (hne : bs ≠ [])
    (h : ∀ ns ∈ bs, IsWrittenBranch inner s ns) (hread : ∀ ns ∈ bs, ∀ n ∈ ns, n.IsReread inner s)
    (hlegible : listIsLegible bs = true) (branches : List (List Node)) :
    ∃ p, (piecesIn (Node.listText bs)).foldlM (Progress.step inner s) ⟨branches, .empty⟩ = .ok p ∧
      p.endBranch s = .ok (branches ++ bs) := by
  induction bs generalizing branches with
  | nil => exact absurd rfl hne
  | cons b r ih =>
    obtain ⟨hcomma, hb⟩ := (h b (List.mem_cons_self ..)).reread (hread b (List.mem_cons_self ..))
    cases r with
    | nil =>
      rw [listText_singleton]
      exact hb branches
    | cons c r =>
      rw [listIsLegible, Bool.and_eq_true, Bool.and_eq_true] at hlegible
      obtain ⟨⟨-, hescape⟩, hrest⟩ := hlegible
      have hescape : endsInEscape (Node.branchText b) = false := by
        rw [List.isEmpty_cons, Bool.false_or, Bool.not_eq_true'] at hescape
        exact hescape
      obtain ⟨p, hp, hend⟩ := hb branches
      obtain ⟨p', hp', hend'⟩ := ih (List.cons_ne_nil c r)
        (fun ns hns => h ns (List.mem_cons_of_mem b hns))
        (fun ns hns => hread ns (List.mem_cons_of_mem b hns)) hrest (branches ++ [b])
      have hspace : piecesIn (' ' :: Node.listText (c :: r)) =
          .space :: piecesIn (Node.listText (c :: r)) := by
        rw [piecesIn, chunks_of_mark (by decide) (by decide), piecesFrom, feed_blank (by decide)]
        rfl
      refine ⟨p', ?_, by rw [hend', List.append_assoc]; rfl⟩
      rw [listText_cons_cons, hcomma hescape, hspace, List.foldlM_append, hp]
      show (Piece.comma :: .space :: piecesIn (Node.listText (c :: r))).foldlM
        (Progress.step inner s) p = _
      rw [List.foldlM_cons, Progress.step, hend]
      show (Piece.space :: piecesIn (Node.listText (c :: r))).foldlM (Progress.step inner s)
        ⟨branches ++ [b], .empty⟩ = _
      rw [List.foldlM_cons]
      exact hp'

/-- What starts with a selector is no number, so `:upward()` reads it as branches. -/
theorem argumentKind_upward {f w : Text} {S : Css.Selector} (h : Css.Selector.ofText f = .ok S)
    (hlead : ∀ c ∈ f.head?, Css.isCombinator c = false) (htrim : Text.trim (f ++ w) = f ++ w) :
    Name.upward.argumentKind (f ++ w) = .relative := by
  have hf : f ≠ [] := by
    rintro rfl
    exact absurd (h.symm.trans (rfl : _ = Except.error Css.Error.empty)) (by simp)
  unfold Name.argumentKind Text.readInt64? Text.readIntWithin?
  rw [htrim, Css.readInt?_of_ofText h hf hlead]
  rfl

/-- The printed argument is read as branches if the argument is: it is no number. -/
theorem argumentKind_listText {name : Name} {argument : Text} {bs : List (List Node)}
    (hkind : name.argumentKind argument = .relative)
    (h : readAll (s.inside name) argument = .ok bs) :
    name.argumentKind (Node.listText bs) = .relative := by
  by_cases hname : name = .upward
  · subst hname
    obtain ⟨hne, hcomplete⟩ := isComplete_of_readAll h
    have htrimmed := isTrimmed_listText hne (isWrittenBranch_of_readAll h)
    obtain ⟨b, r, rfl⟩ := List.exists_cons_of_ne_nil hne
    obtain ⟨hbne, horders⟩ := (hcomplete b (List.mem_cons_self ..)).orders
    obtain ⟨n, ns, rfl⟩ := List.exists_cons_of_ne_nil hbne
    cases n with
    | textual _ _ => exact absurd (horders.starts _ rfl) (by simp [Node.isFragment])
    | nested _ _ => exact absurd (horders.starts _ rfl) (by simp [Node.isFragment])
    | fragment f =>
      obtain ⟨S, hS⟩ :=
        ((hcomplete _ (List.mem_cons_self ..)).isAdmitted _ (List.mem_cons_self ..)).exists_ofText
      have hf : f ≠ [] := by
        rintro rfl
        exact absurd (hS.symm.trans (rfl : _ = Except.error Css.Error.empty)) (by simp)
      have htext : Node.listText ((.fragment f :: ns) :: r) =
          f ++ (Node.branchText ns ++ Node.moreText r) := by
        rw [Node.listText, Node.branchText, Node.text, List.append_assoc]
      rw [htext] at htrimmed ⊢
      have hlead : ∀ c ∈ f.head?, Css.isCombinator c = false := by
        intro c hc
        have hblank : ∀ c ∈ f.head?, Text.isBlank c = false := fun c hc =>
          htrimmed.head? c (by rw [List.head?_append_of_ne_nil _ hf]; exact hc)
        have hnone := horders.leads rfl _ rfl
        rw [Node.leadingCombinator?, Text.trimStart_eq_self hblank, Option.filter_eq_none_iff] at hnone
        exact Bool.not_eq_true _ ▸ hnone c hc
      exact argumentKind_upward hS hlead htrimmed.trim_eq
  · cases name <;>
      first | rfl | exact absurd rfl hname | exact absurd hkind (by simp [Name.argumentKind])

/-- The branches that are read of a text are read of their own text again, if that is legible. -/
theorem readAll_listText {t : Text} {bs : List (List Node)} (h : readAll s t = .ok bs)
    (hlegible : listIsLegible bs = true) : readAll s (Node.listText bs) = .ok bs := by
  obtain ⟨n, hn⟩ : ∃ n, sizeOf bs = n := ⟨_, rfl⟩
  induction n using Nat.strong_induction_on generalizing s t bs with
  | _ n ih =>
    obtain ⟨hne, hcomplete⟩ := isComplete_of_readAll h
    have hwritten := isWrittenBranch_of_readAll h
    have hread : ∀ ns ∈ bs, ∀ m ∈ ns, m.IsReread readAll s := by
      intro ns hns m hm
      have hm' := isLegible_of_mem (branchIsLegible_of_mem hlegible ns hns) m hm
      cases m with
      | fragment f =>
        intro q hq
        have hall := List.all_eq_true.mp hm' q hq
        exact Bool.not_eq_true' _ ▸ hall
      | textual name argument =>
        rw [Node.isLegible] at hm'
        have hfills : Inside.start.Fills argument := of_decide_eq_true hm'
        exact hfills
      | nested name args =>
        rw [Node.isLegible, Bool.and_eq_true] at hm'
        obtain ⟨argument, hkind, hargument⟩ :=
          (hcomplete ns hns).isAdmitted _ hm |>.argumentKind
        have hsize : sizeOf args < n := by
          have hlt := List.sizeOf_lt_of_mem hm
          have hlt' := List.sizeOf_lt_of_mem hns
          rw [Node.nested.sizeOf_spec] at hlt
          omega
        have hargs := isTrimmed_listText (isComplete_of_readAll hargument).1
          (isWrittenBranch_of_readAll hargument)
        refine ⟨of_decide_eq_true hm'.1, ?_, argumentKind_listText hkind hargument,
          ih _ hsize hargument hm'.2 rfl⟩
        rw [← Bool.not_eq_true]
        intro hblank
        exact hargs.ne_nil (hargs.trim_eq.symm.trans
          (Text.trim_eq_nil_iff.mpr (List.all_eq_true.mp hblank)))
    obtain ⟨p, hp, hend⟩ := foldlM_listText hne hwritten hread hlegible []
    rw [readAll_eq, (isTrimmed_listText hne hwritten).trim_eq, run]
    rw [show piecesFrom .nothing (chunks (Node.listText bs)) = piecesIn (Node.listText bs) from rfl,
      show Progress.start = ⟨[], .empty⟩ from rfl, hp]
    exact hend

/-! ### Selectors -/

/-- The text of a legible selector is read as the selector. -/
theorem ofText_text {t : Text} {sel : Selector} (h : Selector.ofText t = .ok sel)
    (hlegible : sel.isLegible = true) : Selector.ofText sel.text = .ok sel :=
  Selector.ofText_eq_ok.mpr (readAll_listText (Selector.ofText_eq_ok.mp h) hlegible)

/-- A selector with nested arguments, an apostrophe and an escaped blank. -/
def nestedSelector : Selector :=
  ⟨[[.fragment "div".toList,
      .nested .abpHas [[.fragment "> a".toList,
        .nested .not [[.fragment "*".toList, .textual .contains "it's".toList]]]],
      .fragment " b\\ c".toList],
    [.fragment "*".toList, .nested .upward [[.fragment "p".toList], [.fragment "i".toList]]]]⟩

/-- It is read of the attribute form and of its own text. -/
theorem ofText_text_nestedSelector :
    Selector.ofText "div:-abp-has( > a:not([-ext-contains=\"it's\"])) b\\ c , :upward(p,i)".toList =
      .ok nestedSelector ∧
    nestedSelector.text =
      "div:-abp-has(> a:not(*:contains(it's))) b\\ c, *:upward(p, i)".toList ∧
    Selector.ofText nestedSelector.text = .ok nestedSelector := by
  have hread : Selector.ofText
      "div:-abp-has( > a:not([-ext-contains=\"it's\"])) b\\ c , :upward(p,i)".toList =
      .ok nestedSelector := by decide +kernel
  exact ⟨hread, by decide +kernel, ofText_text hread (by decide +kernel)⟩

/-- A quoted argument with a closing bracket is printed without the quotes, so the bracket ends it. -/
theorem not_ofText_text :
    ¬ ∀ (t : Text) (sel : Selector), Selector.ofText t = .ok sel →
      Selector.ofText sel.text = .ok sel := by
  intro h
  have hread : Selector.ofText "[-ext-contains=\"a)b\"]".toList =
      .ok ⟨[[.fragment "*".toList, .textual .contains "a)b".toList]]⟩ := by decide +kernel
  have htext : Selector.text ⟨[[.fragment "*".toList, .textual .contains "a)b".toList]]⟩ =
      "*:contains(a)b)".toList := by decide +kernel
  have hreread := h _ _ hread
  rw [htext] at hreread
  exact absurd hreread (by decide +kernel)

end Extended
end CosmeticFilter
