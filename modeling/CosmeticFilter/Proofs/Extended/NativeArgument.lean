import CosmeticFilter.Proofs.Extended.Arguments
import CosmeticFilter.Proofs.Extended.Squeezed

/-!
# Native selectors in front of a pseudo-class and in its argument

A selector without extensions is read alike wherever it stands. Its pieces only add their text, so
the scope counts for no more than whether a combinator may stand in front, and its fragment is its
text with runs of blanks shortened. Behind it a pseudo-class may follow: then its fragment is cut
off in front of the pseudo-class, and the argument is read by itself. The argument is all that
stands between the brackets, if nothing is read behind them: were a bracket in it to close them
earlier, the rest would leave something in the branch.

* `Piece.IsNative.congr`: the scope does not count for a piece that only adds its text;
* `eq_squeeze_of_readAll`: the fragment of a selector without extensions;
* `readAll_of_isNative`, `readAll_of_native`: it is read alike in all scopes;
* `IsSeed.readAll_pseudo`: a pseudo-class with branches behind it;
* `Progress.IsPast`, `withoutBlanks_of_run`: what is read behind all nodes of a branch;
* `IsSeed.exists_fills`, `IsSeed.fills`: the brackets of the only pseudo-class.
-/

namespace CosmeticFilter
namespace Extended

variable {inner inner' : BranchReader} {s s' : Scope} {t g S f A : Text}

/-! ### Any scope -/

/-- A piece that only adds its text in one place does so everywhere. -/
theorem Piece.IsNative.congr {q : Piece} (h : q.IsNative inner s) : q.IsNative inner' s' := by
  have hstep := h .start
  have hcomma : q ≠ .comma := by
    rintro rfl
    exact absurd (isClean_of_isNative h) Bool.false_ne_true
  rcases step_named hstep with ⟨hname, -⟩ | ⟨heq, -⟩ | ⟨name, argument, d, -, hadd, heq⟩
  · exact isNative_of_step hstep hcomma hname
  · exact absurd heq hcomma
  · -- an extended pseudo-class would have left a node
    obtain ⟨n, hn, -⟩ := exists_of_addExtended hadd
    have hd : Draft.addText .empty q = d := congrArg Progress.draft heq
    rw [← hd, addText_nodes] at hn
    exact absurd hn List.not_mem_nil

/-- The fragment of a selector without extensions is its text with runs of blanks shortened. -/
theorem eq_squeeze_of_readAll (h : readAll s t = .ok [[.fragment g]]) :
    g = squeeze true (Text.trim t) := by
  obtain ⟨hnative, hg, -, -⟩ := isNative_of_readAll h
  have hpieces : pieces t = piecesFrom .nothing (chunks (Text.trim t)) := piecesOf_eq _
  rw [hpieces] at hnative hg
  rw [pending_piecesFrom fun q hq => isClean_of_isNative (hnative q hq)] at hg
  rw [hg, ← trim_squeeze (Text.trim_trim t), Text.trimEnd_trim]

/-- It starts with the same character as the text, blanks aside. -/
theorem head?_of_readAll (h : readAll s t = .ok [[.fragment g]]) :
    (Text.trim g).head? = (Text.trim t).head? := by
  rw [eq_squeeze_of_readAll h, head?_trim_squeeze (Text.trim_trim t), Text.trim_trim]

/-- Text that only adds up to a fragment is read as that fragment. -/
theorem readAll_of_isNative (hnative : ∀ q ∈ pieces t, q.IsNative readAll s)
    (hg : g = Text.trimEnd ((pieces t).foldl Draft.addText .empty).pending) (hne : g ≠ [])
    (hread : ∃ S, Css.Selector.ofText (Text.trim g) = .ok S)
    (hlead : s.mayLead = false → ∀ c ∈ (Text.trim g).head?, Css.isCombinator c = false) :
    readAll s t = .ok [[.fragment g]] := by
  have hrun := foldlM_of_isNative hnative .start
  have hnodes : ((pieces t).foldl Draft.addText .empty).nodes = [] :=
    foldl_addText_nodes (pieces t) .empty
  rw [pieces, piecesOf_eq] at hrun
  refine readAll_eq_ok.mpr ⟨_, hrun, ?_⟩
  rw [← piecesOf_eq]
  change Progress.endBranch s ⟨[], (pieces t).foldl Draft.addText .empty⟩ = _
  generalize (pieces t).foldl Draft.addText .empty = d at hg hnodes ⊢
  refine endBranch_eq_ok.mpr ⟨{ d with nodes := d.nodes ++ [.fragment g], pending := [] }, ?_,
    by simp, by simp [hnodes]⟩
  have hhas : ∀ name, d.has name = false := fun name => by rw [Draft.has, hnodes, List.any_nil]
  unfold Draft.cutAtEnd
  simp only [hhas, Bool.false_eq_true, if_false]
  rw [← hg, if_neg hne]
  refine addFragment_eq_ok.mpr ⟨?_, hread, rfl⟩
  cases hs : s.mayLead with
  | true => rw [Bool.not_true, Bool.and_false, Bool.false_and]
  | false =>
    have hhead : (Text.trim g).head?.any Css.isCombinator = false := by
      rw [Option.any_eq_false]
      exact fun c hc => by simpa using hlead hs c hc
    rw [hhead, Bool.and_false]

/-- A selector without extensions that starts with no combinator is read alike in all scopes. -/
theorem readAll_of_native (hs : s.mayLead = false) (h : readAll s t = .ok [[.fragment g]])
    (s' : Scope) : readAll s' t = .ok [[.fragment g]] := by
  obtain ⟨hnative, hg, hne, hread, hlead⟩ := native_of_readAll hs h
  exact readAll_of_isNative (fun q hq => (hnative q hq).congr) hg hne hread fun _ => hlead

/-! ### A pseudo-class behind it -/

/-- A pseudo-class as it is written behind a selector. -/
theorem append_pseudoText (name : Name) {t : Text} (h : t = ':' :: name.text ++ ['(']) :
    S ++ t ++ A ++ ")".toList = S ++ pseudosText [(name, A)] := by
  rw [pseudosText, List.flatMap_singleton, h, pseudoText]
  simp only [List.append_assoc, List.cons_append, List.nil_append]
  rfl

/-- A pseudo-class cuts off the seed in front of it, and what follows is read behind both. -/
theorem IsSeed.exists_nodeOf (h : IsSeed S f) {name : Name} (hA : Inside.start.Fills A) {u : Text}
    {q : Progress} (hrun : (piecesIn (Text.trimStart S ++ pseudoText (name, A) ++ u)).foldlM
      (Progress.step readAll .top) .start = .ok q) :
    ∃ n d, Draft.nodeOf readAll .top name A = .ok n ∧ d.nodes = [.fragment f, n] ∧
      d.pending = [] ∧ (piecesIn u).foldlM (Progress.step readAll .top) ⟨[], d⟩ = .ok q := by
  obtain ⟨d, hseed, hnodes, rfl, hne, hlast, X, hX⟩ := h.exists_run
  obtain ⟨p, hstands, -⟩ := exists_stands_of_readAll (Selector.ofText_eq_ok.mp h.read) h.escape
  have hpieces := piecesIn_node (n := .textual name A) (isClosed_of_run hstands.run)
    hstands.escape hstands.heldIn_ne_colon rfl hA u
  change piecesIn (Text.trimStart S ++ pseudoText (name, A) ++ u) =
    piecesIn (Text.trimStart S) ++ pseudoPiece (name, A) :: piecesIn u at hpieces
  rw [hpieces] at hrun
  obtain ⟨mid, hmid, hrun⟩ := foldlM_append_eq_ok.mp hrun
  obtain rfl := Except.ok.inj (hmid.symm.trans hseed)
  obtain ⟨next, hstep, hrun⟩ := foldlM_cons_eq_ok.mp hrun
  obtain ⟨d', hadd, rfl⟩ := step_pseudoPiece.mp hstep
  obtain ⟨-, -, cut, n, hcut, hn, rfl⟩ := addExtended_eq_ok.mp hadd
  -- what was pending is cut off as it is, and nothing is pending behind the pseudo-class
  obtain rfl := cutBeforeExtended_eq_ok hcut
  refine ⟨n, _, hn, ?_, rfl, hrun⟩
  show d.nodes ++ (if d.cutText = [] then [] else [.fragment d.cutText]) ++ [n] = _
  rw [cutText_eq_pending hne hlast hX hcut, if_neg hne, hnodes]
  rfl

/-- **A pseudo-class with branches behind a seed**: the seed is the fragment in front of it, and its
argument is read by itself. -/
theorem IsSeed.readAll_pseudo (h : IsSeed S f) {name : Name}
    (hkind : name.argumentKind A = .relative) (hA : Inside.start.Fills A)
    {bs : List (List Node)} (hread : readAll .top (S ++ pseudosText [(name, A)]) = .ok bs) :
    ∃ as, readAll (Scope.top.inside name) A = .ok as ∧ bs = [[.fragment f, .nested name as]] := by
  obtain ⟨q, hrun, hend⟩ := h.exists_run_pseudos hread
  obtain ⟨n, d, hn, hnodes, hpending, hrest⟩ := h.exists_nodeOf (u := []) hA (by
    rwa [pseudosText, List.flatMap_singleton, ← List.append_nil (_ ++ _)] at hrun)
  rw [piecesIn_nil] at hrest
  obtain rfl := Except.ok.inj hrest
  unfold Draft.nodeOf at hn
  rw [hkind] at hn
  obtain ⟨as, has, rfl⟩ := Outcome.map_eq_ok.mp hn
  refine ⟨as, has, ?_⟩
  obtain ⟨d', hcut, -, rfl⟩ := endBranch_eq_ok.mp hend
  rw [nodes_of_cutAtEnd hcut, hnodes, hpending]
  rfl

/-! ### The brackets of its argument -/

/-- More has been read than a single branch of so many nodes. -/
def Progress.IsPast (n : Nat) (p : Progress) : Prop :=
  p.branches ≠ [] ∨ n < p.draft.nodes.length

theorem length_nodes_addExtended {d d' : Draft} {name : Name} {argument : Text}
    (h : d.addExtended inner s name argument = .ok d') : d.nodes.length < d'.nodes.length := by
  obtain ⟨-, -, cut, n, hcut, -, rfl⟩ := addExtended_eq_ok.mp h
  obtain rfl := cutBeforeExtended_eq_ok hcut
  simp only [List.length_append, List.length_singleton]
  omega

namespace Progress.IsPast

variable {n : Nat} {p p' : Progress}

theorem step {q : Piece} (h : p.IsPast n) (hstep : p.step inner s q = .ok p') : p'.IsPast n := by
  rcases step_inversion hstep with ⟨-, rfl⟩ | ⟨-, branches, hend, rfl⟩ | ⟨_, _, d, hadd, rfl⟩
  · rw [IsPast, Progress.addText, addText_nodes]
    exact h
  · obtain ⟨d, -, -, rfl⟩ := endBranch_eq_ok.mp hend
    exact Or.inl (List.append_ne_nil_of_right_ne_nil _ (List.cons_ne_nil _ _))
  · exact h.imp_right fun hn => Nat.lt_trans hn (length_nodes_addExtended hadd)

/-- With so many nodes, every piece that does more than add its text goes past them. -/
theorem of_run {qs : List Piece} (hn : n ≤ p.draft.nodes.length)
    (hrun : qs.foldlM (Progress.step inner s) p = .ok p') :
    p'.IsPast n ∨ ∀ q ∈ qs, q.IsNative inner s := by
  induction qs generalizing p with
  | nil => exact Or.inr fun q hq => absurd hq List.not_mem_nil
  | cons q r ih =>
    obtain ⟨mid, hmid, hrest⟩ := foldlM_cons_eq_ok.mp hrun
    rcases step_inversion hmid with ⟨hq, rfl⟩ | ⟨-, branches, hend, rfl⟩ | ⟨_, _, d, hadd, rfl⟩
    · refine (ih (by rwa [Progress.addText, addText_nodes]) hrest).imp_right fun hr q' hq' => ?_
      rcases List.mem_cons.mp hq' with rfl | hq'
      · exact hq
      · exact hr q' hq'
    · obtain ⟨d, -, -, rfl⟩ := endBranch_eq_ok.mp hend
      exact Or.inl (foldlM_keeps step
        (Or.inl (List.append_ne_nil_of_right_ne_nil _ (List.cons_ne_nil _ _))) hrest)
    · exact Or.inl (foldlM_keeps step
        (Or.inr (Nat.lt_of_le_of_lt hn (length_nodes_addExtended hadd))) hrest)

/-- It is seen in the branches. -/
theorem endBranch_ne {ns : List Node} (h : p.IsPast ns.length) : p.endBranch s ≠ .ok [ns] := by
  intro hend
  obtain ⟨d, hcut, -, heq⟩ := endBranch_eq_ok.mp hend
  obtain ⟨hbranches, hnodes⟩ := List.append_inj' (show [] ++ [ns] = _ from heq) rfl
  rcases h with hne | hlt
  · exact hne hbranches.symm
  · rw [List.cons.inj hnodes |>.1, nodes_of_cutAtEnd hcut, List.length_append] at hlt
    omega

end Progress.IsPast

/-- Behind all nodes of the branch there are only blanks. -/
theorem withoutBlanks_of_run {p q : Progress} {u : Text} {ns : List Node}
    (hn : ns.length ≤ p.draft.nodes.length)
    (hrun : (piecesIn u).foldlM (Progress.step inner s) p = .ok q)
    (hend : q.endBranch s = .ok [ns]) : Text.withoutBlanks u = [] := by
  rcases Progress.IsPast.of_run hn hrun with hpast | hnative
  · exact absurd hend hpast.endBranch_ne
  · rw [foldlM_of_isNative hnative] at hrun
    obtain rfl := Except.ok.inj hrun
    obtain ⟨d, hcut, -, heq⟩ := endBranch_eq_ok.mp hend
    obtain ⟨-, hnodes⟩ := List.append_inj' (show [] ++ [ns] = _ from heq) rfl
    have hlength := congrArg List.length (List.cons.inj hnodes).1
    rw [nodes_of_cutAtEnd hcut, List.length_append, foldl_addText_nodes] at hlength
    have hblank : Text.trimEnd ((piecesIn u).foldl Draft.addText p.draft).pending = [] := by
      by_contra hne
      rw [if_neg hne, List.length_singleton] at hlength
      omega
    have hadded := withoutBlanks_addText (piecesIn u) p.draft
    rw [Text.withoutBlanks_eq_nil (Text.trimEnd_eq_nil_iff.mp hblank), Text.withoutBlanks_append]
      at hadded
    have htext := flatMap_text_piecesFrom fun q hq => isClean_of_isNative (hnative q hq)
    rw [piecesIn, htext, Held.text, List.nil_append, withoutBlanks_spaced,
      flatMap_text_chunks] at hadded
    exact (List.append_eq_nil_iff.mp hadded.symm).2

/-- A bracket that is opened and closed has a content that fills it. -/
theorem exists_fills_of_isClosed {t : Text} (h : ∀ k ∈ chunks ('(' :: t), k.isClosed = true) :
    ∃ content u, t = content ++ ')' :: u ∧ Inside.start.Fills content := by
  rw [chunks_of_group (g := .parens) rfl] at h
  have hclosed := h _ List.mem_cons_self
  have happend := groupContent_append .parens Inside.start t
  cases hrest : (groupContent .parens Inside.start t).2 with
  | nil =>
    change (!(groupContent .parens Inside.start t).2.isEmpty) = true at hclosed
    rw [hrest] at hclosed
    exact absurd hclosed (by simp)
  | cons c u =>
    obtain rfl : c = ')' := head?_groupContent_snd .parens Inside.start t c (by rw [hrest]; rfl)
    refine ⟨_, u, by rw [← hrest, happend], ?_⟩
    exact groupContent_eq_of_closed (Prod.ext rfl hrest) []

/-- The bracket behind a seed is closed, by the last one or by an earlier one with more text behind
it. -/
theorem IsSeed.exists_fills (h : IsSeed S f) {name : Name} {bs : List (List Node)}
    (hread : readAll .top (S ++ pseudosText [(name, A)]) = .ok bs) :
    Inside.start.Fills A ∨ ∃ content v n d q, A = content ++ ')' :: v ∧
      Draft.nodeOf readAll .top name content = .ok n ∧ d.nodes = [.fragment f, n] ∧
      (piecesIn (v ++ [')'])).foldlM (Progress.step readAll .top) ⟨[], d⟩ = .ok q ∧
      q.endBranch .top = .ok bs := by
  obtain ⟨q, hrun, hend⟩ := h.exists_run_pseudos hread
  rw [pseudosText, List.flatMap_singleton] at hrun
  obtain ⟨p, hstands, -⟩ := exists_stands_of_readAll (Selector.ofText_eq_ok.mp h.read) h.escape
  have htext : pseudoText (name, A) = ':' :: (name.text ++ '(' :: (A ++ [')'])) := by
    simp [pseudoText]
  obtain ⟨content, u, heq, hfills⟩ : ∃ content u, A ++ [')'] = content ++ ')' :: u ∧
      Inside.start.Fills content := by
    have hclosed := isClosed_of_run hrun
    rw [htext, chunks_append (isClosed_of_run hstands.run) hstands.escape fun _ _ _ => rfl,
      chunks_pseudoClass (isWord_name name).1 (isWord_name name).2] at hclosed
    exact exists_fills_of_isClosed fun k hk => hclosed k (by simp [hk])
  rcases List.eq_nil_or_concat u with rfl | ⟨v, c, rfl⟩
  · obtain ⟨rfl, -⟩ := List.append_inj' heq rfl
    exact Or.inl hfills
  · rw [List.concat_eq_append, ← List.cons_append, ← List.append_assoc] at heq
    obtain ⟨hA, hc⟩ := List.append_inj' heq rfl
    obtain rfl := (List.cons.inj hc).1
    have hmore : Text.trimStart S ++ pseudoText (name, A) =
        Text.trimStart S ++ pseudoText (name, content) ++ (v ++ [')']) := by
      simp [pseudoText, hA]
    rw [hmore] at hrun
    obtain ⟨n, d, hn, hnodes, -, hrest⟩ := h.exists_nodeOf hfills hrun
    exact Or.inr ⟨content, v, n, d, q, hA, hn, hnodes, hrest, hend⟩

/-- **The argument of the only pseudo-class** behind a seed is all that stands in its brackets: what
followed a bracket that closes it earlier would be read as well. -/
theorem IsSeed.fills (h : IsSeed S f) {name : Name} {m n : Node}
    (hread : readAll .top (S ++ pseudosText [(name, A)]) = .ok [[m, n]]) :
    Inside.start.Fills A := by
  rcases h.exists_fills hread with hfills | ⟨content, v, n, d, q, -, -, hnodes, hrest, hend⟩
  · exact hfills
  · have hnone := withoutBlanks_of_run (by simp [hnodes]) hrest hend
    rw [Text.withoutBlanks_append] at hnone
    exact absurd (List.append_eq_nil_iff.mp hnone).2 (by decide)

end Extended
end CosmeticFilter
