import CosmeticFilter.Proofs.Css.LastCharacter
import CosmeticFilter.Proofs.Extended.Respaced

/-!
# A pseudo-class between two parts of a selector

A selector without extensions is cut in two by an extended pseudo-class that is put between two
parts of its text: the fragment becomes two, which together are the fragment of the selector as it
was.

* `alwaysTrue`: a pseudo-class that keeps every element;
* `pieces_append`, `pieces_inserted`: the pieces with and without it;
* `readAll_inserted`: the branch with it.
-/

namespace CosmeticFilter
namespace Extended

/-- A pseudo-class that every element meets, since no element of a document at rest is hovered
over. -/
def alwaysTrue : Text := ":not(:hover)".toList

/-- A selector may go on with this character behind any of its compounds: with a blank, a combinator
or a further condition. -/
def isNext (c : Char) : Bool :=
  Text.isBlank c || Css.isCombinator c || c == '.' || c == '#' || c == '[' || c == ':'

/-! ### Chunks and pieces -/

/-- What is held back is released in front of a chunk that does not continue it. -/
theorem piecesFrom_of_restart {h : Held} {ks : List Chunk}
    (hks : ∀ k ∈ ks.head?, h.feed k = (h.release ++ (Held.restart k).1, (Held.restart k).2)) :
    piecesFrom h ks = h.release ++ piecesFrom .nothing ks := by
  cases ks with
  | nil => exact (List.append_nil _).symm
  | cons k r =>
    rw [piecesFrom, hks k rfl, piecesFrom, feed_nothing, List.append_assoc]

theorem isMark_of_isNext {c : Char} (hc : isNext c = true) : isMark c = true := by
  unfold isNext at hc
  unfold isMark
  simp only [Css.isCombinator, Bool.or_eq_true, beq_iff_eq] at hc
  rcases hc with ((((hblank | (rfl | rfl) | rfl) | rfl) | rfl) | rfl) | rfl
  · rw [hblank]
    rfl
  all_goals decide

/-- What goes on starts with a mark or with an attribute selector. -/
theorem head?_chunks_of_isNext {c : Char} (hc : isNext c = true) (r : Text) :
    ∀ k ∈ (chunks (c :: r)).head?,
      k = .mark c ∨ ∃ content closed, k = .group .square content closed := by
  intro k hk
  cases hopen : Group.ofMark? c with
  | none =>
    rw [chunks_of_mark (isMark_of_isNext hc) hopen] at hk
    exact Or.inl (Option.some_inj.mp hk).symm
  | some g =>
    rw [chunks_of_group hopen] at hk
    have hsquare : g = .square := by
      unfold Group.ofMark? at hopen
      have hne : ∀ d : Char, isNext d = false → c ≠ d := by
        rintro d hd rfl
        rw [hc] at hd
        exact absurd hd (by simp)
      rw [if_neg (hne '(' (by decide))] at hopen
      split at hopen
      · exact (Option.some_inj.mp hopen).symm
      · rw [if_neg] at hopen
        · exact absurd hopen (by simp)
        · rintro (heq | heq)
          · exact hne '"' (by decide) heq
          · exact hne '\'' (by decide) heq
    subst hsquare
    exact Or.inr ⟨_, _, (Option.some_inj.mp hk).symm⟩

theorem feed_of_isNext {h : Held} (hcolon : h ≠ .colon) {c : Char} (hc : isNext c = true)
    (r : Text) : ∀ k ∈ (chunks (c :: r)).head?,
      h.feed k = (h.release ++ (Held.restart k).1, (Held.restart k).2) := by
  intro k hk
  rcases h.feed_cases k with heq | ⟨hh, -, -⟩ | ⟨_, hh, -, -⟩ | ⟨_, -, hword, -⟩ |
    ⟨_, _, _, -, hgroup, -⟩ | ⟨_, _, _, -, hgroup, -⟩
  · exact heq
  · exact absurd hh hcolon
  · exact absurd hh hcolon
  all_goals
    rcases head?_chunks_of_isNext hc r k hk with rfl | ⟨content, closed, rfl⟩
    all_goals simp at *

/-- A part of a selector that goes on is cut into pieces by itself. -/
theorem pieces_append {A u : Text} (hA : Css.IsPlain A) (hne : A ≠ [])
    (hlast : ∀ c ∈ A.getLast?, Text.isBlank c = false)
    (hclean : ∀ q ∈ pieces A, q.isClean = true)
    (hcolon : heldAfter .nothing (chunks (Text.trim A)) ≠ .colon)
    (hu : ∀ c ∈ u.head?, isNext c = true) :
    pieces (A ++ u) = pieces A ++ piecesFrom .nothing (chunks (Text.trimEnd u)) := by
  have hstart : Text.trimStart A ≠ [] := fun hnil => hne (Css.eq_nil_of_trimStart hlast hnil)
  have hsuffix : Text.trimStart A <:+ A := List.dropWhile_suffix _
  have hlast' : ∀ c ∈ (Text.trimStart A).getLast?, Text.isBlank c = false := by
    rw [← Css.getLast?_of_suffix hsuffix hstart]
    exact hlast
  have htrim : Text.trim A = Text.trimStart A := Text.trimEnd_eq_self hlast'
  have htrim' : Text.trim (A ++ u) = Text.trim A ++ Text.trimEnd u := by
    rw [Text.trim, Text.trimStart_append hstart, Text.trimEnd_append_of_last hlast', htrim]
  have hhead : ∀ c ∈ (Text.trimEnd u).head?, isNext c = true := by
    intro c hc
    refine hu c ?_
    rw [← Text.head?_trimEnd]
    · exact hc
    · intro hnil
      rw [hnil] at hc
      exact absurd hc (by simp)
  have hpieces : ∀ t, pieces t = piecesFrom .nothing (chunks (Text.trim t)) := fun t => piecesOf_eq _
  rw [hpieces] at hclean
  have hchunks : chunks (Text.trim A ++ Text.trimEnd u) =
      chunks (Text.trim A) ++ chunks (Text.trimEnd u) := by
    refine chunks_append (isClosed_of_isClean hclean) ?_ fun _ _ _ => ?_
    · rw [htrim]
      exact Css.endsInEscape_of_plain (hA.suffix hsuffix)
    · unfold startsWithMark
      rw [Option.all_eq_true]
      exact fun c hc => isMark_of_isNext (hhead c hc)
  rw [hpieces, hpieces, htrim', hchunks, piecesFrom_append,
    piecesFrom_eq .nothing (chunks (Text.trim A)), List.append_assoc, ← piecesFrom_of_restart]
  intro k hk
  cases hrest : Text.trimEnd u with
  | nil =>
    rw [hrest, chunks_nil] at hk
    exact absurd hk (by simp)
  | cons c r =>
    rw [hrest] at hk hhead
    exact feed_of_isNext hcolon (hhead c rfl) r k hk

/-- The pieces with `:not(:hover)` put in front. -/
theorem piecesFrom_alwaysTrue (c : Text) :
    piecesFrom .nothing (chunks (Text.trimEnd (alwaysTrue ++ c))) =
      .pseudoClass "not".toList (.given ":hover".toList) ::
        piecesFrom .nothing (chunks (Text.trimEnd c)) := by
  have hchunks : chunks alwaysTrue =
      [.mark ':', .word "not".toList, .group .parens ":hover".toList true] := by decide +kernel
  have hlast : ∀ d ∈ alwaysTrue.getLast?, Text.isBlank d = false := by
    rintro d hd
    obtain rfl := Option.some_inj.mp hd
    decide
  rw [Text.trimEnd_append_of_last hlast, chunks_append, hchunks]
  · rfl
  · rw [hchunks]
    decide
  · decide
  · rw [hchunks]
    intro k hk hword
    obtain rfl := Option.some_inj.mp hk
    exact absurd hword (by decide)

/-! ### The branch that is read -/

/-- A fragment that ends like a selector does not end with a colon that is held back. -/
theorem heldAfter_ne_colon {s : Scope} {t g : Text} (hs : s.mayLead = false)
    (h : readAll s t = .ok [[.fragment g]]) (hg : ∃ c ∈ g.getLast?, Css.isLast c = true) :
    heldAfter .nothing (chunks (Text.trim t)) ≠ .colon := by
  intro hcolon
  have hpieces : pieces t = completed .nothing (chunks (Text.trim t)) ++ [.verbatim [':']] := by
    rw [pieces, piecesOf_eq, piecesFrom_eq, hcolon]
    rfl
  obtain ⟨hpending, -⟩ := pending_of_native hs h
  rw [hpieces, List.foldl_append] at hpending
  obtain ⟨c, hc, hlast⟩ := hg
  have hlast' : g.getLast? = some ':' := by
    rw [← hpending]
    exact List.getLast?_concat
  rw [hlast'] at hc
  obtain rfl := Option.some_inj.mp hc
  exact absurd hlast (by decide)

/-- Behind a node, no blank is dropped at the start. -/
theorem head?_foldl_addText {d : Draft} (hd : d.nodes ≠ []) (qs : List Piece) :
    (qs.foldl Draft.addText d).pending.head? = (d.pending ++ qs.flatMap Piece.text).head? := by
  induction qs generalizing d with
  | nil => rw [List.flatMap_nil, List.append_nil]; rfl
  | cons q r ih =>
    have hnodes : (d.addText q).nodes ≠ [] := by
      rw [addText_nodes]
      exact hd
    rw [List.foldl_cons, ih hnodes, List.flatMap_cons, ← List.append_assoc]
    have hpending : (d.addText q).pending = d.pending ++ q.text ∨
        ((d.addText q).pending = d.pending ∧ d.pending ≠ []) := by
      unfold Draft.addText
      by_cases hq : q = .space
      · subst hq
        rw [if_pos rfl, writeSpace_eq (Or.inr hd)]
        split
        · rename_i hlast
          refine Or.inr ⟨rfl, ?_⟩
          intro hnil
          rw [hnil] at hlast
          exact absurd hlast (by simp)
        · exact Or.inl rfl
      · rw [if_neg hq]
        exact Or.inl rfl
    rcases hpending with heq | ⟨heq, hne⟩
    · rw [heq]
    · rw [heq, List.head?_append_of_ne_nil _ hne, List.append_assoc,
        List.head?_append_of_ne_nil _ hne]

/-- What goes on starts with the character that it starts with, or with a space for a blank. -/
theorem head?_text_of_isNext {c : Char} (hc : isNext c = true) {r : Text}
    (hclean : ∀ q ∈ piecesFrom .nothing (chunks (c :: r)), q.isClean = true) :
    ((piecesFrom .nothing (chunks (c :: r))).flatMap Piece.text).head? =
      some (if Text.isBlank c then ' ' else c) := by
  rw [flatMap_text_piecesFrom hclean]
  have hhead := head?_chunks_of_isNext hc r
  have htext := flatMap_text_chunks (c :: r)
  cases hchunks : chunks (c :: r) with
  | nil =>
    rw [hchunks] at htext
    exact absurd htext (List.cons_ne_nil _ _).symm
  | cons k ks =>
    rw [hchunks] at hhead htext
    rcases hhead k rfl with rfl | ⟨content, closed, rfl⟩
    · rw [List.flatMap_cons, Chunk.spaced]
      split <;> rfl
    · obtain ⟨rfl, -⟩ := List.cons.inj htext
      rfl

theorem pieces_nil : pieces [] = [] := by
  have htrim : Text.trim [] = [] := rfl
  rw [pieces, htrim, chunks_nil, piecesOf_eq]
  rfl

/-- A fragment that ends like a selector calls for no further element. -/
theorem not_isOpenEnded {f : Text} (hend : ∃ d ∈ f.getLast?, Css.isLast d = true) :
    Draft.isOpenEnded f = false := by
  obtain ⟨d, hd, hlast⟩ := hend
  unfold Draft.isOpenEnded
  rw [Option.mem_def.mp hd, Option.any_some, Bool.or_eq_false_iff]
  have hne : ∀ e : Char, Css.isLast e = false → d ≠ e := by
    rintro e he rfl
    rw [hlast] at he
    exact absurd he (by simp)
  refine ⟨beq_eq_false_iff_ne.mpr (hne ' ' (by decide)), ?_⟩
  unfold Css.isCombinator
  rw [beq_eq_false_iff_ne.mpr (hne '>' (by decide)), beq_eq_false_iff_ne.mpr (hne '+' (by decide)),
    beq_eq_false_iff_ne.mpr (hne '~' (by decide))]
  rfl

/-- Behind a fragment, `:not(:hover)` is a node that leaves nothing pending. -/
theorem step_alwaysTrue {d : Draft} (hnodes : d.nodes = []) (hne : d.pending ≠ [])
    (hopen : Draft.isOpenEnded d.pending = false)
    (hread : ∃ S, Css.Selector.ofText (Text.trim d.pending) = .ok S)
    (hlead : ∀ c ∈ (Text.trim d.pending).head?, Css.isCombinator c = false) :
    Progress.step readAll .top ⟨[], d⟩ (.pseudoClass "not".toList (.given ":hover".toList)) =
      .ok ⟨[], [.fragment d.pending, .nested .not [[.fragment ":hover".toList]]], [],
        d.afterElement⟩ := by
  have hinner : readAll (Scope.top.inside .not) ":hover".toList =
      .ok [[.fragment ":hover".toList]] := by decide +kernel
  obtain ⟨S, hS⟩ := hread
  have hcut : d.cutBeforeExtended .top =
      .ok ⟨[.fragment d.pending], [], d.afterElement⟩ := by
    unfold Draft.cutBeforeExtended
    simp only [List.isEmpty_eq_false_iff.mpr hne, Bool.and_false, Bool.false_or, hopen,
      Bool.false_eq_true, if_false, hne]
    have hcombinator : (Text.trim d.pending).head?.any Css.isCombinator = false := by
      rw [Option.any_eq_false]
      exact hlead
    refine addFragment_eq_ok.mpr ⟨by rw [hcombinator, Bool.and_false], ⟨S, hS⟩, ?_⟩
    rw [hnodes, List.nil_append]
  have hadd : d.addExtended readAll .top .not ":hover".toList =
      .ok ⟨[.fragment d.pending, .nested .not [[.fragment ":hover".toList]]], [],
        d.afterElement⟩ := by
    refine addExtended_eq_ok.mpr ⟨?_, by decide, _, .nested .not [[.fragment ":hover".toList]],
      hcut, ?_, rfl⟩
    · unfold Draft.checkPlacement Draft.has
      rw [hnodes]
      cases d.afterElement <;> rfl
    · have hkind : Name.not.argumentKind ":hover".toList = .relative := by decide
      unfold Draft.nodeOf
      rw [hkind]
      simp only [hinner]
      rfl
  have hname : Name.ofText? "not".toList = some .not := by decide
  unfold Progress.step Draft.addPseudoClass
  simp only [hname, hadd]
  rfl

/-- The end of a branch that has a node already. -/
theorem endBranch_of_nodes {s : Scope} {d : Draft} (hne : d.nodes ≠ [])
    (hremove : d.has .remove = false) (hxpath : d.has .xpath = false)
    (hread : (∃ S, Css.Selector.ofText (Text.trim (Text.trimEnd d.pending)) = .ok S) ∨
      Text.trimEnd d.pending = []) :
    Progress.endBranch s ⟨[], d⟩ =
      .ok [d.nodes ++
        if Text.trimEnd d.pending = [] then [] else [.fragment (Text.trimEnd d.pending)]] := by
  unfold Progress.endBranch Draft.cutAtEnd
  by_cases hnil : Text.trimEnd d.pending = []
  · simp only [if_pos hnil, List.isEmpty_eq_false_iff.mpr hne, Bool.false_eq_true, if_false,
      List.append_nil, List.nil_append]
  · obtain ⟨S, hS⟩ := hread.resolve_right hnil
    have hadd : d.addFragment s (Text.trimEnd d.pending) =
        .ok { d with nodes := d.nodes ++ [.fragment (Text.trimEnd d.pending)], pending := [] } := by
      refine addFragment_eq_ok.mpr ⟨?_, ⟨S, hS⟩, rfl⟩
      rw [List.isEmpty_eq_false_iff.mpr hne, Bool.false_and, Bool.false_and]
    simp only [if_neg hnil, hremove, hxpath, Bool.false_eq_true, if_false, hadd, List.nil_append]
    rw [if_neg]
    simp

/-- With `:not(:hover)` put between two parts of a selector without extensions, its fragment becomes
two. -/
theorem readAll_inserted {A c f g : Text} (hA : Css.IsPlain A)
    (hlast : ∀ d ∈ A.getLast?, Text.isBlank d = false) (hc : ∀ d ∈ c.head?, isNext d = true)
    (hf : readAll .top A = .ok [[.fragment f]]) (hg : readAll .top (A ++ c) = .ok [[.fragment g]])
    (hend : ∃ d ∈ f.getLast?, Css.isLast d = true) :
    ∃ w, g = f ++ w ∧ (∀ d ∈ w.head?, isNext d = true ∧ (Text.isBlank d = true → d = ' ')) ∧
      ((∃ S, Css.Selector.ofText (Text.trim w) = .ok S) ∨ w = [] →
      readAll .top (A ++ (alwaysTrue ++ c)) =
        .ok [.fragment f :: .nested .not [[.fragment ":hover".toList]] ::
          if w = [] then [] else [.fragment w]]) := by
  obtain ⟨hnativeA, -, hfne, hreadf, hleadf⟩ := native_of_readAll rfl hf
  obtain ⟨hnative, hg', -, -, -⟩ := native_of_readAll rfl hg
  obtain ⟨hpendingf, hlastf⟩ := pending_of_native rfl hf
  have hne : A ≠ [] := by
    rintro rfl
    rw [pieces_nil] at hpendingf
    exact hfne hpendingf.symm
  have hclean : ∀ q ∈ pieces A, q.isClean = true := fun q hq => isClean_of_isNative (hnativeA q hq)
  have hcolon := heldAfter_ne_colon rfl hf hend
  have hpieces := pieces_append hA hne hlast hclean hcolon hc
  have hpieces' := pieces_append (u := alwaysTrue ++ c) hA hne hlast hclean hcolon
    (by rintro d hd; obtain rfl := Option.some_inj.mp hd; decide)
  rw [piecesFrom_alwaysTrue] at hpieces'
  rw [hpieces] at hnative hg'
  have hhead : ∀ d ∈ ((piecesFrom .nothing (chunks (Text.trimEnd c))).flatMap Piece.text).head?,
      isNext d = true ∧ (Text.isBlank d = true → d = ' ') := by
    have hclean' : ∀ q ∈ piecesFrom .nothing (chunks (Text.trimEnd c)), q.isClean = true :=
      fun q hq => isClean_of_isNative (hnative q (List.mem_append_right _ hq))
    cases hrest : Text.trimEnd c with
    | nil =>
      rw [chunks_nil]
      exact fun d hd => absurd hd (by simp [piecesFrom, Held.release])
    | cons e r =>
      have he : isNext e = true := by
        refine hc e ?_
        rw [← Text.head?_trimEnd (by rw [hrest]; exact List.cons_ne_nil _ _), hrest]
        rfl
      rw [hrest] at hclean'
      rw [head?_text_of_isNext he hclean']
      intro d hd
      obtain rfl := Option.some_inj.mp hd
      split
      · exact ⟨by decide, fun _ => rfl⟩
      · rename_i hblank
        exact ⟨he, fun h => absurd h hblank⟩
  generalize piecesFrom .nothing (chunks (Text.trimEnd c)) = qs at *
  have hnative' := fun q hq => hnative q (List.mem_append_right _ hq)
  rw [List.foldl_append] at hg'
  have hnodes : ((pieces A).foldl Draft.addText .empty).nodes = [] := foldl_addText_nodes _ _
  have hrunA := foldlM_of_isNative hnativeA .start
  simp only [Progress.start] at hrunA
  generalize (pieces A).foldl Draft.addText .empty = d at *
  subst hpendingf
  have hstep := step_alwaysTrue hnodes hfne (not_isOpenEnded hend) hreadf hleadf
  -- from here on both runs add the same text
  have hspace : d.pending.getLast? ≠ some ' ' := by
    intro hspace
    exact absurd (hlastf ' ' hspace) (by decide)
  have hon : GoesOn d.pending d
      ⟨[.fragment d.pending, .nested .not [[.fragment ":hover".toList]]], [], d.afterElement⟩ :=
    ⟨(List.append_nil _).symm, List.cons_ne_nil _ _⟩
  have hon' := hon.foldl_addText hfne hspace qs
  have hnodes' := foldl_addText_nodes qs
    ⟨[.fragment d.pending, .nested .not [[.fragment ":hover".toList]]], [], d.afterElement⟩
  have hfirst := head?_foldl_addText hon.nodes qs
  have hrun := foldlM_of_isNative hnative'
    ⟨[], [.fragment d.pending, .nested .not [[.fragment ":hover".toList]]], [], d.afterElement⟩
  generalize qs.foldl Draft.addText
    ⟨[.fragment d.pending, .nested .not [[.fragment ":hover".toList]]], [], d.afterElement⟩ = e at *
  refine ⟨Text.trimEnd e.pending, ?_, fun b hb => ?_, fun hw => ?_⟩
  · rw [hg', hon'.pending, Text.trimEnd_append_of_last hlastf]
  · refine hhead b ?_
    rw [List.nil_append] at hfirst
    rw [← hfirst, ← Text.head?_trimEnd]
    · exact hb
    · intro hnil
      rw [hnil] at hb
      exact absurd hb (by simp)
  · have hall : (pieces (A ++ (alwaysTrue ++ c))).foldlM (Progress.step readAll .top) .start =
        .ok ⟨[], e⟩ := by
      rw [hpieces', List.foldlM_append, Progress.start, hrunA]
      show (Progress.step readAll .top ⟨[], d⟩ _ >>= _) = _
      rw [hstep]
      exact hrun
    rw [readAll_eq, run, ← piecesOf_eq]
    change finish .top ((pieces (A ++ (alwaysTrue ++ c))).foldlM (Progress.step readAll .top)
      .start) = _
    rw [hall]
    show Progress.endBranch .top ⟨[], e⟩ = _
    rw [endBranch_of_nodes _ _ _ hw, hnodes']
    · rfl
    · rw [hnodes']
      exact List.cons_ne_nil _ _
    · unfold Draft.has
      rw [hnodes']
      rfl
    · unfold Draft.has
      rw [hnodes']
      rfl

end Extended
end CosmeticFilter
