import CosmeticFilter.Proofs.Extended.Arguments
import CosmeticFilter.Proofs.Extended.Placement

/-!
# Removals in a text

A removal is spelled in several ways: the name with brackets behind it or without, in any letter
case, or the name within an attribute selector. Each of them is one piece of the text, and a
selector has the mark of a removal exactly if one of the pieces that it is read from is a removal.
What stands in brackets or quotes is no piece by itself, so a removal there does not count.

* `Piece.isRemoval`, `removals`: the pieces that spell a removal;
* `Progress.HoldsRemoval`, `holdsRemoval_run`: the removals among what has been read;
* `hasRemoval_iff`: a selector has the mark if its text has a removal;
* `piecesIn_spelled`: the pieces of a pseudo-class behind a text, its name in any letter case.
-/

namespace CosmeticFilter
namespace Extended

open Css (isIdentChar)

variable {inner : BranchReader} {s : Scope} {p p' : Progress} {t w : Text}

/-- The piece is a removal, in whichever form. -/
def Piece.isRemoval (q : Piece) : Bool := q.name? == some .remove

/-- How many removals there are in a text, outside arguments. -/
def removals (t : Text) : Nat := (pieces t).countP Piece.isRemoval

/-! ### What has been read -/

/-- One of the nodes is a removal. -/
def HoldsRemoval (ns : List Node) : Prop := ∃ n ∈ ns, n.name? = some .remove

theorem holdsRemoval_append {ns ms : List Node} :
    HoldsRemoval (ns ++ ms) ↔ HoldsRemoval ns ∨ HoldsRemoval ms := by
  simp only [HoldsRemoval, List.mem_append, or_and_right, exists_or]

theorem holdsRemoval_singleton {n : Node} : HoldsRemoval [n] ↔ n.name? = some .remove := by
  simp [HoldsRemoval]

theorem not_holdsRemoval_nil : ¬ HoldsRemoval [] := by simp [HoldsRemoval]

/-- One of the nodes that have been read is a removal. -/
def Progress.HoldsRemoval (p : Progress) : Prop :=
  (∃ ns ∈ p.branches, Extended.HoldsRemoval ns) ∨ Extended.HoldsRemoval p.draft.nodes

/-- Completing a branch adds no removal. -/
theorem holdsRemoval_endBranch {branches : List (List Node)}
    (h : p.endBranch s = .ok branches) :
    (∃ ns ∈ branches, HoldsRemoval ns) ↔ p.HoldsRemoval := by
  obtain ⟨d, hcut, -, rfl⟩ := endBranch_eq_ok.mp h
  have hnodes : HoldsRemoval d.nodes ↔ HoldsRemoval p.draft.nodes := by
    rw [nodes_of_cutAtEnd hcut, holdsRemoval_append, or_iff_left]
    split
    · exact not_holdsRemoval_nil
    · simp [holdsRemoval_singleton, Node.name?]
  simp only [List.mem_append, List.mem_singleton, or_and_right, exists_or, exists_eq_left, hnodes]
  rfl

/-- Adding a pseudo-class adds a removal if it is one. -/
theorem holdsRemoval_addExtended {d d' : Draft} {name : Name} {argument : Text}
    (h : d.addExtended inner s name argument = .ok d') :
    HoldsRemoval d'.nodes ↔ HoldsRemoval d.nodes ∨ name = .remove := by
  obtain ⟨-, -, cut, node, hcut, hnode, rfl⟩ := addExtended_eq_ok.mp h
  have hname : HoldsRemoval [node] ↔ name = .remove := by
    rw [holdsRemoval_singleton, name?_of_nodeOf hnode, Option.some_inj]
  have hbefore : HoldsRemoval cut.nodes ↔ HoldsRemoval d.nodes := by
    rcases cutBeforeExtended_cases hcut with ⟨-, -, rfl⟩ | ⟨t, -, hfragment⟩
    · rfl
    · rw [nodes_of_addFragment hfragment, holdsRemoval_append, or_iff_left]
      simp [holdsRemoval_singleton, Node.name?]
  rw [holdsRemoval_append, hbefore, hname]

/-- Of the pieces only a removal adds one. -/
theorem holdsRemoval_step {q : Piece} (h : p.step inner s q = .ok p') :
    p'.HoldsRemoval ↔ p.HoldsRemoval ∨ q.isRemoval = true := by
  rcases step_named h with ⟨hname, -, rfl⟩ | ⟨rfl, branches, hend, rfl⟩ |
      ⟨name, argument, d, hname, hadd, rfl⟩
  · simp [Progress.HoldsRemoval, Progress.addText, Piece.isRemoval, hname]
  · rw [← holdsRemoval_endBranch hend]
    simp [Progress.HoldsRemoval, Draft.empty, not_holdsRemoval_nil, Piece.isRemoval, Piece.name?]
  · simp [Progress.HoldsRemoval, holdsRemoval_addExtended hadd, Piece.isRemoval, hname, or_assoc]

theorem holdsRemoval_run {qs : List Piece} (h : qs.foldlM (Progress.step inner s) p = .ok p') :
    p'.HoldsRemoval ↔ p.HoldsRemoval ∨ 0 < qs.countP Piece.isRemoval := by
  induction qs generalizing p with
  | nil =>
    obtain rfl := Except.ok.inj h
    simp
  | cons q r ih =>
    obtain ⟨mid, hmid, hrest⟩ := foldlM_cons_eq_ok.mp h
    rw [ih hrest, holdsRemoval_step hmid, List.countP_pos_iff, List.countP_pos_iff,
      List.exists_mem_cons_iff, or_assoc]

/-! ### Selectors -/

/-- Nothing follows a removal, so a selector has the mark if there is a removal in it. -/
theorem hasRemoval_iff_holdsRemoval {sel : Selector} (h : Selector.ofText t = .ok sel) :
    sel.hasRemoval = true ↔ ∃ ns ∈ sel.branches, HoldsRemoval ns := by
  rw [Selector.hasRemoval, List.any_eq_true]
  refine exists_congr fun ns => and_congr_right fun hns => ?_
  have hends := ((isComplete_of_readAll (Selector.ofText_eq_ok.mp h)).2 ns hns).endsAtRemoval
  rw [beq_iff_eq, Option.bind_eq_some_iff]
  constructor
  · rintro ⟨n, hn, hname⟩
    exact ⟨n, List.mem_of_getLast? hn, hname⟩
  · rintro ⟨n, hn, hname⟩
    obtain ⟨front, rest, rfl⟩ := List.append_of_mem hn
    obtain rfl := hends.remove front n rest rfl hname
    exact ⟨n, List.getLast?_concat, hname⟩

/-- **Removals of a selector.** It has the mark exactly if a removal stands in its text. -/
theorem hasRemoval_iff {sel : Selector} (h : Selector.ofText t = .ok sel) :
    sel.hasRemoval = true ↔ 0 < removals t := by
  obtain ⟨p, hrun, hend⟩ := readAll_eq_ok.mp (Selector.ofText_eq_ok.mp h)
  rw [run, ← piecesOf_eq] at hrun
  rw [hasRemoval_iff_holdsRemoval h, holdsRemoval_endBranch hend, holdsRemoval_run hrun,
    or_iff_right]
  · rfl
  · simp [Progress.HoldsRemoval, Progress.start, Draft.empty, not_holdsRemoval_nil]

/-! ### A pseudo-class at the end -/

/-- The name of a pseudo-class is one word. -/
theorem isWord_of_ofText? {name : Name} (h : Name.ofText? w = some name) :
    IsWord w ∧ endsInEscape w = false := by
  have hlower := Name.lower_of_ofText? h
  have hplain : ∀ c ∈ w, isMark c = false ∧ c ≠ '\\' := fun c hc =>
    have hident := isIdentChar_of_ofText? h c hc
    ⟨Css.not_isMark_of_isIdentChar hident.1 hident.2, (Css.plain_of_isIdentChar hident.1).1⟩
  have hne : w ≠ [] := by
    rintro rfl
    cases name <;> exact absurd hlower (by decide)
  have htake : takeWord w = (w, []) := by
    clear hlower hne h
    induction w with
    | nil => rfl
    | cons c r ih =>
      obtain ⟨⟨hmark, hslash⟩, hr⟩ := List.forall_mem_cons.mp hplain
      rw [takeWord_of_not_mark hmark hslash, ih hr]
      rfl
  obtain ⟨c, r, rfl⟩ := List.exists_cons_of_ne_nil hne
  refine ⟨?_, ?_⟩
  · rw [IsWord, chunks_of_word (hplain c List.mem_cons_self).1, htake, chunks_nil]
  · rw [← Bool.not_eq_true]
    exact fun hescape => (hplain _ (List.mem_of_getLast? (getLast?_of_escape hescape))).2 rfl

/-- The pieces of a pseudo-class with an argument behind a text that ends outside groups. -/
theorem piecesIn_spelled {f a : Text} (hclosed : ∀ k ∈ chunks f, k.isClosed = true)
    (hescape : endsInEscape f = false) (hcolon : heldIn f ≠ .colon) {name : Name}
    (hname : Name.ofText? w = some name) (hfills : Inside.start.Fills a) :
    piecesIn (f ++ ':' :: (w ++ '(' :: (a ++ [')']))) =
      piecesIn f ++ [.pseudoClass w (.given a)] := by
  obtain ⟨hword, hword'⟩ := isWord_of_ofText? hname
  have hchunks : chunks (':' :: (w ++ '(' :: (a ++ [')']))) =
      [.mark ':', .word w, .group .parens a true] := by
    rw [chunks_pseudoClass hword hword', chunks_closed_group rfl hfills, chunks_nil]
  have hall : chunks (f ++ ':' :: (w ++ '(' :: (a ++ [')']))) =
      chunks f ++ chunks (':' :: (w ++ '(' :: (a ++ [')']))) :=
    chunks_append hclosed hescape fun _ _ _ => rfl
  rw [piecesIn_append hall, hchunks, piecesFrom, feed_colon hcolon, ← List.append_assoc,
    ← piecesIn_eq]
  rfl

/-- A removal behind a selector is one more than the selector has. -/
theorem removals_append {sel : Selector} (h : Selector.ofText t = .ok sel)
    (hescape : endsInEscape t = false) (hw : Text.lower w = "remove".toList) :
    (sel.hasRemoval = true ↔ 1 < removals (t ++ ':' :: (w ++ "()".toList))) ∧
      0 < removals (t ++ ':' :: (w ++ "()".toList)) := by
  obtain ⟨p, hstands, hend⟩ := exists_stands_of_readAll (Selector.ofText_eq_ok.mp h) hescape
  have hname : Name.ofText? w = some .remove := by
    rw [Name.ofText?, hw]
    decide
  have htrim : Text.trim (t ++ ':' :: (w ++ "()".toList)) =
      Text.trimStart t ++ ':' :: (w ++ '(' :: ([] ++ [')'])) := by
    rw [Text.trim_append_cons (by decide), Text.trimEnd_append (by decide)]
    rfl
  have hpieces : pieces (t ++ ':' :: (w ++ "()".toList)) =
      piecesIn (Text.trimStart t) ++ [.pseudoClass w (.given [])] := by
    rw [pieces, piecesOf_eq, htrim, ← piecesIn_spelled (isClosed_of_run hstands.run)
      hstands.escape hstands.heldIn_ne_colon hname (by decide)]
    rfl
  have hcount : removals (t ++ ':' :: (w ++ "()".toList)) =
      (piecesIn (Text.trimStart t)).countP Piece.isRemoval + 1 := by
    rw [removals, hpieces, List.countP_append, List.countP_singleton, Piece.isRemoval, Piece.name?,
      hname]
    rfl
  rw [hasRemoval_iff_holdsRemoval h, holdsRemoval_endBranch hend, holdsRemoval_run hstands.run,
    or_iff_right, hcount]
  · omega
  · simp [Progress.HoldsRemoval, Progress.start, Draft.empty, not_holdsRemoval_nil]

end Extended
end CosmeticFilter
