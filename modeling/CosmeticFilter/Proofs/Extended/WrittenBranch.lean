import CosmeticFilter.Proofs.Extended.Growth
import CosmeticFilter.Proofs.Extended.Written

/-!
# Branches that have been written

Every branch that is read has been written: its fragments are written text, cut off in front of its
extended pseudo-classes and at its end. This is the first half of the proof that the text of a
selector is read as the selector again; it says what the nodes of a branch look like, whatever text
they have been read from.

* `AreWritten`, `IsWrittenBranch`: nodes and branches that have been written;
* `Draft.IsWritten`: a branch that is being written;
* `Reads`: such a branch with what is held back behind it, and the text that is to come;
* `Progress.Reads.step`, `Progress.Reads.run`: one chunk, and all chunks;
* `isWrittenBranch_of_readAll`: all branches that are read have been written.
-/

namespace CosmeticFilter
namespace Extended

variable {inner : BranchReader} {s : Scope}

/-! ### Cutting -/

/-- The pending text as it is cut in front of a pseudo-class. -/
def Draft.cutText (d : Draft) : Text :=
  if (d.nodes.isEmpty && d.pending.isEmpty) || isOpenEnded d.pending then d.pending ++ ['*']
  else d.pending

theorem cutBeforeExtended_eq (d : Draft) :
    d.cutBeforeExtended s = if d.cutText = [] then .ok d else d.addFragment s d.cutText := rfl

theorem cutText_cases (d : Draft) :
    d.cutText = d.pending ++ ['*'] ∨
      d.cutText = d.pending ∧ ((d.nodes.isEmpty && d.pending.isEmpty) || Draft.isOpenEnded d.pending)
        = false := by
  unfold Draft.cutText
  split
  · exact Or.inl rfl
  · rename_i h
    exact Or.inr ⟨rfl, Bool.not_eq_true _ ▸ h⟩

theorem pending_eq_nil_of_cutText {d : Draft} (h : d.cutText = []) : d.pending = [] := by
  rcases cutText_cases d with hstar | ⟨hsame, -⟩
  · rw [hstar] at h
    exact absurd h (List.append_ne_nil_of_right_ne_nil _ (List.cons_ne_nil _ _))
  · rw [← hsame, h]

/-- Text that has been cut is cut as it is. -/
theorem cutText_cutText (d : Draft) : Draft.cutText { d with pending := d.cutText } = d.cutText := by
  rcases cutText_cases d with hstar | ⟨hsame, hclosed⟩
  · rw [hstar]
    have hopen : Draft.isOpenEnded (d.pending ++ ['*']) = false := by
      rw [Draft.isOpenEnded, List.getLast?_concat]
      rfl
    have hempty : (d.pending ++ ['*']).isEmpty = false :=
      List.isEmpty_eq_false_iff.mpr (List.append_ne_nil_of_right_ne_nil _ (List.cons_ne_nil _ _))
    unfold Draft.cutText
    simp only [hempty, hopen, Bool.and_false, Bool.or_false, Bool.false_eq_true, if_false]
  · rw [hsame]
    unfold Draft.cutText
    simp only [hclosed, Bool.false_eq_true, if_false]

/-- What is left after the cut in front of a pseudo-class. -/
theorem cutBeforeExtended_eq_ok {d cut : Draft} (h : d.cutBeforeExtended s = .ok cut) :
    cut = ⟨d.nodes ++ if d.cutText = [] then [] else [.fragment d.cutText], [], d.afterElement⟩ := by
  rw [cutBeforeExtended_eq] at h
  split at h
  · rename_i hnil
    rw [if_pos hnil, List.append_nil, ← Except.ok.inj h, ← pending_eq_nil_of_cutText hnil]
  · rename_i hne
    rw [if_neg hne]
    exact (addFragment_eq_ok.mp h).2.2

/-- It does not matter whether the text has been cut before. -/
theorem cutBeforeExtended_cutText (d : Draft) :
    Draft.cutBeforeExtended s { d with pending := d.cutText } = d.cutBeforeExtended s := by
  rw [cutBeforeExtended_eq, cutBeforeExtended_eq, cutText_cutText]
  split
  · rename_i hnil
    rw [hnil, ← pending_eq_nil_of_cutText hnil]
  · rfl

/-! ### Nodes -/

/-- The nodes have been written one pseudo-class after the other, each behind written text; `a` is
true if a pseudo-element has been read. -/
inductive AreWritten (inner : BranchReader) (s : Scope) : List Node → Bool → Prop where
  /-- No nodes. -/
  | nil : AreWritten inner s [] false
  /-- A pseudo-element may have been read. -/
  | weaken {ns : List Node} {a a' : Bool} : AreWritten inner s ns a → (a = true → a' = true) →
      AreWritten inner s ns a'
  /-- A pseudo-class behind the text `f`. -/
  | extended {ns : List Node} {a : Bool} {f : Text} {name : Name} {argument : Text} {d : Draft} :
      AreWritten inner s ns a → IsWritten inner s (!ns.isEmpty) f → endsInEscape f = false →
      ((piecesIn f).any Piece.isElement = true → a = true) →
      Draft.cutText ⟨ns, f, a⟩ = f →
      Draft.addExtended inner s ⟨ns, f, a⟩ name argument = .ok d →
      AreWritten inner s d.nodes a

/-- The nodes have been written, with the text `f` at the end. -/
def IsWrittenBranch (inner : BranchReader) (s : Scope) (ns : List Node) : Prop :=
  ∃ ms a f d, AreWritten inner s ms a ∧ IsWritten inner s (!ms.isEmpty) f ∧ Text.trimEnd f = f ∧
    Draft.cutAtEnd s ⟨ms, f, a⟩ = .ok d ∧ d.nodes ≠ [] ∧ ns = d.nodes

/-- The branch has been written so far. -/
structure Draft.IsWritten (inner : BranchReader) (s : Scope) (d : Draft) : Prop where
  /-- The nodes. -/
  nodes : AreWritten inner s d.nodes d.afterElement
  /-- The pending text. -/
  text : Extended.IsWritten inner s (!d.nodes.isEmpty) d.pending
  /-- The pseudo-elements in the pending text have been seen. -/
  element : (piecesIn d.pending).any Piece.isElement = true → d.afterElement = true

namespace Draft.IsWritten

variable {d : Draft}

theorem empty : Draft.empty.IsWritten inner s := by
  refine ⟨.nil, .nil, fun h => ?_⟩
  rw [Draft.empty, piecesIn_nil] at h
  exact absurd h Bool.false_ne_true

/-- The pending text in front of a pseudo-class. -/
theorem cutText (h : d.IsWritten inner s) (hescape : endsInEscape d.pending = false) :
    Draft.IsWritten inner s { d with pending := d.cutText } ∧ endsInEscape d.cutText = false := by
  rcases cutText_cases d with hstar | ⟨hsame, -⟩
  · rw [hstar]
    have hfeed : (heldIn d.pending).feed (.mark '*') =
        ((heldIn d.pending).release ++ [.verbatim ['*']], .nothing) := feed_mark (by decide) _
    obtain ⟨htext, hpieces, -⟩ := h.text.chunk (k := .mark '*') hescape
      (by rw [Chunk.text, chunks_of_mark (by decide) (by decide), chunks_nil]) rfl (by decide) rfl
      (by
        rw [hfeed]
        intro q hq
        rcases List.mem_append.mp hq with hq | hq
        · exact h.text.pieces q (by rw [piecesIn_eq]; exact List.mem_append_right _ hq)
        · rw [List.mem_singleton.mp hq]
          exact Or.inr (isNative_verbatim _))
      (by rw [hfeed])
    refine ⟨⟨h.nodes, htext, fun helement => h.element ?_⟩, ?_⟩
    · rw [Chunk.text, hfeed, ← List.append_assoc, ← piecesIn_eq] at hpieces
      rw [hpieces, List.any_append] at helement
      exact (Bool.or_false _).symm.trans helement
    · rw [endsInEscape_append hescape]
      rfl
  · rw [hsame]
    exact ⟨h, hescape⟩

/-- A pseudo-class leaves nothing pending. -/
theorem addExtended (h : d.IsWritten inner s) (hescape : endsInEscape d.pending = false)
    {d' : Draft} {name : Name} {argument : Text}
    (hadd : d.addExtended inner s name argument = .ok d') :
    d'.IsWritten inner s ∧ d'.pending = [] := by
  obtain ⟨hcut, hescape'⟩ := h.cutText hescape
  have hagain : Draft.addExtended inner s { d with pending := d.cutText } name argument = .ok d' := by
    obtain ⟨hplace, hargument, cut, node, hbefore, hnode, rfl⟩ := addExtended_eq_ok.mp hadd
    refine addExtended_eq_ok.mpr ⟨hplace, hargument, cut, node, ?_, hnode, rfl⟩
    rw [cutBeforeExtended_cutText]
    exact hbefore
  have hnodes := AreWritten.extended hcut.nodes hcut.text hescape' hcut.element
    (cutText_cutText d) hagain
  obtain ⟨-, -, cut, node, hbefore, -, rfl⟩ := addExtended_eq_ok.mp hadd
  obtain rfl := cutBeforeExtended_eq_ok hbefore
  refine ⟨⟨hnodes, .nil, fun helement => ?_⟩, rfl⟩
  rw [piecesIn_nil] at helement
  exact absurd helement Bool.false_ne_true

end Draft.IsWritten

/-- The branch at its end. -/
theorem Draft.IsWritten.isWrittenBranch {d d' : Draft} (h : d.IsWritten inner s)
    (hcut : d.cutAtEnd s = .ok d') (hne : d'.nodes ≠ []) : IsWrittenBranch inner s d'.nodes := by
  refine ⟨d.nodes, d.afterElement, Text.trimEnd d.pending, d', h.nodes, h.text.trimEnd,
    Text.trimEnd_trimEnd _, ?_, hne, rfl⟩
  unfold Draft.cutAtEnd at hcut ⊢
  rw [Text.trimEnd_trimEnd]
  exact hcut

/-- What has been read so far has been written. -/
structure Progress.IsWritten (inner : BranchReader) (s : Scope) (p : Progress) : Prop where
  /-- The branch that is being read. -/
  draft : p.draft.IsWritten inner s
  /-- The branches before it. -/
  branches : ∀ ns ∈ p.branches, IsWrittenBranch inner s ns

theorem Progress.IsWritten.endBranch {p : Progress} (h : p.IsWritten inner s)
    {branches : List (List Node)} (hend : p.endBranch s = .ok branches) :
    ∀ ns ∈ branches, IsWrittenBranch inner s ns := by
  obtain ⟨d, hcut, hne, rfl⟩ := endBranch_eq_ok.mp hend
  intro ns hns
  rcases List.mem_append.mp hns with hns | hns
  · exact h.branches ns hns
  · rw [List.mem_singleton.mp hns]
    exact h.draft.isWrittenBranch hcut hne

/-! ### What is held back -/

/-- The branch has been written so far, with something held back and the text `r` to come. -/
structure Reads (inner : BranchReader) (s : Scope) (h : Held) (d : Draft) (r : Text) : Prop where
  /-- The branch. -/
  written : d.IsWritten inner s
  /-- If nothing is held back, the pending text holds back the name of a pseudo-element at most. -/
  quiet : h = .nothing → (heldIn d.pending).IsQuiet
  /-- Behind the pending text, anything else that is held back starts anew. -/
  behind : h ≠ .nothing → heldIn d.pending ≠ .colon ∧ endsInEscape d.pending = false
  /-- A name that is held back is a word, and a mark follows it. -/
  name : ∀ w ∈ h.name?, IsWord w ∧ startsWithMark r = true
  /-- No backslash waits for a character of the text to come. -/
  escape : r ≠ [] → endsInEscape (d.pending ++ h.text) = false

/-- Nothing is held back. -/
theorem Reads.of_nothing {d : Draft} {r : Text} (hd : d.IsWritten inner s)
    (hquiet : (heldIn d.pending).IsQuiet) (hescape : r ≠ [] → endsInEscape d.pending = false) :
    Reads inner s .nothing d r := by
  refine ⟨hd, fun _ => hquiet, fun hne => absurd rfl hne, fun w hw => absurd hw (by simp [Held.name?]),
    fun hr => ?_⟩
  rw [Held.text, List.append_nil]
  exact hescape hr

theorem reads_empty (r : Text) : Reads inner s .nothing .empty r :=
  .of_nothing .empty (Or.inl heldIn_nil) fun _ => rfl

/-- The branch with what is held back as a part of its text. -/
def Draft.writeHeld (d : Draft) (h : Held) : Draft :=
  { d.write h.text with afterElement := d.afterElement || h.release.any Piece.isElement }

theorem Reads.writeHeld {h : Held} {d : Draft} {r : Text} (hd : Reads inner s h d r)
    (hne : h ≠ .nothing) (hpieces : ∀ q ∈ h.release, q.IsWritten inner s) :
    (d.writeHeld h).IsWritten inner s ∧ heldIn (d.writeHeld h).pending = h := by
  obtain ⟨hcolon, hescape⟩ := hd.behind hne
  obtain ⟨htext, hall, hheld⟩ :=
    hd.written.text.hold hescape hcolon hne (fun w hw => (hd.name w hw).1) hpieces
  refine ⟨⟨hd.written.nodes.weaken fun ha => Bool.or_eq_true_iff.mpr (Or.inl ha), htext,
    fun hany => ?_⟩, hheld⟩
  have hany : (piecesIn (d.pending ++ h.text)).any Piece.isElement = true := hany
  rw [hall, List.any_append, Bool.or_eq_true_iff] at hany
  exact Bool.or_eq_true_iff.mpr (hany.imp_left hd.written.element)

/-- What is held back becomes pending, or it is a pseudo-class that leaves nothing pending. -/
theorem Reads.release {h : Held} {p p' : Progress} {r : Text} (hd : Reads inner s h p.draft r)
    (hne : h ≠ .nothing) (hrun : h.release.foldlM (Progress.step inner s) p = .ok p') :
    p'.branches = p.branches ∧ p'.draft.IsWritten inner s ∧
      (p'.draft.pending = [] ∨
        p'.draft.pending = p.draft.pending ++ h.text ∧ heldIn p'.draft.pending = h) := by
  obtain ⟨q, hq⟩ : ∃ q, h.release = [q] := by
    cases h <;> first | exact ⟨_, rfl⟩ | exact absurd rfl hne
  have hspace : q ≠ .space := ne_space_of_release h q (hq ▸ List.mem_singleton_self q)
  have hstep : p.step inner s q = .ok p' := foldlM_singleton_eq_ok.mp (hq ▸ hrun)
  rcases step_inversion hstep with ⟨hnative, rfl⟩ | ⟨rfl, -⟩ | ⟨_, _, d, hadd, rfl⟩
  · have hadd : p.draft.addText q = p.draft.writeHeld h := by
      have htext := flatMap_text_release h
      rw [hq, List.flatMap_singleton] at htext
      unfold Draft.addText Draft.writeHeld
      rw [if_neg hspace, htext, hq, List.any_cons, List.any_nil, Bool.or_false]
    obtain ⟨hwritten, hheld⟩ := hd.writeHeld hne fun q' hq' => by
      rw [hq] at hq'
      exact Or.inr (List.mem_singleton.mp hq' ▸ hnative)
    rw [Progress.addText, hadd]
    exact ⟨rfl, hwritten, Or.inr ⟨rfl, hheld⟩⟩
  · cases h <;> exact absurd hq (by simp [Held.release])
  · obtain ⟨hwritten, hnil⟩ := hd.written.addExtended (hd.behind hne).2 hadd
    exact ⟨rfl, hwritten, Or.inl hnil⟩

/-- Something else is held back now. -/
theorem Reads.hold {h h' : Held} {d : Draft} {r r' : Text} (hd : Reads inner s h d r)
    (hne : h ≠ .nothing) (hne' : h' ≠ .nothing)
    (hname : ∀ w ∈ h'.name?, IsWord w ∧ startsWithMark r' = true)
    (hescape : r' ≠ [] → endsInEscape h'.text = false) : Reads inner s h' d r' := by
  refine ⟨hd.written, fun hnil => absurd hnil hne', fun _ => hd.behind hne, hname, fun hr => ?_⟩
  rw [endsInEscape_append (hd.behind hne).2]
  exact hescape hr

/-! ### One chunk -/

/-- How a chunk goes on behind what a text holds back: a word behind nothing or the name of a
pseudo-element, or a chunk that starts anew, or the argument of a pseudo-element. -/
inductive Held.Restarts : Held → Chunk → Prop where
  /-- A word. -/
  | word {h : Held} {w : Text} : h.IsQuiet → Restarts h (.word w)
  /-- Anything else. -/
  | other {h : Held} {k : Chunk} : k.isWord = false →
      h.feed k = (h.release ++ (restart k).1, (restart k).2) → Restarts h k
  /-- The argument of a pseudo-element. -/
  | argument {name content : Text} {closed : Bool} :
      Restarts (.pseudoElement name) (.group .parens content closed)

theorem Held.IsQuiet.restarts {h : Held} (hquiet : h.IsQuiet) (k : Chunk) : h.Restarts k := by
  cases k with
  | word w => exact .word hquiet
  | mark c =>
    refine .other rfl ?_
    rcases hquiet with rfl | ⟨_, rfl⟩ <;> rfl
  | group g content closed =>
    rcases hquiet with rfl | ⟨_, rfl⟩
    · exact .other rfl rfl
    · cases g with
      | parens => exact .argument
      | square => exact .other rfl rfl
      | quoted q => exact .other rfl rfl

theorem isElement_restart (k : Chunk) : ∀ q ∈ (Held.restart k).1, q.isElement = false := by
  intro q hq
  cases k with
  | mark c =>
    unfold Held.restart Piece.ofMark at hq
    simp only at hq
    split at hq
    · exact absurd hq List.not_mem_nil
    · rw [List.mem_singleton.mp hq]
      split
      · rfl
      · split
        · rfl
        · split <;> rfl
  | word w =>
    rw [List.mem_singleton.mp hq]
    rfl
  | group g content closed =>
    rw [List.mem_singleton.mp hq]
    cases g <;> cases closed <;> rfl

namespace Draft.IsWritten

variable {d : Draft} {k : Chunk} {r : Text}

/-- A chunk that completes written pieces is added as its text, if it is no word and no blank. Its
pseudo-elements have been held back already. -/
theorem chunk (h : d.IsWritten inner s) (hescape : endsInEscape d.pending = false) (hcut : k.IsCut r)
    (hclosed : k.isClosed = true) (hblank : k.isBlank = false) (hword : k.isWord = false)
    (hpieces : ∀ q ∈ ((heldIn d.pending).feed k).1, q.IsWritten inner s)
    (hheld : ((heldIn d.pending).feed k).2 = .nothing)
    (helement : ((heldIn d.pending).feed k).1.any Piece.isElement = true →
      (heldIn d.pending).release.any Piece.isElement = true) :
    Reads inner s .nothing (d.write k.text) r := by
  obtain ⟨htext, hall, hnothing⟩ :=
    h.text.chunk hescape (hcut.chunks_text hclosed) hclosed hblank hword hpieces hheld
  refine .of_nothing ⟨h.nodes, htext, fun hany => h.element ?_⟩ (Or.inl hnothing) fun hr => ?_
  · have hany : (piecesIn (d.pending ++ k.text)).any Piece.isElement = true := hany
    rw [hall, List.any_append, Bool.or_eq_true_iff] at hany
    rw [piecesIn_eq, List.any_append, Bool.or_eq_true_iff]
    exact hany.imp_right helement
  · show endsInEscape (d.pending ++ k.text) = false
    rw [endsInEscape_append hescape]
    exact hcut.escape hr

/-- A native chunk that is no word and no blank. -/
theorem addChunk (h : d.IsWritten inner s) (hescape : endsInEscape d.pending = false)
    (hcut : k.IsCut r) (hblank : k.isBlank = false) (hword : k.isWord = false)
    (hrestarts : (heldIn d.pending).Restarts k) {q : Piece} (hq : Held.restart k = ([q], .nothing))
    (hnative : q.IsNative inner s) : Reads inner s .nothing (d.addText q) r := by
  have hmem : q ∈ (Held.nothing.feed k).1 := by
    rw [feed_nothing, hq]
    exact List.mem_singleton_self q
  have helement : q.isElement = false :=
    isElement_restart k q (by rw [hq]; exact List.mem_singleton_self q)
  have hclean : ∀ q' ∈ piecesFrom .nothing [k], q'.isClean = true := by
    intro q' hq'
    rw [piecesFrom, feed_nothing, hq] at hq'
    rw [List.mem_singleton.mp hq']
    exact isClean_of_isNative hnative
  have hclosed : k.isClosed = true := isClosed_of_isClean hclean k (List.mem_singleton_self k)
  have hadd : d.addText q = d.write k.text := by
    have htext := text_restart (k := k) fun q' hq' => by
      rw [hq] at hq'
      rw [List.mem_singleton.mp hq']
      exact isClean_of_isNative hnative
    rw [hq, spaced_eq_text hblank, List.flatMap_singleton, Held.text, List.append_nil] at htext
    unfold Draft.addText
    rw [if_neg (ne_space_of_feed hblank q hmem), helement, Bool.or_false, htext]
    rfl
  rw [hadd]
  generalize hheld : heldIn d.pending = held at hrestarts
  cases hrestarts with
  | word _ => exact absurd hword (by simp [Chunk.isWord])
  | other _ hfeed =>
    rw [hq] at hfeed
    refine h.chunk hescape hcut hclosed hblank hword ?_ ?_ ?_
    · rw [hheld, hfeed]
      intro q' hq'
      rcases List.mem_append.mp hq' with hq' | hq'
      · exact h.text.pieces q' (by rw [piecesIn_eq, hheld]; exact List.mem_append_right _ hq')
      · rw [List.mem_singleton.mp hq']
        exact Or.inr hnative
    · rw [hheld, hfeed]
    · rw [hheld, hfeed, List.any_append, List.any_cons, helement]
      exact fun hany => (Bool.or_false _).symm.trans hany
  | @argument name content closed =>
    obtain rfl : closed = true := hclosed
    refine h.chunk hescape hcut rfl rfl rfl ?_ ?_ ?_
    · rw [hheld]
      intro q' hq'
      rw [List.mem_singleton.mp hq']
      exact isWritten_pseudoElement name content
    · rw [hheld]
      rfl
    · rw [hheld]
      exact fun _ => rfl

/-- A blank is added as a space, unless one stands there. -/
theorem addBlank (h : d.IsWritten inner s) (hescape : endsInEscape d.pending = false) :
    Reads inner s .nothing d.writeSpace r := by
  unfold Draft.writeSpace
  split
  · rename_i hdropped
    refine .of_nothing h ?_ fun _ => hescape
    rcases Bool.or_eq_true_iff.mp hdropped with hempty | hlast
    · rw [List.isEmpty_iff.mp (Bool.and_eq_true_iff.mp hempty).1]
      exact Or.inl heldIn_nil
    · exact h.text.isQuiet (beq_iff_eq.mp hlast)
  · rename_i hkept
    obtain ⟨hempty, hlast⟩ := Bool.or_eq_false_iff.mp (Bool.not_eq_true _ ▸ hkept)
    have hbehind : (!d.nodes.isEmpty) = true ∨ d.pending ≠ [] := by
      rcases Bool.and_eq_false_iff.mp hempty with hpending | hnodes
      · exact Or.inr (List.isEmpty_eq_false_iff.mp hpending)
      · exact Or.inl (by rw [hnodes]; rfl)
    obtain ⟨htext, hpieces, hheld⟩ :=
      h.text.space hescape hbehind fun heq => absurd (beq_iff_eq.mpr heq) (by rw [hlast]; simp)
    refine .of_nothing ⟨h.nodes, htext, fun hany => h.element ?_⟩ (Or.inl hheld) fun _ => ?_
    · have hany : (piecesIn (d.pending ++ [' '])).any Piece.isElement = true := hany
      rw [hpieces, List.any_append] at hany
      exact (Bool.or_false _).symm.trans hany
    · show endsInEscape (d.pending ++ [' ']) = false
      rw [endsInEscape_append hescape]
      rfl

/-- A word. -/
theorem addWord (h : d.IsWritten inner s) (hescape : endsInEscape d.pending = false)
    (hquiet : (heldIn d.pending).IsQuiet) {w : Text} (hcut : (Chunk.word w).IsCut r) :
    Reads inner s .nothing (d.write w) r := by
  obtain ⟨htext, hany, hheld⟩ := h.text.word hescape hquiet (hcut.chunks_text rfl)
  refine .of_nothing ⟨h.nodes, htext, fun helement => h.element ?_⟩ hheld fun hr => ?_
  · exact hany.symm.trans helement
  · show endsInEscape (d.pending ++ w) = false
    rw [endsInEscape_append hescape]
    exact hcut.escape hr

end Draft.IsWritten

/-- What has been read so far has been written, with something held back and the text `r` to come. -/
structure Progress.Reads (inner : BranchReader) (s : Scope) (h : Held) (p : Progress) (r : Text) :
    Prop where
  /-- The branch that is being read. -/
  draft : Extended.Reads inner s h p.draft r
  /-- The branches before it. -/
  branches : ∀ ns ∈ p.branches, IsWrittenBranch inner s ns

/-- A chunk that starts anew. -/
theorem Progress.IsWritten.restart {p p' : Progress} {k : Chunk} {r : Text}
    (h : p.IsWritten inner s) (hescape : endsInEscape p.draft.pending = false) (hcut : k.IsCut r)
    (hrestarts : (heldIn p.draft.pending).Restarts k)
    (hrun : (Held.restart k).1.foldlM (Progress.step inner s) p = .ok p') :
    p'.Reads inner s (Held.restart k).2 r := by
  have hsingle : ∀ {q : Piece}, Held.restart k = ([q], .nothing) → p.step inner s q = .ok p' := by
    intro q hq
    rw [hq] at hrun
    exact foldlM_singleton_eq_ok.mp hrun
  have hother : ∀ {q : Piece}, Held.restart k = ([q], .nothing) → k.isWord = false →
      k.isBlank = false → p'.Reads inner s .nothing r := by
    intro q hq hword hblank
    rcases step_inversion (hsingle hq) with ⟨hnative, rfl⟩ | ⟨-, branches, hend, rfl⟩ |
      ⟨_, _, d, hadd, rfl⟩
    · exact ⟨h.draft.addChunk hescape hcut hblank hword hrestarts hq hnative, h.branches⟩
    · exact ⟨reads_empty r, h.endBranch hend⟩
    · obtain ⟨hwritten, hnil⟩ := h.draft.addExtended hescape hadd
      refine ⟨.of_nothing hwritten ?_ fun _ => ?_, h.branches⟩
      · rw [hnil]
        exact Or.inl heldIn_nil
      · rw [hnil]
        rfl
  cases k with
  | word w =>
    have hquiet : (heldIn p.draft.pending).IsQuiet := by
      generalize heldIn p.draft.pending = held at hrestarts
      cases hrestarts with
      | word hquiet => exact hquiet
      | other hword _ => exact absurd hword (by simp [Chunk.isWord])
    rw [← Except.ok.inj (hsingle rfl)]
    exact ⟨h.draft.addWord hescape hquiet hcut, h.branches⟩
  | group g content closed => exact hother rfl rfl rfl
  | mark c =>
    by_cases hc : c = ':'
    · subst hc
      obtain rfl := Except.ok.inj hrun
      have hcolon : heldIn p.draft.pending ≠ .colon := by
        intro heq
        rw [heq] at hrestarts
        cases hrestarts with
        | other _ hfeed => exact absurd hfeed (by simp [Held.feed, Held.restart])
      refine ⟨⟨h.draft, fun hne => absurd hne (by simp [Held.restart]), fun _ => ⟨hcolon, hescape⟩,
        fun w hw => absurd hw (by simp [Held.restart, Held.name?]), fun _ => ?_⟩, h.branches⟩
      rw [endsInEscape_append hescape]
      rfl
    · have hrestart : Held.restart (.mark c) = ([.ofMark c], .nothing) := by
        rw [Held.restart, if_neg hc]
      rw [hrestart]
      cases hblank : Text.isBlank c with
      | false => exact hother hrestart rfl hblank
      | true =>
        have hstep := hsingle hrestart
        rw [ofMark_of_blank hblank] at hstep
        rw [← Except.ok.inj hstep]
        exact ⟨h.draft.addBlank hescape, h.branches⟩

/-- A word does not start anew behind a colon, and it does not follow a name. -/
theorem Reads.feed_word_ne {h : Held} {d : Draft} {w r : Text} (hd : Reads inner s h d (w ++ r))
    (hne : h ≠ .nothing) (hw : IsWord w) : h.feed (.word w) ≠
      (h.release ++ (Held.restart (.word w)).1, (Held.restart (.word w)).2) := by
  have hmark : ∀ v, h.name? ≠ some v := by
    intro v hv
    obtain ⟨c, x, rfl, hc, -⟩ := hw.cases
    have hstart := (hd.name v hv).2
    rw [List.cons_append, startsWithMark_cons, hc] at hstart
    exact absurd hstart Bool.false_ne_true
  cases h with
  | nothing => exact absurd rfl hne
  | colon => simp [Held.feed, Held.restart]
  | colons => simp [Held.feed, Held.restart]
  | pseudoClass name => exact absurd rfl (hmark name)
  | pseudoElement name => exact absurd rfl (hmark name)

/-- The argument of a native pseudo-class or pseudo-element. -/
theorem Reads.argument {h : Held} {d : Draft} {content r r' : Text} {q : Piece}
    (hd : Reads inner s h d r') (hne : h ≠ .nothing) (hr' : r' ≠ [])
    (hcut : (Chunk.group .parens content true).IsCut r)
    (hfeed : h.feed (.group .parens content true) = ([q], .nothing)) (hnative : q.IsNative inner s)
    (hrelease : ∀ q' ∈ h.release, q'.IsWritten inner s)
    (hadd : d.addText q = (d.writeHeld h).write (Chunk.group .parens content true).text)
    (helement : q.isElement = true → h.release.any Piece.isElement = true) :
    Reads inner s .nothing (d.addText q) r := by
  obtain ⟨hwritten, hheld⟩ := hd.writeHeld hne hrelease
  rw [hadd]
  refine hwritten.chunk (hd.escape hr') hcut rfl rfl rfl ?_ ?_ ?_
  · rw [hheld, hfeed]
    exact fun q' hq' => List.mem_singleton.mp hq' ▸ Or.inr hnative
  · rw [hheld, hfeed]
  · rw [hheld, hfeed, List.any_cons, List.any_nil, Bool.or_false]
    exact helement

/-- One chunk. -/
theorem Progress.Reads.step {h : Held} {p p' : Progress} {k : Chunk} {r : Text}
    (hp : p.Reads inner s h (k.text ++ r)) (hcut : k.IsCut r)
    (hrun : (h.feed k).1.foldlM (Progress.step inner s) p = .ok p') :
    p'.Reads inner s (h.feed k).2 r := by
  have hr : k.text ++ r ≠ [] := List.append_ne_nil_of_left_ne_nil hcut.text_ne_nil r
  have hescape := hp.draft.escape hr
  have hsingle : ∀ {q : Piece}, h.feed k = ([q], .nothing) → p.step inner s q = .ok p' := by
    intro q hq
    rw [hq] at hrun
    exact foldlM_singleton_eq_ok.mp hrun
  have hextended : ∀ {name : Name} {argument : Text} {d : Draft}, h ≠ .nothing →
      p.draft.addExtended inner s name argument = .ok d → p' = ⟨p.branches, d⟩ →
        p'.Reads inner s .nothing r := by
    rintro name argument d hne hadd rfl
    obtain ⟨hwritten, hnil⟩ := hp.draft.written.addExtended (hp.draft.behind hne).2 hadd
    refine ⟨.of_nothing hwritten ?_ fun _ => ?_, hp.branches⟩
    · rw [hnil]
      exact Or.inl heldIn_nil
    · rw [hnil]
      rfl
  rcases h.feed_cases k with heq | ⟨rfl, rfl, heq⟩ | ⟨w, rfl, rfl, heq⟩ | ⟨w, rfl, rfl, heq⟩ |
    ⟨name, content, closed, rfl, rfl, heq⟩ | ⟨name, content, closed, rfl, rfl, heq⟩
  · rw [heq] at hrun ⊢
    obtain ⟨mid, hrelease, hrestart⟩ := foldlM_append_eq_ok.mp hrun
    by_cases hne : h = .nothing
    · subst hne
      obtain rfl := Except.ok.inj hrelease
      rw [Held.text, List.append_nil] at hescape
      exact Progress.IsWritten.restart ⟨hp.draft.written, hp.branches⟩ hescape hcut
        ((hp.draft.quiet rfl).restarts k) hrestart
    · obtain ⟨hbranches, hwritten, hpending⟩ := hp.draft.release hne hrelease
      refine Progress.IsWritten.restart ⟨hwritten, hbranches ▸ hp.branches⟩ ?_ hcut ?_ hrestart
      · rcases hpending with hnil | ⟨htext, -⟩
        · rw [hnil]
          rfl
        · rw [htext]
          exact hescape
      · rcases hpending with hnil | ⟨-, hheld⟩
        · rw [hnil, heldIn_nil]
          exact Held.IsQuiet.restarts (Or.inl rfl) k
        · rw [hheld]
          refine .other ?_ heq
          cases k with
          | mark c => rfl
          | group g content closed => rfl
          | word w => exact absurd heq (hp.draft.feed_word_ne hne (hcut.chunks_text rfl))
  · obtain rfl := Except.ok.inj hrun
    exact ⟨hp.draft.hold (by simp) (by simp [Held.feed])
      (fun w hw => absurd hw (by simp [Held.feed, Held.name?])) (fun _ => rfl), hp.branches⟩
  · obtain rfl := Except.ok.inj hrun
    refine ⟨hp.draft.hold (by simp) (by simp [Held.feed]) (fun w' hw' => ?_) fun hr => ?_, hp.branches⟩
    · obtain rfl := Option.some_inj.mp hw'
      exact ⟨hcut.chunks_text rfl, hcut.seam rfl⟩
    · exact (endsInEscape_cons (by decide) w).trans (hcut.escape hr)
  · obtain rfl := Except.ok.inj hrun
    refine ⟨hp.draft.hold (by simp) (by simp [Held.feed]) (fun w' hw' => ?_) fun hr => ?_, hp.branches⟩
    · obtain rfl := Option.some_inj.mp hw'
      exact ⟨hcut.chunks_text rfl, hcut.seam rfl⟩
    · exact (endsInEscape_cons (by decide) _).trans
        ((endsInEscape_cons (by decide) w).trans (hcut.escape hr))
  · rw [heq]
    rcases step_inversion (hsingle heq) with ⟨hnative, rfl⟩ | ⟨hcomma, -⟩ | ⟨_, _, d, hadd, hp'⟩
    · cases closed with
      | false => exact absurd (isClean_of_isNative hnative) Bool.false_ne_true
      | true =>
        refine ⟨hp.draft.argument (by simp) hr hcut heq hnative (fun q' hq' => ?_) ?_ ?_, hp.branches⟩
        · rw [List.mem_singleton.mp hq']
          exact Or.inr (isNative_absent hnative)
        · simp [Draft.addText, Draft.writeHeld, Draft.write, Held.text, Held.release, Piece.text,
            Piece.isElement, Argument.ofGroup, Argument.text, Chunk.text, Group.opening,
            Group.closing]
        · simp [Held.release, Piece.isElement]
    · exact absurd hcomma (by simp)
    · exact hextended (by simp) hadd hp'
  · rw [heq]
    rcases step_inversion (hsingle heq) with ⟨hnative, rfl⟩ | ⟨hcomma, -⟩ | ⟨_, _, d, hadd, hp'⟩
    · cases closed with
      | false => exact absurd (isClean_of_isNative hnative) Bool.false_ne_true
      | true =>
        refine ⟨hp.draft.argument (by simp) hr hcut heq hnative (fun q' hq' => ?_) ?_ ?_, hp.branches⟩
        · rw [List.mem_singleton.mp hq']
          exact Or.inr (IsOfWord.pseudoElement.isNative name)
        · simp [Draft.addText, Draft.writeHeld, Draft.write, Held.text, Held.release, Piece.text,
            Piece.isElement, Argument.ofGroup, Argument.text, Chunk.text, Group.opening,
            Group.closing]
        · simp [Held.release, Piece.isElement]
    · exact absurd hcomma (by simp)
    · exact hextended (by simp) hadd hp'

/-! ### All chunks -/

theorem Progress.Reads.run {h : Held} {p p' : Progress} {t : Text} (hp : p.Reads inner s h t)
    (hrun : Extended.run inner s h p (chunks t) = .ok p') : p'.IsWritten inner s := by
  induction t using cut_induction generalizing h p with
  | nil =>
    rw [chunks_nil, Extended.run, piecesFrom] at hrun
    by_cases hne : h = .nothing
    · subst hne
      obtain rfl := Except.ok.inj hrun
      exact ⟨hp.draft.written, hp.branches⟩
    · obtain ⟨hbranches, hwritten, -⟩ := hp.draft.release hne hrun
      exact ⟨hwritten, hbranches ▸ hp.branches⟩
  | cons k r hchunks hcut ih =>
    rw [hchunks, run_cons] at hrun
    obtain ⟨mid, hstep, hrest⟩ := Outcome.bind_eq_ok.mp hrun
    exact ih (hp.step hcut hstep) hrest

/-- All branches that are read have been written. -/
theorem isWrittenBranch_of_readAll {t : Text} {bs : List (List Node)} (h : readAll s t = .ok bs) :
    ∀ ns ∈ bs, IsWrittenBranch readAll s ns := by
  obtain ⟨p, hrun, hend⟩ := readAll_eq_ok.mp h
  have hstart : Progress.start.Reads readAll s .nothing (Text.trim t) :=
    ⟨reads_empty _, fun _ hns => absurd hns List.not_mem_nil⟩
  exact (hstart.run hrun).endBranch hend

end Extended
end CosmeticFilter
