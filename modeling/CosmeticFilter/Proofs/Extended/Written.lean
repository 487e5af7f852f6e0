import CosmeticFilter.Proofs.Css.Alternatives
import CosmeticFilter.Proofs.Extended.Respaced
import CosmeticFilter.Proofs.Extended.Seams

/-!
# Text that a branch has written

The pending text of a branch is written piece by piece: native text as it is, and a space for a
blank where there is none yet. Such text is read as itself again. Its pieces need not be those that
it has been written from, since a word goes on behind an escaped blank; then a pseudo-element may
take a group in brackets for its argument.

* `piecesIn`, `heldIn`: the pieces of a text, and what is held back at its end;
* `Spaced`: every blank is a space that a branch keeps;
* `IsWritten`: text that a branch has written;
* `IsWritten.pending`: it is read as itself;
* `IsWritten.chunk`, `IsWritten.space`, `IsWritten.word`: how it goes on;
* `IsWritten.trimEnd`: it may be trimmed.
-/

namespace CosmeticFilter
namespace Extended

variable {inner : BranchReader} {s : Scope} {b : Bool}

/-- The pieces of a text, with the blanks around it. -/
def piecesIn (t : Text) : List Piece := piecesFrom .nothing (chunks t)

/-- What is held back at the end of a text. -/
def heldIn (t : Text) : Held := heldAfter .nothing (chunks t)

theorem piecesIn_nil : piecesIn [] = [] := by
  rw [piecesIn, chunks_nil]
  rfl

theorem heldIn_nil : heldIn [] = .nothing := by
  rw [heldIn, chunks_nil]
  rfl

/-- The pieces are those that are complete and the one that is held back. -/
theorem piecesIn_eq (t : Text) : piecesIn t = completed .nothing (chunks t) ++ (heldIn t).release :=
  piecesFrom_eq _ _

/-- A text whose chunks stay as they are goes on with what it holds back. -/
theorem piecesIn_append {t u : Text} (h : chunks (t ++ u) = chunks t ++ chunks u) :
    piecesIn (t ++ u) = completed .nothing (chunks t) ++ piecesFrom (heldIn t) (chunks u) := by
  rw [piecesIn, h, piecesFrom_append]
  rfl

theorem heldIn_append {t u : Text} (h : chunks (t ++ u) = chunks t ++ chunks u) :
    heldIn (t ++ u) = heldAfter (heldIn t) (chunks u) := by
  rw [heldIn, h, heldAfter_append]
  rfl

/-! ### Blanks -/

/-- A mark other than a colon is a piece by itself, and what follows it is cut by itself. -/
theorem piecesIn_mark {c : Char} (hmark : isMark c = true) (hopen : Group.ofMark? c = none)
    (hcolon : c ≠ ':') (u : Text) : piecesIn (c :: u) = Piece.ofMark c :: piecesIn u := by
  rw [piecesIn, chunks_of_mark hmark hopen, piecesFrom, feed_mark hcolon]
  rfl

/-- So is what stands in front of it, if that ends outside groups. -/
theorem piecesIn_append_mark {t : Text} (hclosed : ∀ k ∈ chunks t, k.isClosed = true)
    (hescape : endsInEscape t = false) {c : Char} (hmark : isMark c = true)
    (hopen : Group.ofMark? c = none) (hcolon : c ≠ ':') (u : Text) :
    piecesIn (t ++ c :: u) = piecesIn t ++ piecesIn (c :: u) := by
  have hchunks : chunks (t ++ c :: u) = chunks t ++ chunks (c :: u) :=
    chunks_append hclosed hescape fun _ _ _ => by rw [startsWithMark_cons, hmark]
  rw [piecesIn_append hchunks, chunks_of_mark hmark hopen, piecesFrom, feed_mark hcolon,
    piecesIn_mark hmark hopen hcolon, piecesIn_eq t]
  simp only [List.append_assoc]
  rfl

/-- Every blank among the chunks is a space. No other space stands in front of it, and it does not
start the branch: there is text before it, or the branch has nodes. -/
inductive Spaced (b : Bool) : List Chunk → Prop where
  /-- No chunks. -/
  | nil : Spaced b []
  /-- A space. -/
  | space {ks : List Chunk} : Spaced b ks → (b = true ∨ ks.flatMap Chunk.text ≠ []) →
      (ks.flatMap Chunk.text).getLast? ≠ some ' ' → Spaced b (ks ++ [.mark ' '])
  /-- Anything but a blank. -/
  | other {ks : List Chunk} {k : Chunk} : Spaced b ks → k.isBlank = false → Spaced b (ks ++ [k])

theorem Spaced.append {ks ls : List Chunk} (h : Spaced b ks) (hls : ∀ k ∈ ls, k.isBlank = false) :
    Spaced b (ks ++ ls) := by
  induction ls generalizing ks with
  | nil =>
    rw [List.append_nil]
    exact h
  | cons k r ih =>
    rw [List.append_cons]
    exact ih (h.other (hls k (List.mem_cons_self ..))) fun k' hk' =>
      hls k' (List.mem_cons_of_mem _ hk')

/-- The last chunk is a space that is kept, or it is no blank. -/
theorem Spaced.cases_append {ks : List Chunk} {k : Chunk} (h : Spaced b (ks ++ [k])) :
    Spaced b ks ∧ (k.isBlank = false ∨ k = .mark ' ' ∧
      (b = true ∨ ks.flatMap Chunk.text ≠ []) ∧ (ks.flatMap Chunk.text).getLast? ≠ some ' ') := by
  generalize hall : ks ++ [k] = all at h
  cases h with
  | nil => exact absurd hall (List.append_ne_nil_of_right_ne_nil _ (List.cons_ne_nil _ _))
  | space hks hne hlast =>
    obtain ⟨rfl, hk⟩ := List.append_inj' hall rfl
    exact ⟨hks, Or.inr ⟨(List.cons.inj hk).1, hne, hlast⟩⟩
  | other hks hk =>
    obtain ⟨rfl, hk'⟩ := List.append_inj' hall rfl
    exact ⟨hks, Or.inl ((List.cons.inj hk').1 ▸ hk)⟩

/-- The branch does not start with a blank, if nothing stands before it. -/
theorem Spaced.head? {ks : List Chunk} (h : Spaced false ks) :
    ∀ k ∈ ks.head?, k.isBlank = false := by
  induction h with
  | nil => exact fun k hk => absurd hk (by simp)
  | @space ks _ hne _ ih =>
    cases ks with
    | nil => exact absurd rfl (hne.resolve_left (by simp))
    | cons k r => exact ih
  | @other ks k _ hblank ih =>
    cases ks with
    | nil =>
      intro k' hk'
      rw [← Option.some_inj.mp hk']
      exact hblank
    | cons k' r => exact ih

/-! ### Adding text -/

theorem addText_pending {d : Draft} {q : Piece} (hq : q ≠ .space) :
    (d.addText q).pending = d.pending ++ q.text := by
  unfold Draft.addText
  rw [if_neg hq]
  rfl

theorem foldl_addText_pending {qs : List Piece} (h : ∀ q ∈ qs, q ≠ .space) (d : Draft) :
    (qs.foldl Draft.addText d).pending = d.pending ++ qs.flatMap Piece.text := by
  induction qs generalizing d with
  | nil => exact (List.append_nil _).symm
  | cons q r ih =>
    rw [List.foldl_cons, ih (fun q' hq' => h q' (List.mem_cons_of_mem _ hq')),
      addText_pending (h q (List.mem_cons_self ..)), List.flatMap_cons, List.append_assoc]

theorem foldl_addText_afterElement (qs : List Piece) (d : Draft) :
    (qs.foldl Draft.addText d).afterElement = (d.afterElement || qs.any Piece.isElement) := by
  induction qs generalizing d with
  | nil => exact (Bool.or_false _).symm
  | cons q r ih => rw [List.foldl_cons, ih, List.any_cons, ← Bool.or_assoc]; rfl

theorem ne_space_of_release (h : Held) : ∀ q ∈ h.release, q ≠ .space := by
  cases h <;> simp [Held.release]

/-- Only a blank makes a space. -/
theorem ne_space_of_feed {h : Held} {k : Chunk} (hk : k.isBlank = false) :
    ∀ q ∈ (h.feed k).1, q ≠ .space := by
  have hrestart : ∀ q ∈ (Held.restart k).1, q ≠ .space := by
    cases k with
    | mark c =>
      have hblank : Text.isBlank c = false := hk
      unfold Held.restart Piece.ofMark
      simp only [hblank, Bool.false_eq_true, if_false]
      split
      · simp
      · split
        · simp
        · split <;> simp
    | word w => simp [Held.restart]
    | group g content closed => cases g <;> cases closed <;> simp [Held.restart, Piece.ofGroup]
  rcases h.feed_cases k with heq | ⟨-, -, heq⟩ | ⟨_, -, -, heq⟩ | ⟨_, -, -, heq⟩ |
    ⟨_, _, _, -, -, heq⟩ | ⟨_, _, _, -, -, heq⟩
  · rw [heq]
    intro q hq
    rcases List.mem_append.mp hq with hq | hq
    · exact ne_space_of_release h q hq
    · exact hrestart q hq
  all_goals
    rw [heq]
    simp

theorem spaced_eq_text {k : Chunk} (hk : k.isBlank = false) : k.spaced = k.text := by
  cases k with
  | mark c =>
    have hblank : Text.isBlank c = false := hk
    rw [Chunk.spaced, hblank, if_neg Bool.false_ne_true]
    rfl
  | word w => rfl
  | group g content closed => rfl

/-- Chunks whose blanks are spaces that a branch keeps are read as their text. -/
theorem Spaced.pending {ks : List Chunk} (h : Spaced b ks)
    (hclean : ∀ q ∈ completed .nothing ks, q.isClean = true) {d : Draft} (hd : d.pending = [])
    (hb : b = true → d.nodes ≠ []) :
    ((completed .nothing ks).foldl Draft.addText d).pending ++ (heldAfter .nothing ks).text =
      ks.flatMap Chunk.text := by
  induction h with
  | nil =>
    show d.pending ++ [] = []
    rw [hd]
    rfl
  | @space ks hks hne hlast ih =>
    rw [completed_append] at hclean
    have htext := ih fun q hq => hclean q (List.mem_append_left _ hq)
    have hnodes := foldl_addText_nodes (completed .nothing ks ++ (heldAfter .nothing ks).release) d
    rw [completed_append, heldAfter_append, completed, completed, heldAfter, heldAfter,
      feed_blank (by decide), List.append_nil, ← List.append_assoc, List.foldl_append,
      List.flatMap_append]
    have hpending : ((completed .nothing ks ++ (heldAfter .nothing ks).release).foldl
        Draft.addText d).pending = ks.flatMap Chunk.text := by
      rw [List.foldl_append, foldl_addText_pending (ne_space_of_release _), flatMap_text_release,
        htext]
    generalize (completed .nothing ks ++ (heldAfter .nothing ks).release).foldl Draft.addText d =
      e at hpending hnodes ⊢
    show e.writeSpace.pending ++ [] = ks.flatMap Chunk.text ++ [' ']
    rw [writeSpace_eq, if_neg (by rw [hpending]; exact hlast), List.append_nil]
    · exact congrArg (· ++ [' ']) hpending
    · rw [hpending, hnodes]
      exact hne.symm.imp_right hb
  | @other ks k hks hk ih =>
    rw [completed_append] at hclean
    have htext := ih fun q hq => hclean q (List.mem_append_left _ hq)
    rw [completed, completed, List.append_nil] at hclean
    have hfeed := text_feed fun q hq => hclean q (List.mem_append_right _ hq)
    rw [completed_append, heldAfter_append, completed, completed, heldAfter, heldAfter,
      List.append_nil, List.foldl_append, foldl_addText_pending (ne_space_of_feed hk),
      List.append_assoc, hfeed, ← List.append_assoc, htext, spaced_eq_text hk, List.flatMap_append,
      List.flatMap_singleton]

/-! ### Written text -/

/-- A pseudo-element with a scoped pseudo-class in its argument. The reader refuses it; written as
other pieces, it may stand in a fragment all the same. -/
def Piece.isHidden : Piece → Bool
  | pseudoElement _ (.given content) => Draft.holdsScoped content
  | _ => false

/-- The piece only adds its text, unless it is hidden. -/
def Piece.IsWritten (inner : BranchReader) (s : Scope) (q : Piece) : Prop :=
  q.isHidden = true ∨ q.IsNative inner s

/-- Text that a branch has written, behind nodes if `b` is true. -/
structure IsWritten (inner : BranchReader) (s : Scope) (b : Bool) (t : Text) : Prop where
  /-- No group is left open. -/
  closed : ∀ k ∈ chunks t, k.isClosed = true
  /-- The blanks are spaces that a branch keeps. -/
  spaced : Spaced b (chunks t)
  /-- The pieces only add their text, but for those that are hidden. -/
  pieces : ∀ q ∈ piecesIn t, q.IsWritten inner s

theorem Piece.IsWritten.isClean {q : Piece} (h : q.IsWritten inner s) : q.isClean = true := by
  rcases h with h | h
  · unfold isHidden at h
    split at h
    · rfl
    · exact absurd h Bool.false_ne_true
  · exact isClean_of_isNative h

/-- A pseudo-element with an argument only adds its text, or it is hidden. -/
theorem isWritten_pseudoElement (name content : Text) :
    (Piece.pseudoElement name (.given content)).IsWritten inner s := by
  cases hscoped : Draft.holdsScoped content with
  | true => exact Or.inl hscoped
  | false =>
    refine Or.inr (isNative_pseudoElement (fun content' heq => ?_) (by simp))
    rw [← Argument.given.inj heq, hscoped]

theorem chunks_space : chunks [' '] = [.mark ' '] := by
  rw [chunks_of_mark (by decide) (by decide), chunks_nil]

/-! ### What is held back -/

/-- The chunks that are held back. -/
def Held.chunks : Held → List Chunk
  | nothing => []
  | colon => [.mark ':']
  | colons => [.mark ':', .mark ':']
  | pseudoClass name => [.mark ':', .word name]
  | pseudoElement name => [.mark ':', .mark ':', .word name]

/-- The name that is held back. -/
def Held.name? : Held → Option Text
  | nothing => none
  | colon => none
  | colons => none
  | pseudoClass name => some name
  | pseudoElement name => some name

theorem chunks_heldText {h : Held} (hname : ∀ w ∈ h.name?, IsWord w) :
    chunks h.text = h.chunks := by
  have hcolon : ∀ t, chunks (':' :: t) = .mark ':' :: chunks t :=
    chunks_of_mark (by decide) (by decide)
  cases h with
  | nothing => exact chunks_nil
  | colon => rw [Held.text, hcolon, chunks_nil]; rfl
  | colons => rw [Held.text, hcolon, hcolon, chunks_nil]; rfl
  | pseudoClass name => rw [Held.text, hcolon, hname name rfl]; rfl
  | pseudoElement name => rw [Held.text, hcolon, hcolon, hname name rfl]; rfl

/-- A colon behind anything but a colon starts anew. -/
theorem feed_colon {h : Held} (hcolon : h ≠ .colon) :
    h.feed (.mark ':') = (h.release, .colon) := by
  cases h with
  | colon => exact absurd rfl hcolon
  | nothing => rfl
  | colons => rfl
  | pseudoClass name => rfl
  | pseudoElement name => rfl

/-- Behind anything but a colon, what is held back is read as it is. -/
theorem piecesFrom_heldChunks {h h' : Held} (hcolon : h ≠ .colon) (hne : h' ≠ .nothing) :
    piecesFrom h h'.chunks = h.release ++ h'.release ∧ heldAfter h h'.chunks = h' := by
  cases h' with
  | nothing => exact absurd rfl hne
  | colon =>
    rw [Held.chunks, piecesFrom, heldAfter, feed_colon hcolon]
    exact ⟨rfl, rfl⟩
  | colons =>
    rw [Held.chunks, piecesFrom, heldAfter, feed_colon hcolon]
    exact ⟨rfl, rfl⟩
  | pseudoClass name =>
    rw [Held.chunks, piecesFrom, heldAfter, feed_colon hcolon]
    exact ⟨rfl, rfl⟩
  | pseudoElement name =>
    rw [Held.chunks, piecesFrom, heldAfter, feed_colon hcolon]
    exact ⟨rfl, rfl⟩

namespace IsWritten

theorem nil : IsWritten inner s b [] := by
  refine ⟨?_, ?_, ?_⟩
  · rw [chunks_nil]
    exact fun k hk => absurd hk List.not_mem_nil
  · rw [chunks_nil]
    exact .nil
  · rw [piecesIn_nil]
    exact fun q hq => absurd hq List.not_mem_nil

variable {t : Text}

/-- Written text is read as itself. -/
theorem pending (h : IsWritten inner s b t) {d : Draft} (hd : d.pending = [])
    (hb : b = true → d.nodes ≠ []) : ((piecesIn t).foldl Draft.addText d).pending = t := by
  have hclean : ∀ q ∈ piecesIn t, q.isClean = true := fun q hq => (h.pieces q hq).isClean
  rw [piecesIn_eq] at hclean
  have htext := h.spaced.pending (fun q hq => hclean q (List.mem_append_left _ hq)) hd hb
  rw [flatMap_text_chunks] at htext
  rw [piecesIn_eq, List.foldl_append, foldl_addText_pending (ne_space_of_release _),
    flatMap_text_release]
  exact htext

/-- Written text at the start of a branch does not start with a blank. -/
theorem not_blank_head? (h : IsWritten inner s false t) : ∀ c ∈ t.head?, Text.isBlank c = false := by
  cases hchunks : chunks t with
  | nil =>
    rw [eq_nil_of_chunks hchunks]
    exact fun c hc => absurd hc (by simp)
  | cons k r =>
    have hmem : k ∈ chunks t := hchunks ▸ List.mem_cons_self ..
    have hk := chunks_text hmem (h.closed k hmem)
    have hblank := h.spaced.head? k (by rw [hchunks]; rfl)
    rw [← flatMap_text_chunks t, hchunks, List.flatMap_cons,
      List.head?_append_of_ne_nil _ (text_ne_nil hk)]
    exact Extended.not_blank_head? hk hblank

/-- Written text goes on with written pieces other than blanks. -/
theorem append (h : IsWritten inner s b t) {u : Text}
    (hchunks : chunks (t ++ u) = chunks t ++ chunks u)
    (hu : ∀ k ∈ chunks u, k.isClosed = true ∧ k.isBlank = false)
    (hpieces : ∀ q ∈ piecesFrom (heldIn t) (chunks u), q.IsWritten inner s) :
    IsWritten inner s b (t ++ u) := by
  refine ⟨?_, ?_, ?_⟩
  · rw [hchunks]
    intro k hk
    exact (List.mem_append.mp hk).elim (h.closed k) fun hk => (hu k hk).1
  · rw [hchunks]
    exact h.spaced.append fun k hk => (hu k hk).2
  · rw [piecesIn_append hchunks]
    intro q hq
    rcases List.mem_append.mp hq with hq | hq
    · exact h.pieces q (by rw [piecesIn_eq]; exact List.mem_append_left _ hq)
    · exact hpieces q hq

/-- Written text goes on with a chunk that completes written pieces, if it is no word and no
blank. -/
theorem chunk (h : IsWritten inner s b t) (hescape : endsInEscape t = false) {k : Chunk}
    (hk : chunks k.text = [k]) (hclosed : k.isClosed = true) (hblank : k.isBlank = false)
    (hword : k.isWord = false) (hpieces : ∀ q ∈ ((heldIn t).feed k).1, q.IsWritten inner s)
    (hheld : ((heldIn t).feed k).2 = .nothing) :
    IsWritten inner s b (t ++ k.text) ∧
      piecesIn (t ++ k.text) = completed .nothing (chunks t) ++ ((heldIn t).feed k).1 ∧
      heldIn (t ++ k.text) = .nothing := by
  have hchunks : chunks (t ++ k.text) = chunks t ++ chunks k.text :=
    chunks_append h.closed hescape fun _ _ _ => startsWithMark_text hk hword
  have hfrom : piecesFrom (heldIn t) (chunks k.text) = ((heldIn t).feed k).1 := by
    rw [hk, piecesFrom, piecesFrom, hheld, Held.release, List.append_nil]
  refine ⟨h.append hchunks ?_ ?_, ?_, ?_⟩
  · rw [hk]
    intro k' hk'
    rw [List.mem_singleton.mp hk']
    exact ⟨hclosed, hblank⟩
  · rw [hfrom]
    exact hpieces
  · rw [piecesIn_append hchunks, hfrom]
  · rw [heldIn_append hchunks, hk, heldAfter, heldAfter, hheld]

/-- Written text goes on with what has been held back. -/
theorem hold (h : IsWritten inner s b t) (hescape : endsInEscape t = false)
    (hcolon : heldIn t ≠ .colon) {h' : Held} (hne : h' ≠ .nothing)
    (hname : ∀ w ∈ h'.name?, IsWord w) (hpieces : ∀ q ∈ h'.release, q.IsWritten inner s) :
    IsWritten inner s b (t ++ h'.text) ∧ piecesIn (t ++ h'.text) = piecesIn t ++ h'.release ∧
      heldIn (t ++ h'.text) = h' := by
  have htext := chunks_heldText hname
  obtain ⟨hfrom, hafter⟩ := piecesFrom_heldChunks hcolon hne
  have hmark : startsWithMark h'.text = true := by
    cases h' <;> rfl
  have hchunks : chunks (t ++ h'.text) = chunks t ++ chunks h'.text :=
    chunks_append h.closed hescape fun _ _ _ => hmark
  refine ⟨h.append hchunks ?_ ?_, ?_, ?_⟩
  · rw [htext]
    cases h' <;> simp [Held.chunks, Chunk.isClosed, Chunk.isBlank, show Text.isBlank ':' = false from rfl]
  · rw [htext, hfrom]
    intro q hq
    rcases List.mem_append.mp hq with hq | hq
    · exact h.pieces q (by rw [piecesIn_eq]; exact List.mem_append_right _ hq)
    · exact hpieces q hq
  · rw [piecesIn_append hchunks, htext, hfrom, ← List.append_assoc, ← piecesIn_eq]
  · rw [heldIn_append hchunks, htext, hafter]

/-- Written text goes on with a space that the branch keeps. -/
theorem space (h : IsWritten inner s b t) (hescape : endsInEscape t = false)
    (hb : b = true ∨ t ≠ []) (hlast : t.getLast? ≠ some ' ') :
    IsWritten inner s b (t ++ [' ']) ∧ piecesIn (t ++ [' ']) = piecesIn t ++ [.space] ∧
      heldIn (t ++ [' ']) = .nothing := by
  have hchunks : chunks (t ++ [' ']) = chunks t ++ chunks [' '] :=
    chunks_append h.closed hescape fun _ _ _ => by decide
  have hpieces : piecesIn (t ++ [' ']) = piecesIn t ++ [.space] := by
    rw [piecesIn_append hchunks, chunks_space, piecesFrom, feed_blank (by decide), piecesFrom,
      Held.release, List.append_nil, ← List.append_assoc, ← piecesIn_eq]
  refine ⟨⟨?_, ?_, ?_⟩, hpieces, ?_⟩
  · rw [hchunks, chunks_space]
    intro k hk
    rcases List.mem_append.mp hk with hk | hk
    · exact h.closed k hk
    · rw [List.mem_singleton.mp hk]
      rfl
  · rw [hchunks, chunks_space]
    exact h.spaced.space (by rw [flatMap_text_chunks]; exact hb)
      (by rw [flatMap_text_chunks]; exact hlast)
  · rw [hpieces]
    intro q hq
    rcases List.mem_append.mp hq with hq | hq
    · exact h.pieces q hq
    · rw [List.mem_singleton.mp hq]
      exact Or.inr isNative_space
  · rw [heldIn_append hchunks, chunks_space, heldAfter, heldAfter, feed_blank (by decide)]

/-- Without the space at its end, written text is written text. -/
theorem of_space (h : IsWritten inner s b t) {ks : List Chunk} (ht : chunks t = ks ++ [.mark ' ']) :
    IsWritten inner s b (ks.flatMap Chunk.text) := by
  obtain ⟨hclosed, hspaced, hpieces⟩ := h
  unfold piecesIn at hpieces
  rw [ht] at hclosed hspaced hpieces
  rw [piecesFrom_append, piecesFrom, piecesFrom, feed_blank (by decide), Held.release,
    List.append_nil, ← List.append_assoc, ← piecesFrom_eq] at hpieces
  have hks : ∀ k ∈ ks, k.isClosed = true := fun k hk => hclosed k (List.mem_append_left _ hk)
  have htake := (chunks_take ht hks).1
  refine ⟨?_, ?_, ?_⟩
  · rw [htake]
    exact hks
  · rw [htake]
    exact hspaced.cases_append.1
  · rw [piecesIn, htake]
    exact fun q hq => hpieces q (List.mem_append_left _ hq)

end IsWritten

/-! ### Words -/

/-- Nothing is held back, or the name of a pseudo-element. -/
def Held.IsQuiet (h : Held) : Prop := h = .nothing ∨ ∃ name, h = .pseudoElement name

/-- What a word makes behind anything but a single colon. -/
inductive IsOfWord : (Text → Piece) → Prop where
  /-- Text. -/
  | verbatim : IsOfWord .verbatim
  /-- The name of a pseudo-element. -/
  | pseudoElement : IsOfWord fun v => .pseudoElement v .absent

theorem IsOfWord.isNative {make : Text → Piece} (h : IsOfWord make) (v : Text) :
    (make v).IsNative inner s := by
  cases h with
  | verbatim => exact isNative_verbatim v
  | pseudoElement => exact isNative_pseudoElement (by simp) (by simp)

theorem IsOfWord.isElement_eq {make : Text → Piece} (h : IsOfWord make) (v w : Text) :
    (make v).isElement = (make w).isElement := by
  cases h <;> rfl

/-- Behind anything but a single colon, a last word makes a piece of its own, whatever the word. -/
theorem piecesIn_word {ks : List Chunk} (hcolon : heldAfter .nothing ks ≠ .colon) :
    ∃ qs make, IsOfWord make ∧ ∀ t v, chunks t = ks ++ [.word v] →
      piecesIn t = qs ++ [make v] ∧ (heldIn t).IsQuiet := by
  have hrestart : (∀ v, (heldAfter .nothing ks).feed (.word v) =
      ((heldAfter .nothing ks).release ++ [.verbatim v], .nothing)) →
      ∃ qs make, IsOfWord make ∧ ∀ t v, chunks t = ks ++ [.word v] →
        piecesIn t = qs ++ [make v] ∧ (heldIn t).IsQuiet := by
    intro hfeed
    refine ⟨completed .nothing ks ++ (heldAfter .nothing ks).release, .verbatim, .verbatim, ?_⟩
    intro t v ht
    rw [piecesIn, heldIn, ht, piecesFrom_append, piecesFrom, piecesFrom, heldAfter_append, heldAfter,
      heldAfter, hfeed, Held.release, List.append_nil, List.append_assoc]
    exact ⟨rfl, Or.inl rfl⟩
  cases hheld : heldAfter .nothing ks with
  | colon => exact absurd hheld hcolon
  | nothing => exact hrestart fun v => by rw [hheld]; rfl
  | pseudoClass name => exact hrestart fun v => by rw [hheld]; rfl
  | pseudoElement name => exact hrestart fun v => by rw [hheld]; rfl
  | colons =>
    refine ⟨completed .nothing ks, fun v => .pseudoElement v .absent, .pseudoElement, ?_⟩
    intro t v ht
    rw [piecesIn, heldIn, ht, piecesFrom_append, piecesFrom, piecesFrom, heldAfter_append, heldAfter,
      heldAfter, hheld]
    exact ⟨rfl, Or.inr ⟨v, rfl⟩⟩

namespace IsWritten

variable {t : Text}

/-- The last word of written text may be another word, unless it is the name of a pseudo-class. -/
theorem reword {t' v v' : Text} {ks : List Chunk} (h : IsWritten inner s b t)
    (ht : chunks t = ks ++ [.word v]) (ht' : chunks t' = ks ++ [.word v'])
    (hcolon : heldAfter .nothing ks ≠ .colon) :
    IsWritten inner s b t' ∧ (piecesIn t').any Piece.isElement = (piecesIn t).any Piece.isElement ∧
      (heldIn t').IsQuiet := by
  obtain ⟨qs, make, hmake, hword⟩ := piecesIn_word hcolon
  obtain ⟨hpieces, -⟩ := hword t v ht
  obtain ⟨hpieces', hquiet⟩ := hword t' v' ht'
  obtain ⟨hclosed, hspaced, hwritten⟩ := h
  rw [ht] at hclosed hspaced
  rw [hpieces] at hwritten
  refine ⟨⟨?_, ?_, ?_⟩, ?_, hquiet⟩
  · rw [ht']
    intro k hk
    rcases List.mem_append.mp hk with hk | hk
    · exact hclosed k (List.mem_append_left _ hk)
    · rw [List.mem_singleton.mp hk]
      rfl
  · rw [ht']
    exact hspaced.cases_append.1.other rfl
  · rw [hpieces']
    intro q hq
    rcases List.mem_append.mp hq with hq | hq
    · exact hwritten q (List.mem_append_left _ hq)
    · rw [List.mem_singleton.mp hq]
      exact Or.inr (hmake.isNative v')
  · rw [hpieces, hpieces', List.any_append, List.any_append, List.any_cons, List.any_cons,
      hmake.isElement_eq v' v]

/-- Written text goes on with a word where no name of a pseudo-class is held back. -/
theorem word (h : IsWritten inner s b t) (hescape : endsInEscape t = false)
    (hquiet : (heldIn t).IsQuiet) {w : Text} (hw : IsWord w) :
    IsWritten inner s b (t ++ w) ∧
      (piecesIn (t ++ w)).any Piece.isElement = (piecesIn t).any Piece.isElement ∧
      (heldIn (t ++ w)).IsQuiet := by
  rcases last_word_cases t with ⟨ks, v, ht⟩ | hlast
  · refine h.reword ht (chunks_append_word ht h.closed hescape hw) fun hcolon => ?_
    rw [heldIn, ht, heldAfter_append, hcolon] at hquiet
    rcases hquiet with heq | ⟨_, heq⟩ <;> exact absurd heq (by simp [heldAfter, Held.feed])
  · have hchunks : chunks (t ++ w) = chunks t ++ chunks w := by
      refine chunks_append h.closed hescape fun k hk hword => ?_
      rw [hlast k hk] at hword
      exact absurd hword Bool.false_ne_true
    have hfeed : (heldIn t).feed (.word w) = ((heldIn t).release ++ [.verbatim w], .nothing) := by
      rcases hquiet with heq | ⟨_, heq⟩ <;> rw [heq] <;> rfl
    have hpieces : piecesFrom (heldIn t) (chunks w) = (heldIn t).release ++ [.verbatim w] := by
      rw [hw, piecesFrom, piecesFrom, hfeed, Held.release, List.append_nil]
    refine ⟨h.append hchunks ?_ ?_, ?_, ?_⟩
    · rw [hw]
      intro k hk
      rw [List.mem_singleton.mp hk]
      exact ⟨rfl, rfl⟩
    · rw [hpieces]
      intro q hq
      rcases List.mem_append.mp hq with hq | hq
      · exact h.pieces q (by rw [piecesIn_eq]; exact List.mem_append_right _ hq)
      · rw [List.mem_singleton.mp hq]
        exact Or.inr (isNative_verbatim w)
    · rw [piecesIn_append hchunks, hpieces, ← List.append_assoc, ← piecesIn_eq, List.any_append]
      exact Bool.or_false _
    · rw [heldIn_append hchunks, hw, heldAfter, heldAfter, hfeed]
      exact Or.inl rfl

end IsWritten

/-! ### Names of pseudo-classes -/

/-- A pseudo-class that only adds its text is one that a browser knows. -/
theorem isPseudoClass_of_isNative {name : Text} {argument : Argument}
    (h : (Piece.pseudoClass name argument).IsNative inner s) :
    Name.ofText? name = none ∧ Css.isPseudoClass name = true := by
  have hstep := h .start
  unfold Progress.step Draft.addPseudoClass at hstep
  obtain ⟨d, hadd, heq⟩ := Outcome.map_eq_ok.mp hstep
  split at hadd
  · -- an extended pseudo-class would leave a node
    have hnodes : d.nodes = [] := (congrArg (·.draft.nodes) heq).trans (addText_nodes ..)
    split at hadd
    · exact absurd hadd (by simp)
    · obtain ⟨n, hn, -⟩ := exists_of_addExtended hadd
      rw [hnodes] at hn
      exact absurd hn List.not_mem_nil
    · obtain ⟨n, hn, -⟩ := exists_of_addExtended hadd
      rw [hnodes] at hn
      exact absurd hn List.not_mem_nil
  · rename_i hname
    split at hadd
    · exact ⟨hname, by assumption⟩
    · exact absurd hadd (by simp)

/-- Without its argument, it only adds its text too. -/
theorem isNative_absent {name : Text} {argument : Argument}
    (h : (Piece.pseudoClass name argument).IsNative inner s) :
    (Piece.pseudoClass name .absent).IsNative inner s := by
  obtain ⟨hname, hknown⟩ := isPseudoClass_of_isNative h
  exact isNative_pseudoClass hname hknown (by simp)

/-- What holds of the names that may follow a colon holds of their spelling in small letters. -/
theorem prop_of_isPseudoClass {P : Text → Prop} {name : Text} (h : Css.isPseudoClass name = true)
    (hnames : ∀ n ∈ Css.structuralNames ++ Css.stateNames ++ Css.legacyElementNames, P n) :
    P (Text.lower name) := by
  refine hnames _ ?_
  unfold Css.isPseudoClass at h
  rw [List.mem_append, List.mem_append]
  simpa only [Bool.or_eq_true, List.contains_iff_mem] using h

/-- The names of pseudo-classes have no blanks. -/
theorem not_blank_of_isPseudoClass {name : Text} (h : Css.isPseudoClass name = true) :
    ∀ c ∈ name, Text.isBlank c = false := by
  have hlower : (Text.lower name).any Text.isBlank = false :=
    prop_of_isPseudoClass (P := fun n => n.any Text.isBlank = false) h (by decide +kernel)
  exact Text.not_blank_of_lower (Text.not_blank_of_any hlower)

namespace IsWritten

variable {t : Text}

/-- A word that ends with a blank is no name of a pseudo-class. -/
theorem heldAfter_ne_colon {v : Text} {ks : List Chunk} (h : IsWritten inner s b t)
    (ht : chunks t = ks ++ [.word v]) (hv : Text.trimEnd v ≠ v) :
    heldAfter .nothing ks ≠ .colon := by
  intro hcolon
  have hmem : Piece.pseudoClass v .absent ∈ piecesIn t := by
    rw [piecesIn, ht, piecesFrom_append, hcolon]
    exact List.mem_append_right _ (List.mem_singleton_self _)
  have hnative := (h.pieces _ hmem).resolve_left Bool.false_ne_true
  refine hv (Text.trimEnd_eq_self fun c hc => ?_)
  exact not_blank_of_isPseudoClass (isPseudoClass_of_isNative hnative).2 c (List.mem_of_getLast? hc)

/-- At a space, no name of a pseudo-class is held back. -/
theorem isQuiet (h : IsWritten inner s b t) (hlast : t.getLast? = some ' ') :
    (heldIn t).IsQuiet := by
  obtain hnil | ⟨ks, k, ht⟩ := List.eq_nil_or_concat (chunks t)
  · exact Or.inl (by rw [heldIn, hnil]; rfl)
  · rw [List.concat_eq_append] at ht
    have hmem : k ∈ chunks t := ht ▸ List.mem_append_right _ (List.mem_singleton_self _)
    have hk := chunks_text hmem (h.closed k hmem)
    have hlast' : ' ' ∈ k.text.getLast? := by
      rw [← flatMap_text_chunks t, ht, List.flatMap_append, List.flatMap_singleton,
        List.getLast?_append_of_ne_nil _ (text_ne_nil hk)] at hlast
      exact hlast
    cases hblank : k.isBlank with
    | true =>
      cases k with
      | mark c =>
        rw [heldIn, ht, heldAfter_append, heldAfter, heldAfter, feed_blank hblank]
        exact Or.inl rfl
      | word v => exact absurd hblank Bool.false_ne_true
      | group g content closed => exact absurd hblank Bool.false_ne_true
    | false =>
      cases hword : k.isWord with
      | false =>
        exact absurd (not_blank_getLast? hk (h.closed k hmem) hblank hword ' ' hlast') (by decide)
      | true =>
        cases k with
        | mark c => exact absurd hword Bool.false_ne_true
        | group g content closed => exact absurd hword Bool.false_ne_true
        | word v =>
          have hv : Text.trimEnd v ≠ v := by
            intro heq
            rw [Chunk.text, ← heq] at hlast'
            exact absurd (Text.not_blank_of_getLast?_trimEnd hlast') (by decide)
          obtain ⟨_, _, _, hpieces⟩ := piecesIn_word (h.heldAfter_ne_colon ht hv)
          exact (hpieces t v ht).2

/-- Written text may be trimmed. -/
theorem trimEnd (h : IsWritten inner s b t) : IsWritten inner s b (Text.trimEnd t) := by
  obtain ⟨n, hn⟩ : ∃ n, t.length = n := ⟨_, rfl⟩
  induction n using Nat.strong_induction_on generalizing t with
  | _ n ih =>
    obtain hnil | ⟨ks, k, ht⟩ := List.eq_nil_or_concat (chunks t)
    · rw [eq_nil_of_chunks hnil]
      exact nil
    · rw [List.concat_eq_append] at ht
      have htext : t = ks.flatMap Chunk.text ++ k.text := by
        rw [← flatMap_text_chunks t, ht, List.flatMap_append, List.flatMap_singleton]
      have hmem : k ∈ chunks t := ht ▸ List.mem_append_right _ (List.mem_singleton_self _)
      have hk := chunks_text hmem (h.closed k hmem)
      have hspaced := h.spaced
      rw [ht] at hspaced
      rcases hspaced.cases_append.2 with hblank | ⟨rfl, -, -⟩
      · cases hword : k.isWord with
        | false =>
          rw [Text.trimEnd_eq_self]
          · exact h
          · rw [htext, List.getLast?_append_of_ne_nil _ (text_ne_nil hk)]
            exact not_blank_getLast? hk (h.closed k hmem) hblank hword
        | true =>
          cases k with
          | mark c => exact absurd hword Bool.false_ne_true
          | group g content closed => exact absurd hword Bool.false_ne_true
          | word v =>
            have hv : IsWord (Text.trimEnd v) := IsWord.trimEnd hk
            by_cases heq : Text.trimEnd v = v
            · rw [htext, Text.trimEnd_append, Chunk.text, heq]
              · rw [htext] at h
                exact h
              · exact hv.ne_nil
            · have hks : ∀ k ∈ ks, k.isClosed = true := fun k hk =>
                h.closed k (ht ▸ List.mem_append_left _ hk)
              have htrim : chunks (Text.trimEnd t) = ks ++ [.word (Text.trimEnd v)] := by
                rw [htext, Chunk.text, Text.trimEnd_append hv.ne_nil,
                  chunks_exchange ht hks (List.cons_ne_nil _ _), hv]
                rw [List.flatMap_singleton, Chunk.text, startsWithMark, startsWithMark,
                  Text.head?_trimEnd hv.ne_nil]
                exact id
              exact (h.reword ht htrim (h.heldAfter_ne_colon ht heq)).1
      · rw [htext, Text.trimEnd_append_of_blank (by decide)]
        refine ih _ ?_ (h.of_space ht) rfl
        rw [← hn, htext, List.length_append]
        exact Nat.lt_succ_self _

end IsWritten

/-! ### Colons -/

/-- Only a colon at the end of a text is held back as one. -/
theorem exists_of_heldIn_colon {t : Text} (hclosed : ∀ k ∈ chunks t, k.isClosed = true)
    (h : heldIn t = .colon) :
    ∃ u, t = u ++ [':'] ∧ chunks t = chunks u ++ [.mark ':'] ∧ endsInEscape u = false := by
  obtain hnil | ⟨ks, k, ht⟩ := List.eq_nil_or_concat (chunks t)
  · rw [heldIn, hnil] at h
    exact absurd h (by simp [heldAfter])
  · rw [List.concat_eq_append] at ht
    have hks : ∀ k ∈ ks, k.isClosed = true := fun k hk =>
      hclosed k (ht ▸ List.mem_append_left _ hk)
    rw [heldIn, ht, heldAfter_append, heldAfter, heldAfter] at h
    have hk : k = .mark ':' := by
      have hrestart : (Held.restart k).2 = .colon → k = .mark ':' := by
        intro hcolon
        cases k with
        | mark c =>
          rw [Held.restart] at hcolon
          split at hcolon
          · rename_i hc
            rw [hc]
          · exact absurd hcolon (by simp)
        | word w => exact absurd hcolon (by simp [Held.restart])
        | group g content closed => exact absurd hcolon (by simp [Held.restart])
      rcases (heldAfter .nothing ks).feed_cases k with heq | ⟨-, -, heq⟩ | ⟨_, -, -, heq⟩ |
        ⟨_, -, -, heq⟩ | ⟨_, _, _, -, -, heq⟩ | ⟨_, _, _, -, -, heq⟩
      · rw [heq] at h
        exact hrestart h
      all_goals
        rw [heq] at h
        exact absurd h (by simp)
    obtain ⟨hchunks, hescape, -⟩ := chunks_take ht hks
    refine ⟨ks.flatMap Chunk.text, ?_, by rw [ht, hk, hchunks], hescape (List.cons_ne_nil _ _)⟩
    rw [← flatMap_text_chunks t, ht, hk, List.flatMap_append, List.flatMap_singleton]
    rfl

/-- A native selector does not end with a colon. -/
theorem heldIn_ne_colon_of_ofText {t : Text} {S : Css.Selector}
    (hclosed : ∀ k ∈ chunks t, k.isClosed = true) (h : Css.Selector.ofText t = .ok S) :
    heldIn t ≠ .colon := by
  intro hcolon
  obtain ⟨u, rfl, -, hescape⟩ := exists_of_heldIn_colon hclosed hcolon
  rcases Css.isLast_or_escaped_of_ofText ⟨by decide, by decide⟩ (by decide) h with hlast | hu
  · exact absurd hlast (by decide)
  · rw [hescape] at hu
    exact absurd hu (by simp)

end Extended
end CosmeticFilter
