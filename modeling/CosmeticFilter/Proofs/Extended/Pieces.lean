import CosmeticFilter.Extended.Piece
import CosmeticFilter.Proofs.Extended.Chunks

/-!
# Pieces, one chunk after the other

Which piece a colon or a name belongs to is settled by the chunk behind it. A reader that takes one
chunk at a time holds such a chunk back until the next one has come, and so it needs to remember
nothing but what it holds.

* `Held`, `Held.feed`: what is held back, and how one chunk is read;
* `piecesFrom`: the pieces of chunks, read in this way;
* `piecesOf_eq`: these are the pieces of the chunks;
* `piecesFrom_append`: pieces of a concatenation;
* `exists_chunks_of_piecesOf`: where pieces are cut, their chunks are cut.
-/

namespace CosmeticFilter
namespace Extended

/-- What is held back until the next chunk has come. -/
inductive Held where
  /-- Nothing. -/
  | nothing
  /-- A colon. -/
  | colon
  /-- Two colons. -/
  | colons
  /-- A colon and a name. -/
  | pseudoClass (name : Text)
  /-- Two colons and a name. -/
  | pseudoElement (name : Text)
  deriving DecidableEq, Repr

/-- The argument in round brackets. -/
def Argument.ofGroup (content : Text) (closed : Bool) : Argument :=
  if closed then .given content else .unclosed

namespace Held

/-- The piece that is held back if it is not continued. -/
def release : Held → List Piece
  | nothing => []
  | colon => [.verbatim [':']]
  | colons => [.verbatim "::".toList]
  | pseudoClass name => [.pseudoClass name .absent]
  | pseudoElement name => [.pseudoElement name .absent]

/-- Reads a chunk that does not continue what is held back. -/
def restart : Chunk → List Piece × Held
  | .mark c => if c = ':' then ([], colon) else ([.ofMark c], nothing)
  | .word w => ([.verbatim w], nothing)
  | .group g content closed => ([.ofGroup g content closed], nothing)

/-- Reads one chunk: the pieces that are complete, and what is held back now. -/
def feed (h : Held) (k : Chunk) : List Piece × Held :=
  match h, k with
  | colon, .mark ':' => ([], colons)
  | colon, .word name => ([], pseudoClass name)
  | colons, .word name => ([], pseudoElement name)
  | pseudoClass name, .group .parens content closed =>
    ([.pseudoClass name (.ofGroup content closed)], nothing)
  | pseudoElement name, .group .parens content closed =>
    ([.pseudoElement name (.ofGroup content closed)], nothing)
  | h, k => (h.release ++ (restart k).1, (restart k).2)

end Held

/-- The pieces of chunks, where some are held back already. -/
def piecesFrom (h : Held) : List Chunk → List Piece
  | [] => h.release
  | k :: r => (h.feed k).1 ++ piecesFrom (h.feed k).2 r

/-- The pieces that chunks complete. -/
def completed (h : Held) : List Chunk → List Piece
  | [] => []
  | k :: r => (h.feed k).1 ++ completed (h.feed k).2 r

/-- What is held back after chunks. -/
def heldAfter (h : Held) : List Chunk → Held
  | [] => h
  | k :: r => heldAfter (h.feed k).2 r

@[simp] theorem feed_nothing (k : Chunk) : Held.nothing.feed k = Held.restart k := by
  cases k <;> rfl

/-- A chunk starts anew, or it continues what is held back. -/
theorem Held.feed_cases (h : Held) (k : Chunk) :
    h.feed k = (h.release ++ (restart k).1, (restart k).2) ∨
    (h = .colon ∧ k = .mark ':' ∧ h.feed k = ([], .colons)) ∨
    (∃ name, h = .colon ∧ k = .word name ∧ h.feed k = ([], .pseudoClass name)) ∨
    (∃ name, h = .colons ∧ k = .word name ∧ h.feed k = ([], .pseudoElement name)) ∨
    (∃ name content closed, h = .pseudoClass name ∧ k = .group .parens content closed ∧
      h.feed k = ([.pseudoClass name (.ofGroup content closed)], .nothing)) ∨
    ∃ name content closed, h = .pseudoElement name ∧ k = .group .parens content closed ∧
      h.feed k = ([.pseudoElement name (.ofGroup content closed)], .nothing) := by
  unfold feed
  split <;> simp

/-- A mark other than a colon continues nothing. -/
theorem feed_mark {c : Char} (hc : c ≠ ':') (h : Held) :
    h.feed (.mark c) = (h.release ++ [.ofMark c], .nothing) := by
  cases h <;> simp [Held.feed, Held.restart, hc]

theorem piecesFrom_append (h : Held) (ks ls : List Chunk) :
    piecesFrom h (ks ++ ls) = completed h ks ++ piecesFrom (heldAfter h ks) ls := by
  induction ks generalizing h with
  | nil => rfl
  | cons k r ih =>
    rw [List.cons_append, piecesFrom, ih, completed, heldAfter, List.append_assoc]

theorem completed_append (h : Held) (ks ls : List Chunk) :
    completed h (ks ++ ls) = completed h ks ++ completed (heldAfter h ks) ls := by
  induction ks generalizing h with
  | nil => rfl
  | cons k r ih =>
    rw [List.cons_append, completed, ih, completed, heldAfter, List.append_assoc]

theorem heldAfter_append (h : Held) (ks ls : List Chunk) :
    heldAfter h (ks ++ ls) = heldAfter (heldAfter h ks) ls := by
  induction ks generalizing h with
  | nil => rfl
  | cons k r ih => exact ih _

theorem piecesFrom_eq (h : Held) (ks : List Chunk) :
    piecesFrom h ks = completed h ks ++ (heldAfter h ks).release := by
  rw [← List.append_nil ks, piecesFrom_append, List.append_nil]
  rfl

/-- A name without round brackets behind it is a piece by itself. -/
theorem piecesFrom_pseudoClass (name : Text) (ks : List Chunk) :
    piecesFrom (.pseudoClass name) ks =
      .pseudoClass name (takeArgument ks).1 :: piecesFrom .nothing (takeArgument ks).2 := by
  cases ks with
  | nil => rfl
  | cons k r =>
    cases k with
    | mark c =>
      rw [piecesFrom, takeArgument, piecesFrom, feed_nothing]
      · rfl
      · simp
    | word w => rfl
    | group g content closed => cases g <;> rfl

theorem piecesFrom_pseudoElement (name : Text) (ks : List Chunk) :
    piecesFrom (.pseudoElement name) ks =
      .pseudoElement name (takeArgument ks).1 :: piecesFrom .nothing (takeArgument ks).2 := by
  cases ks with
  | nil => rfl
  | cons k r =>
    cases k with
    | mark c =>
      rw [piecesFrom, takeArgument, piecesFrom, feed_nothing]
      · rfl
      · simp
    | word w => rfl
    | group g content closed => cases g <;> rfl

/-- What is held back is released by a chunk that does not continue it. -/
theorem piecesFrom_colon (ks : List Chunk) (hmark : ∀ r, ks ≠ .mark ':' :: r)
    (hword : ∀ name r, ks ≠ .word name :: r) :
    piecesFrom .colon ks = .verbatim [':'] :: piecesFrom .nothing ks := by
  cases ks with
  | nil => rfl
  | cons k r =>
    cases k with
    | mark c =>
      have hc : c ≠ ':' := by
        rintro rfl
        exact hmark r rfl
      rw [piecesFrom, piecesFrom, feed_mark hc, feed_mark hc]
      rfl
    | word w => exact absurd rfl (hword w r)
    | group g content closed => rfl

theorem piecesFrom_colons (ks : List Chunk) (hword : ∀ name r, ks ≠ .word name :: r) :
    piecesFrom .colons ks = .verbatim "::".toList :: piecesFrom .nothing ks := by
  cases ks with
  | nil => rfl
  | cons k r =>
    cases k with
    | mark c => rfl
    | word w => exact absurd rfl (hword w r)
    | group g content closed => rfl

/-- Reading one chunk at a time gives the pieces. -/
theorem piecesOf_eq (ks : List Chunk) : piecesOf ks = piecesFrom .nothing ks := by
  fun_induction piecesOf ks with
  | case1 => rfl
  | case2 name r ih => rw [ih, ← piecesFrom_pseudoElement]; rfl
  | case3 r hword ih =>
    rw [ih, ← piecesFrom_colons r fun name r' heq => hword name r' heq]
    rfl
  | case4 name r ih => rw [ih, ← piecesFrom_pseudoClass]; rfl
  | case5 c r helement hcolon hword ih =>
    by_cases hc : c = ':'
    · subst hc
      rw [ih, show Piece.ofMark ':' = .verbatim [':'] from by decide,
        ← piecesFrom_colon r (fun r' heq => hcolon r' heq rfl)
          fun name r' heq => hword name r' heq rfl]
      rfl
    · rw [ih, piecesFrom, feed_nothing, Held.restart, if_neg hc]
      rfl
  | case6 w r ih => rw [ih]; rfl
  | case7 g content closed r ih => rw [ih]; rfl

/-! ### Pieces that are cut -/

/-- An argument is read alike where fewer chunks follow it. -/
theorem exists_takeArgument_of_append {ks ls ms : List Chunk}
    (h : (takeArgument ks).2 = ls ++ ms) :
    ∃ fs, ks = fs ++ ms ∧ takeArgument fs = ((takeArgument ks).1, ls) := by
  unfold takeArgument at h
  split at h
  · rename_i content closed r
    obtain rfl : r = ls ++ ms := h
    exact ⟨.group .parens content closed :: ls, rfl, rfl⟩
  · rename_i hgroup
    obtain rfl : ks = ls ++ ms := h
    refine ⟨ls, rfl, ?_⟩
    have habsent : ∀ xs : List Chunk,
        (∀ content closed r, xs ≠ .group .parens content closed :: r) →
        takeArgument xs = (.absent, xs) := fun xs hxs => by
      unfold takeArgument
      split
      · exact absurd rfl (hxs _ _ _)
      · rfl
    rw [habsent _ fun content closed r heq => hgroup content closed r heq,
      habsent ls fun content closed r heq => hgroup content closed (r ++ ms) (by rw [heq]; rfl)]

/-- Each piece is made of chunks of its own, so that chunks are cut where their pieces are. -/
theorem exists_chunks_of_piecesOf {ks : List Chunk} {ps qs : List Piece}
    (h : piecesOf ks = ps ++ qs) : ∃ fs ls, ks = fs ++ ls ∧ piecesOf fs = ps ∧ piecesOf ls = qs := by
  -- the first piece comes from the chunks in front of `r`, whatever part of `r` is there
  have hnext : ∀ {q : Piece} {ks r : List Chunk} {ps : List Piece},
      (∀ fs ls, r = fs ++ ls → ∃ gs, ks = gs ++ ls ∧ piecesOf gs = q :: piecesOf fs) →
      (∀ {ps}, piecesOf r = ps ++ qs → ∃ fs ls, r = fs ++ ls ∧ piecesOf fs = ps ∧ piecesOf ls = qs) →
      q :: piecesOf r = ps ++ qs →
      ∃ fs ls, ks = fs ++ ls ∧ piecesOf fs = ps ∧ piecesOf ls = qs := by
    intro q ks r ps hstarts ih h
    cases ps with
    | nil =>
      obtain ⟨gs, hgs, hpieces⟩ := hstarts r [] (List.append_nil r).symm
      rw [List.append_nil] at hgs
      exact ⟨[], ks, rfl, by rw [piecesOf], by rw [hgs, hpieces, h]; rfl⟩
    | cons p ps =>
      obtain ⟨rfl, htail⟩ := List.cons.inj h
      obtain ⟨fs, ls, hr, hfs, hls⟩ := ih htail
      obtain ⟨gs, hgs, hpieces⟩ := hstarts fs ls hr
      exact ⟨gs, ls, hgs, by rw [hpieces, hfs], hls⟩
  fun_induction piecesOf ks generalizing ps with
  | case1 =>
    obtain ⟨rfl, rfl⟩ := List.append_eq_nil_iff.mp h.symm
    exact ⟨[], [], rfl, by rw [piecesOf], by rw [piecesOf]⟩
  | case2 name r ih =>
    refine hnext (fun fs ls hr => ?_) ih h
    obtain ⟨gs, rfl, hgs⟩ := exists_takeArgument_of_append hr
    exact ⟨.mark ':' :: .mark ':' :: .word name :: gs, rfl, by rw [piecesOf, hgs]⟩
  | case3 r hword ih =>
    refine hnext (fun fs ls hr => ⟨.mark ':' :: .mark ':' :: fs, by rw [hr]; rfl, ?_⟩) ih h
    rw [piecesOf]
    rintro name fs' rfl
    exact hword name _ hr
  | case4 name r ih =>
    refine hnext (fun fs ls hr => ?_) ih h
    obtain ⟨gs, rfl, hgs⟩ := exists_takeArgument_of_append hr
    exact ⟨.mark ':' :: .word name :: gs, rfl, by rw [piecesOf, hgs]⟩
  | case5 c r helement hcolon hword ih =>
    refine hnext (fun fs ls hr => ⟨.mark c :: fs, by rw [hr]; rfl, ?_⟩) ih h
    rw [piecesOf]
    · rintro name fs' rfl rfl
      exact helement name _ hr rfl
    · rintro fs' rfl rfl
      exact hcolon _ hr rfl
    · rintro name fs' rfl rfl
      exact hword name _ hr rfl
  | case6 w r ih =>
    exact hnext (fun fs ls hr => ⟨.word w :: fs, by rw [hr]; rfl, by rw [piecesOf]⟩) ih h
  | case7 g content closed r ih =>
    exact hnext (fun fs ls hr => ⟨.group g content closed :: fs, by rw [hr]; rfl,
      by rw [piecesOf]⟩) ih h

end Extended
end CosmeticFilter
