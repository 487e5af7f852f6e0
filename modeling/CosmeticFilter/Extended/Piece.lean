import CosmeticFilter.Css.Keyword
import CosmeticFilter.Extended.Token

/-!
# Pieces of a selector

A selector is built from pieces: text that is kept as it is, blanks, commas, attribute selectors,
pseudo-classes and pseudo-elements with their arguments. A piece is one chunk or a few neighbouring
ones. Brackets and quotes that do not match are pieces too, so that the first thing that is wrong is
found first.

* `Piece`: the pieces;
* `pieces`: the pieces of a text.
-/

namespace CosmeticFilter
namespace Extended

/-- What stands behind the name of a pseudo-class. -/
inductive Argument where
  /-- No bracket. -/
  | absent
  /-- An argument in brackets. -/
  | given (content : Text)
  /-- A bracket that is never closed. -/
  | unclosed
  deriving DecidableEq, Repr

/-- A piece of a selector. -/
inductive Piece where
  /-- Text that is kept as it is. -/
  | verbatim (t : Text)
  /-- A blank. -/
  | space
  /-- A comma. -/
  | comma
  /-- A colon and a name. -/
  | pseudoClass (name : Text) (argument : Argument)
  /-- Two colons and a name. -/
  | pseudoElement (name : Text) (argument : Argument)
  /-- What stands between square brackets. -/
  | attributeTest (content : Text)
  /-- A bracket without its counterpart. -/
  | unbalanced
  /-- A quote without its counterpart. -/
  | unclosedQuote (quote : Char)
  deriving DecidableEq, Repr

/-- Reads the argument that follows a name. -/
def takeArgument : List Chunk → Argument × List Chunk
  | .group .parens content closed :: r =>
    (if closed then .given content else .unclosed, r)
  | r => (.absent, r)

theorem length_takeArgument_le (cs : List Chunk) : (takeArgument cs).2.length ≤ cs.length := by
  unfold takeArgument
  split
  · simp only [List.length_cons]
    omega
  · exact Nat.le_refl _

/-- The piece that a group makes by itself. -/
def Piece.ofGroup (g : Group) (content : Text) (closed : Bool) : Piece :=
  match g with
  | .parens => if closed then verbatim ('(' :: content ++ [')']) else unbalanced
  | .square => if closed then attributeTest content else unbalanced
  | .quoted q => if closed then verbatim (q :: content ++ [q]) else unclosedQuote q

/-- The piece that a mark makes by itself. -/
def Piece.ofMark (c : Char) : Piece :=
  if c = ',' then comma
  else if c = ')' ∨ c = ']' then unbalanced
  else if Text.isBlank c then space
  else verbatim [c]

/-- The pieces that chunks make. -/
def piecesOf : List Chunk → List Piece
  | [] => []
  | .mark ':' :: .mark ':' :: .word name :: r =>
    .pseudoElement name (takeArgument r).1 :: piecesOf (takeArgument r).2
  | .mark ':' :: .mark ':' :: r => .verbatim "::".toList :: piecesOf r
  | .mark ':' :: .word name :: r =>
    .pseudoClass name (takeArgument r).1 :: piecesOf (takeArgument r).2
  | .mark c :: r => .ofMark c :: piecesOf r
  | .word t :: r => .verbatim t :: piecesOf r
  | .group g content closed :: r => .ofGroup g content closed :: piecesOf r
termination_by cs => cs.length
decreasing_by
  all_goals
    simp only [List.length_cons]
    try have := length_takeArgument_le r
    omega

/-- The pieces of a text, blanks around it aside. -/
def pieces (t : Text) : List Piece := piecesOf (chunks (Text.trim t))

end Extended
end CosmeticFilter
