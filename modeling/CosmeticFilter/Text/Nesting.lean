import CosmeticFilter.Text.Basic

/-!
# Nesting

A selector or a declaration block is cut at characters that stand outside quotes and brackets.
`Nesting` is what a reader has to remember to know whether the next character does: the quote it is
in, how many brackets are open, and whether a backslash came just before.

* `Nesting.step` reads one character;
* `Nesting.isTop` says that the next character stands outside everything;
* `Nesting.cut` and `Nesting.split` cut a text at the first, or at every, such character.

A closing bracket with nothing open is passed over, and a quote that is never closed hides all that
follows it.
-/

namespace CosmeticFilter

/-- Which characters open and close a group. -/
inductive Brackets where
  /-- `(` and `)`. -/
  | round
  /-- `(`, `)`, `[` and `]`. -/
  | roundAndSquare
  deriving DecidableEq, Repr

namespace Brackets

/-- The character opens a group. -/
def opens : Brackets → Char → Bool
  | round, c => c == '('
  | roundAndSquare, c => c == '(' || c == '['

/-- The character closes a group. -/
def closes : Brackets → Char → Bool
  | round, c => c == ')'
  | roundAndSquare, c => c == ')' || c == ']'

/-- The character is read for nesting, so nothing is ever cut at it. -/
def isDelimiter (b : Brackets) (c : Char) : Bool :=
  c == '\\' || c == '"' || c == '\'' || b.opens c || b.closes c

end Brackets

/-- Where a reader stands: in which quote, in how many brackets, and whether right after a
backslash. -/
structure Nesting where
  /-- The quote that is open. -/
  quote : Option Char
  /-- How many brackets are open. -/
  depth : Nat
  /-- The previous character was a backslash that escapes the next one. -/
  escaped : Bool
  deriving DecidableEq, Repr

namespace Nesting

/-- Outside everything, as at the start of a text. -/
def top : Nesting := ⟨none, 0, false⟩

/-- The next character stands outside quotes and brackets and is not escaped. -/
def isTop (s : Nesting) : Bool := s.quote.isNone && s.depth == 0 && !s.escaped

/-- Reads one character. -/
def step (b : Brackets) (s : Nesting) (c : Char) : Nesting :=
  if s.escaped then ⟨s.quote, s.depth, false⟩
  else if c = '\\' then ⟨s.quote, s.depth, true⟩
  else match s.quote with
    | some q => if c = q then ⟨none, s.depth, false⟩ else s
    | none =>
      if c = '"' ∨ c = '\'' then ⟨some c, s.depth, false⟩
      else if b.opens c then ⟨none, s.depth + 1, false⟩
      else if b.closes c then ⟨none, s.depth - 1, false⟩
      else s

/-- Where the reader stands after a whole text. -/
def after (b : Brackets) (s : Nesting) (t : Text) : Nesting := t.foldl (step b) s

/-- The text is cut at this character when the reader stands outside everything. -/
def cutsAt (b : Brackets) (p : Char → Bool) (s : Nesting) (c : Char) : Bool :=
  s.isTop && !b.isDelimiter c && p c

/-- What stands before the first character outside everything that satisfies `p`, that character,
and what stands after it. -/
def cut (b : Brackets) (p : Char → Bool) (s : Nesting) : Text → Option (Text × Char × Text)
  | [] => none
  | c :: r =>
    if cutsAt b p s c then some ([], c, r)
    else (cut b p (step b s c) r).map fun (x, d, y) => (c :: x, d, y)

/-- The pieces between the characters outside everything that satisfy `p`. -/
def split (b : Brackets) (p : Char → Bool) (s : Nesting) : Text → List Text
  | [] => [[]]
  | c :: r =>
    if cutsAt b p s c then [] :: split b p s r
    else match split b p (step b s c) r with
      | [] => [[c]]
      | w :: ws => (c :: w) :: ws

@[simp] theorem after_nil (b : Brackets) (s : Nesting) : after b s [] = s := rfl

@[simp] theorem after_cons (b : Brackets) (s : Nesting) (c : Char) (r : Text) :
    after b s (c :: r) = after b (step b s c) r := rfl

theorem after_append (b : Brackets) (s : Nesting) (t u : Text) :
    after b s (t ++ u) = after b (after b s t) u := by simp [after]

/-- Cutting loses nothing. -/
theorem cut_eq_some {b : Brackets} {p : Char → Bool} {s : Nesting} {t x y : Text} {d : Char}
    (h : cut b p s t = some (x, d, y)) : t = x ++ d :: y := by
  induction t generalizing s x with
  | nil => simp [cut] at h
  | cons c r ih =>
    rw [cut] at h
    split at h
    · simp only [Option.some.injEq, Prod.mk.injEq] at h
      obtain ⟨rfl, rfl, rfl⟩ := h
      rfl
    · simp only [Option.map_eq_some_iff] at h
      obtain ⟨⟨x', d', y'⟩, h', heq⟩ := h
      simp only [Prod.mk.injEq] at heq
      obtain ⟨rfl, rfl, rfl⟩ := heq
      rw [ih h', List.cons_append]

theorem split_ne_nil (b : Brackets) (p : Char → Bool) (s : Nesting) (t : Text) :
    split b p s t ≠ [] := by
  cases t with
  | nil => simp [split]
  | cons c r =>
    rw [split]
    split
    · simp
    · split <;> simp

end Nesting
end CosmeticFilter
