import CosmeticFilter.Text.Basic

/-!
# Tokens of a selector

A selector is read in two kinds of token: a *mark*, one character that carries structure, and a
*word*, a run of anything else. Marks count only outside groups. Whatever stands between the
brackets or quotes of a group is one word, so that the argument of a pseudo-class stays whole.

* `Chunk`: a mark, a word, or a whole group with its content;
* `chunks`: cuts a text into chunks;
* `tokens`: the tokens of a text, each with the place where it starts.

A group that is never closed ends with the text and has no closing mark. A backslash keeps the
character after it from being a mark or from closing its group.
-/

namespace CosmeticFilter
namespace Extended

/-- The characters that are marks outside groups. The minus sign is none, so `-abp-has` is one
word. -/
def isMark (c : Char) : Bool :=
  Text.isBlank c || ['>', '+', '~', '(', ')', '[', ']', '"', '\'', ':', ',', '*', '#', '.', '^',
    '$'].contains c

/-- The groups whose content is one word. -/
inductive Group where
  /-- Round brackets; those inside are counted. -/
  | parens
  /-- Square brackets. -/
  | square
  /-- A quoted string. -/
  | quoted (quote : Char)
  deriving DecidableEq, Repr

namespace Group

/-- The group that a mark opens. -/
def ofMark? (c : Char) : Option Group :=
  if c = '(' then some parens
  else if c = '[' then some square
  else if c = '"' ∨ c = '\'' then some (quoted c)
  else none

/-- The mark that opens the group. -/
def opening : Group → Char
  | parens => '('
  | square => '['
  | quoted q => q

/-- The mark that closes the group. -/
def closing : Group → Char
  | parens => ')'
  | square => ']'
  | quoted q => q

theorem opening_of_ofMark? {c : Char} {g : Group} (h : ofMark? c = some g) : g.opening = c := by
  unfold ofMark? at h
  split at h
  · cases h; simp [opening, *]
  · split at h
    · cases h; simp [opening, *]
    · split at h
      · cases h; rfl
      · cases h

end Group

/-- A quote opens a string inside round brackets only where a value may start: at the beginning,
after `=`, `,` or a blank. In `it's` it is text. -/
def opensString (previous : Char) : Bool :=
  previous == '(' || previous == '=' || previous == ',' || Text.isBlank previous

/-- What a reader inside a group remembers: how many round brackets are open in it, the quote it is
in, and the character before. -/
structure Inside where
  /-- Round brackets opened inside the group and not closed yet. -/
  depth : Nat
  /-- The quote that is open. -/
  quote : Option Char
  /-- The previous character. -/
  previous : Char

/-- Reads one character inside a group; `none` if it closes the group. -/
def Inside.step (g : Group) (s : Inside) (c : Char) : Option Inside :=
  match s.quote with
  | some q => some ⟨s.depth, if c = q then none else some q, c⟩
  | none =>
    match g with
    | .parens =>
      if (c = '"' ∨ c = '\'') ∧ opensString s.previous then some ⟨s.depth, some c, c⟩
      else if c = '(' then some ⟨s.depth + 1, none, c⟩
      else if c = ')' then (if s.depth = 0 then none else some ⟨s.depth - 1, none, c⟩)
      else some ⟨s.depth, none, c⟩
    | .square =>
      if c = '"' ∨ c = '\'' then some ⟨s.depth, some c, c⟩
      else if c = ']' then none
      else some ⟨s.depth, none, c⟩
    | .quoted q => if c = q then none else some ⟨s.depth, none, c⟩

/-- Cuts the content of a group from what follows it; the second part is empty or starts with the
closing mark. -/
def groupContent (g : Group) (s : Inside) : Text → Text × Text
  | [] => ([], [])
  | ['\\'] => (['\\'], [])
  | '\\' :: e :: r => Text.onto '\\' (Text.onto e (groupContent g { s with previous := e } r))
  | c :: r =>
    match s.step g c with
    | none => ([], c :: r)
    | some s' => Text.onto c (groupContent g s' r)

/-- Cuts the longest run without marks from what follows it. An escaped character is no mark. -/
def takeWord : Text → Text × Text
  | [] => ([], [])
  | '\\' :: e :: r => Text.onto '\\' (Text.onto e (takeWord r))
  | c :: r => if isMark c then ([], c :: r) else Text.onto c (takeWord r)

/-- A word, a mark that opens no group, or a group. -/
inductive Chunk where
  /-- A mark that opens no group. -/
  | mark (c : Char)
  /-- A run without marks. -/
  | word (text : Text)
  /-- A group, its content, and whether its closing mark follows. -/
  | group (g : Group) (content : Text) (closed : Bool)
  deriving DecidableEq, Repr

/-! ### Nothing is lost -/

theorem groupContent_append (g : Group) (s : Inside) (t : Text) :
    (groupContent g s t).1 ++ (groupContent g s t).2 = t := by
  fun_induction groupContent g s t <;> simp_all

theorem takeWord_append (t : Text) : (takeWord t).1 ++ (takeWord t).2 = t := by
  fun_induction takeWord t <;> simp_all

theorem length_groupContent_snd_le (g : Group) (s : Inside) (t : Text) :
    (groupContent g s t).2.length ≤ t.length := by
  have h := congrArg List.length (groupContent_append g s t)
  rw [List.length_append] at h
  omega

theorem length_takeWord_snd_le (t : Text) : (takeWord t).2.length ≤ t.length := by
  have h := congrArg List.length (takeWord_append t)
  rw [List.length_append] at h
  omega

/-- A word takes at least the character it starts with, if that is no mark. -/
theorem length_takeWord_snd_lt {c : Char} {r : Text} (h : isMark c = false) :
    (takeWord (c :: r)).2.length < (c :: r).length := by
  unfold takeWord
  split
  · simp_all
  · rename_i e r' heq
    simp only [List.cons.injEq] at heq
    have := length_takeWord_snd_le r'
    simp [heq.2]
    omega
  · rename_i c' r' _ heq
    simp only [List.cons.injEq] at heq
    obtain ⟨rfl, rfl⟩ := heq
    have := length_takeWord_snd_le r
    simp [h]
    omega

/-! ### Chunks and tokens -/

/-- Cuts a text into chunks. -/
def chunks : Text → List Chunk
  | [] => []
  | c :: r =>
    if isMark c = false then
      .word (takeWord (c :: r)).1 :: chunks (takeWord (c :: r)).2
    else match Group.ofMark? c with
      | none => .mark c :: chunks r
      | some g =>
        let inside := groupContent g ⟨0, none, c⟩ r
        .group g inside.1 (!inside.2.isEmpty) :: chunks inside.2.tail
termination_by t => t.length
decreasing_by
  · exact length_takeWord_snd_lt ‹_›
  · simp
  · have := length_groupContent_snd_le g ⟨0, none, c⟩ r
    simp only [List.length_tail, List.length_cons]
    omega

/-- The kind of a token. -/
inductive TokenKind where
  /-- A run without marks, or the content of a group. -/
  | word
  /-- One character that carries structure. -/
  | mark
  deriving DecidableEq, Repr

/-- A token and the number of characters before it. -/
structure Token where
  /-- Word or mark. -/
  kind : TokenKind
  /-- The characters of the token. -/
  text : Text
  /-- How many characters of the trimmed text stand before it. -/
  start : Nat
  deriving DecidableEq, Repr

/-- The tokens of a chunk, without their places. -/
def Chunk.lexemes : Chunk → List (TokenKind × Text)
  | .mark c => [(.mark, [c])]
  | .word w => [(.word, w)]
  | .group g content closed =>
    (.mark, [g.opening]) :: ((if content.isEmpty then [] else [(.word, content)]) ++
      (if closed then [(.mark, [g.closing])] else []))

/-- Gives each lexeme its place, the first starting at `start`. -/
def place (start : Nat) : List (TokenKind × Text) → List Token
  | [] => []
  | (kind, text) :: r => ⟨kind, text, start⟩ :: place (start + text.length) r

/-- The tokens of a selector, blanks around it aside. -/
def tokens (t : Text) : List Token := place 0 ((chunks (Text.trim t)).flatMap Chunk.lexemes)

end Extended
end CosmeticFilter
