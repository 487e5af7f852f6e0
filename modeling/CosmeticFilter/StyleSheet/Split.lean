import CosmeticFilter.Text.Nesting

/-!
# Cutting style sheets and rules

A style sheet is cut into rules at the braces that close their blocks. Such a brace stands outside
quotes and brackets; where there is none, as after a stray apostrophe, the first closing brace of
all ends the rule. Within a rule, the selector may hold braces itself, so every opening brace may
begin the block.

* `ruleTexts`: the rules of a style sheet;
* `braceSplits`: what stands before and after each opening brace of a rule;
* `hasComment`: a comment begins outside quotes.
-/

namespace CosmeticFilter
namespace StyleSheet

/-- The first rule of a text, and what follows it. -/
def cutRule (t : Text) : Text × Text :=
  match Nesting.cut .roundAndSquare (· == '\x7d') .top t with
  | some (x, c, y) => (x ++ [c], y)
  | none =>
    match Text.cutFirst (· == '\x7d') t with
    | some (x, y) => (x ++ ['\x7d'], y)
    | none => (t, [])

/-- Cutting off a rule loses nothing. -/
theorem cutRule_append (t : Text) : (cutRule t).1 ++ (cutRule t).2 = t := by
  unfold cutRule
  split
  · rename_i x c y found
    simp [Nesting.cut_eq_some found]
  · split
    · rename_i x y found
      obtain ⟨c, hc, rfl⟩ := Text.cutFirst_eq_some found
      simp only [beq_iff_eq] at hc
      simp [hc]
    · simp

/-- A rule has at least one character. -/
theorem cutRule_ne_nil {t : Text} (h : t ≠ []) : (cutRule t).1 ≠ [] := by
  unfold cutRule
  split
  · simp
  · split
    · simp
    · exact h

theorem length_cutRule_lt {t : Text} (h : t ≠ []) : (cutRule t).2.length < t.length := by
  have hlength := congrArg List.length (cutRule_append t)
  have hpos := List.length_pos_iff.2 (cutRule_ne_nil h)
  rw [List.length_append] at hlength
  omega

/-- The rules of a style sheet, without blanks around them. -/
def ruleTexts (t : Text) : List Text :=
  if _h : Text.trimStart t = [] then []
  else
    Text.trimEnd (cutRule (Text.trimStart t)).1 :: ruleTexts (cutRule (Text.trimStart t)).2
termination_by t.length
decreasing_by
  have := length_cutRule_lt _h
  have := Text.length_trimStart_le t
  omega

/-- What stands before and after each opening brace, from left to right. -/
def braceSplits : Text → List (Text × Text)
  | [] => []
  | c :: r =>
    let later := (braceSplits r).map (Text.onto c)
    if c = '\x7b' then ([], r) :: later else later

/-- Reads on for a comment, after the character `previous` and within `quote`. A quote after a
backslash does not close a string. -/
def hasCommentFrom (quote : Option Char) (previous : Option Char) : Text → Bool
  | [] => false
  | c :: r =>
    match quote with
    | some q =>
      hasCommentFrom (if c = q ∧ previous ≠ some '\\' then none else some q) (some c) r
    | none =>
      if c = '"' ∨ c = '\'' then hasCommentFrom (some c) (some c) r
      else if c = '*' ∧ previous = some '/' then true
      else hasCommentFrom none (some c) r

/-- A comment begins outside quotes. -/
def hasComment (t : Text) : Bool := hasCommentFrom none none t

end StyleSheet
end CosmeticFilter
