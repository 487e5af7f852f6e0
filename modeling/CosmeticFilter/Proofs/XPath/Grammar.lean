import CosmeticFilter.Proofs.Text.Trim
import CosmeticFilter.Proofs.XPath.Meaning
import CosmeticFilter.XPath.Reader

/-!
# How expressions are written

A grammar of the expressions of XPath 1.0 that are supported, as relations between an expression, a
text that starts with it, and what follows it there. Abbreviations stand for what they are short
for, `and` binds closer than `or`, both group to the left, and blanks may stand in front of every
sign. A name and a number go as far as they can; nothing else looks ahead.

* `Sign`, `Word`, `Numeral`: signs, the words between conditions, and numbers;
* `Standard.Term.IsWritten`, `Standard.Expr.IsWritten`: what stands in predicates, by levels;
* `Standard.Step.IsWritten`, `Standard.Path.IsWritten`, `Standard.Query.IsWritten`: expressions;
* `of_trimStart` lemmas: blanks in front do not count;
* `suffix` lemmas: what follows is the end of the text.
-/

namespace CosmeticFilter

/-- The sign of a comparison. -/
def Relation.sign : Relation → Text
  | eq => "=".toList
  | ne => "!=".toList
  | lt => "<".toList
  | le => "<=".toList
  | gt => ">".toList
  | ge => ">=".toList

namespace XPath

/-! ### Signs, words and numbers -/

/-- The text starts with a sign, behind blanks or not. -/
def Sign (sign t rest : Text) : Prop := Text.trimStart t = sign ++ rest

/-- The text starts with a word that joins conditions. -/
structure Word (word t rest : Text) : Prop where
  /-- The word stands there. -/
  sign : Sign word t rest
  /-- It does not go on as another name. -/
  apart : ∀ c ∈ rest.head?, Text.isBlank c = true ∨ c = '(' ∨ c = '@' ∨ c = '.'

/-- The text starts with the digits of a number. -/
structure Numeral (n : Nat) (t rest : Text) : Prop where
  /-- The digits, as far as they go, write the number. -/
  digits : Text.readNat? (t.takeWhile Char.isDigit) = some n
  /-- The number is within bounds. -/
  bound : n < numberLimit
  /-- The rest stands behind the digits. -/
  rest_eq : rest = t.dropWhile Char.isDigit

namespace Standard

/-! ### Predicates -/

/-- The text starts with a term. -/
inductive Term.IsWritten : Term → Text → Text → Prop
  | named {t s name rest : Text} (sign : Sign ['@'] t s) (read : takeName s = (name, rest))
      (ne_nil : name ≠ []) : IsWritten (.attribute name) t rest
  | text {t rest : Text} (sign : Sign "text()".toList t rest) : IsWritten .text t rest
  | self {t rest : Text} (sign : Sign ['.'] t rest) : IsWritten .self t rest
  | string {t rest : Text} (sign : Sign "string()".toList t rest) : IsWritten .string t rest
  | literal {t literal rest : Text} {quote : Char} (quotes : quote = '"' ∨ quote = '\'')
      (sign : Sign [quote] t (literal ++ quote :: rest)) (inside : quote ∉ literal) :
      IsWritten (.literal literal) t rest
  | numeral {n : Nat} {t rest : Text} (numeral : Numeral n (Text.trimStart t) rest) :
      IsWritten (.numeral n) t rest

/-- How closely the parts of a condition are bound. -/
inductive Level where
  /-- Anything that is not joined to something else. -/
  | condition
  /-- Conditions joined by `and`. -/
  | conjunction
  /-- Conjunctions joined by `or`. -/
  | disjunction

/-- The text starts with an expression of this level. -/
inductive Expr.IsWritten : Level → Expr → Text → Text → Prop
  | group {e : Expr} {t s r rest : Text} (opening : Sign "(".toList t s)
      (inner : IsWritten .disjunction e s r) (closing : Sign [')'] r rest) :
      IsWritten .condition (.group e) t rest
  | not {e : Expr} {t s r rest : Text} (opening : Sign "not(".toList t s)
      (inner : IsWritten .disjunction e s r) (closing : Sign [')'] r rest) :
      IsWritten .condition (.not e) t rest
  | last {t rest : Text} (sign : Sign "last()".toList t rest) : IsWritten .condition .last t rest
  | position {relation : Relation} {n : Nat} {t s r rest : Text}
      (sign : Sign "position()".toList t s) (comparison : Sign relation.sign s r)
      (numeral : Numeral n (Text.trimStart r) rest) :
      IsWritten .condition (.position relation n) t rest
  | contains {a b : Term} {t s r u v rest : Text} (opening : Sign "contains(".toList t s)
      (first : a.IsWritten s r) (comma : Sign [','] r u) (second : b.IsWritten u v)
      (closing : Sign [')'] v rest) : IsWritten .condition (.contains a b) t rest
  | startsWith {a b : Term} {t s r u v rest : Text} (opening : Sign "starts-with(".toList t s)
      (first : a.IsWritten s r) (comma : Sign [','] r u) (second : b.IsWritten u v)
      (closing : Sign [')'] v rest) : IsWritten .condition (.startsWith a b) t rest
  | term {a : Term} {t rest : Text} (term : a.IsWritten t rest) :
      IsWritten .condition (.term a) t rest
  | equal {a b : Term} {t s r rest : Text} (left : a.IsWritten t s)
      (comparison : Sign Relation.eq.sign s r) (right : b.IsWritten r rest) :
      IsWritten .condition (.compare a true b) t rest
  | differ {a b : Term} {t s r rest : Text} (left : a.IsWritten t s)
      (comparison : Sign Relation.ne.sign s r) (right : b.IsWritten r rest) :
      IsWritten .condition (.compare a false b) t rest
  | conjunct {e : Expr} {t rest : Text} (part : IsWritten .condition e t rest) :
      IsWritten .conjunction e t rest
  | and {p q : Expr} {t s r rest : Text} (left : IsWritten .conjunction p t s)
      (word : Word "and".toList s r) (right : IsWritten .condition q r rest) :
      IsWritten .conjunction (.and p q) t rest
  | disjunct {e : Expr} {t rest : Text} (part : IsWritten .conjunction e t rest) :
      IsWritten .disjunction e t rest
  | or {p q : Expr} {t s r rest : Text} (left : IsWritten .disjunction p t s)
      (word : Word "or".toList s r) (right : IsWritten .conjunction q r rest) :
      IsWritten .disjunction (.or p q) t rest

/-- The text starts with predicates in square brackets. -/
inductive PredicatesAreWritten : List Expr → Text → Text → Prop
  | nil {t : Text} : PredicatesAreWritten [] t t
  | cons {e : Expr} {es : List Expr} {t s r u rest : Text} (opening : Sign ['['] t s)
      (predicate : e.IsWritten .disjunction s r) (closing : Sign [']'] r u)
      (further : PredicatesAreWritten es u rest) : PredicatesAreWritten (e :: es) t rest

/-! ### Steps and paths -/

/-- The text starts with a node test. -/
inductive TestIsWritten : NodeTest → Text → Text → Prop
  | anyElement {rest : Text} : TestIsWritten .anyElement ('*' :: rest) rest
  | name {t name rest : Text} (read : takeName t = (name, rest)) (ne_nil : name ≠ []) :
      TestIsWritten (.name name) t rest
  | node {r rest : Text} (closing : Sign [')'] r rest) :
      TestIsWritten .node ("node(".toList ++ r) rest
  | text {r rest : Text} (closing : Sign [')'] r rest) :
      TestIsWritten .text ("text(".toList ++ r) rest

/-- The text starts with a step. -/
inductive Step.IsWritten : Step → Text → Text → Prop
  | parent {t rest : Text} (sign : Sign "..".toList t rest) :
      IsWritten ⟨.parent, .node, []⟩ t rest
  | self {t rest : Text} (sign : Sign ".".toList t rest) : IsWritten ⟨.self, .node, []⟩ t rest
  | child {test : NodeTest} {es : List Expr} {t r rest : Text}
      (apart : (Text.trimStart t).head? ≠ some '.')
      (written : TestIsWritten test (Text.trimStart t) r)
      (predicates : PredicatesAreWritten es r rest) : IsWritten ⟨.child, test, es⟩ t rest
  | onAxis {axis : Axis} {test : NodeTest} {es : List Expr} {t s r rest : Text}
      (sign : Sign (axis.text ++ "::".toList) t s) (written : TestIsWritten test s r)
      (predicates : PredicatesAreWritten es r rest) : IsWritten ⟨axis, test, es⟩ t rest

/-- What two slashes are short for. -/
def Step.toAllBelow : Step := ⟨.descendantOrSelf, .node, []⟩

/-- The text starts with one or more steps. -/
inductive StepsAreWritten : List Step → Text → Text → Prop
  | last {s : Step} {t rest : Text} (step : s.IsWritten t rest) : StepsAreWritten [s] t rest
  | slash {s : Step} {ss : List Step} {t r u rest : Text} (step : s.IsWritten t r)
      (sign : Sign "/".toList r u) (further : StepsAreWritten ss u rest) :
      StepsAreWritten (s :: ss) t rest
  | slashes {s : Step} {ss : List Step} {t r u rest : Text} (step : s.IsWritten t r)
      (sign : Sign "//".toList r u) (further : StepsAreWritten ss u rest) :
      StepsAreWritten (s :: .toAllBelow :: ss) t rest

/-- The text starts with a location path. -/
inductive Path.IsWritten : Path → Text → Text → Prop
  | document {t rest : Text} (sign : Sign "/".toList t rest) : IsWritten ⟨true, []⟩ t rest
  | absolute {ss : List Step} {t r rest : Text} (sign : Sign "/".toList t r)
      (steps : StepsAreWritten ss r rest) : IsWritten ⟨true, ss⟩ t rest
  | anywhere {ss : List Step} {t r rest : Text} (sign : Sign "//".toList t r)
      (steps : StepsAreWritten ss r rest) : IsWritten ⟨true, .toAllBelow :: ss⟩ t rest
  | relative {ss : List Step} {t rest : Text} (steps : StepsAreWritten ss t rest) :
      IsWritten ⟨false, ss⟩ t rest

/-- The text is a union of paths. -/
inductive PathsAreWritten : List Path → Text → Prop
  | last {p : Path} {t rest : Text} (path : p.IsWritten t rest) (blank : Text.trimStart rest = []) :
      PathsAreWritten [p] t
  | bar {p : Path} {ps : List Path} {t r rest : Text} (path : p.IsWritten t r)
      (sign : Sign ['|'] r rest) (further : PathsAreWritten ps rest) : PathsAreWritten (p :: ps) t

/-- The text is an expression. -/
def Query.IsWritten (q : Query) (t : Text) : Prop := PathsAreWritten q.paths t

end Standard

/-! ### Blanks in front -/

theorem Sign.of_trimStart {sign s t rest : Text} (h : Sign sign s rest)
    (heq : Text.trimStart s = Text.trimStart t) : Sign sign t rest :=
  heq.symm.trans h

theorem Word.of_trimStart {word s t rest : Text} (h : Word word s rest)
    (heq : Text.trimStart s = Text.trimStart t) : Word word t rest :=
  ⟨h.sign.of_trimStart heq, h.apart⟩

/-- Behind blanks stands the first character of the sign. -/
theorem Sign.head?_eq {sign t rest : Text} (h : Sign sign t rest) (hne : sign ≠ []) :
    (Text.trimStart t).head? = sign.head? := by
  rw [h, List.head?_append_of_ne_nil sign hne]

namespace Standard

theorem Term.IsWritten.of_trimStart {a : Term} {s t rest : Text} (h : a.IsWritten s rest)
    (heq : Text.trimStart s = Text.trimStart t) : a.IsWritten t rest := by
  cases h with
  | named sign read ne_nil => exact .named (sign.of_trimStart heq) read ne_nil
  | text sign => exact .text (sign.of_trimStart heq)
  | self sign => exact .self (sign.of_trimStart heq)
  | string sign => exact .string (sign.of_trimStart heq)
  | literal quotes sign inside => exact .literal quotes (sign.of_trimStart heq) inside
  | numeral numeral => exact .numeral (heq ▸ numeral)

/-- Blanks in front of an expression do not count. -/
theorem Expr.IsWritten.of_trimStart {level : Level} {e : Expr} {s t rest : Text}
    (h : e.IsWritten level s rest) (heq : Text.trimStart s = Text.trimStart t) :
    e.IsWritten level t rest := by
  induction h with
  | group opening inner closing => exact .group (opening.of_trimStart heq) inner closing
  | not opening inner closing => exact .not (opening.of_trimStart heq) inner closing
  | last sign => exact .last (sign.of_trimStart heq)
  | position sign comparison numeral =>
    exact .position (sign.of_trimStart heq) comparison numeral
  | contains opening first comma second closing =>
    exact .contains (opening.of_trimStart heq) first comma second closing
  | startsWith opening first comma second closing =>
    exact .startsWith (opening.of_trimStart heq) first comma second closing
  | term term => exact .term (term.of_trimStart heq)
  | equal left comparison right => exact .equal (left.of_trimStart heq) comparison right
  | differ left comparison right => exact .differ (left.of_trimStart heq) comparison right
  | conjunct _ ih => exact .conjunct (ih heq)
  | and _ word right ih => exact .and (ih heq) word right
  | disjunct _ ih => exact .disjunct (ih heq)
  | or _ word right ih => exact .or (ih heq) word right

end Standard

/-! ### What follows -/

theorem Sign.suffix {sign t rest : Text} (h : Sign sign t rest) : rest <:+ t :=
  ((List.suffix_append sign rest).trans (h ▸ List.suffix_rfl)).trans
    (List.dropWhile_suffix Text.isBlank)

/-- A sign takes at least its own length. -/
theorem Sign.length_add_le {sign t rest : Text} (h : Sign sign t rest) :
    sign.length + rest.length ≤ t.length := by
  rw [← List.length_append, ← h]
  exact Text.length_trimStart_le t

/-- A name is cut off where it ends. -/
theorem append_takeName (t : Text) : (takeName t).1 ++ (takeName t).2 = t := by
  induction t with
  | nil => rfl
  | cons c r ih =>
    rw [takeName]
    split
    · rw [Text.onto_fst, Text.onto_snd, List.cons_append, ih]
    · rfl

theorem suffix_of_takeName {t name rest : Text} (h : takeName t = (name, rest)) : rest <:+ t := by
  have happend := append_takeName t
  rw [h] at happend
  exact happend ▸ List.suffix_append name rest

namespace Standard

theorem Term.IsWritten.suffix {a : Term} {t rest : Text} (h : a.IsWritten t rest) : rest <:+ t := by
  cases h with
  | named sign read => exact (suffix_of_takeName read).trans sign.suffix
  | text sign => exact sign.suffix
  | self sign => exact sign.suffix
  | string sign => exact sign.suffix
  | literal quotes sign =>
    exact ((List.suffix_cons _ _).trans (List.suffix_append _ _)).trans sign.suffix
  | numeral numeral =>
    rw [numeral.rest_eq]
    exact (List.dropWhile_suffix _).trans (List.dropWhile_suffix _)

theorem Expr.IsWritten.suffix {level : Level} {e : Expr} {t rest : Text}
    (h : e.IsWritten level t rest) : rest <:+ t := by
  induction h with
  | group opening _ closing ih => exact (closing.suffix.trans ih).trans opening.suffix
  | not opening _ closing ih => exact (closing.suffix.trans ih).trans opening.suffix
  | last sign => exact sign.suffix
  | position sign comparison numeral =>
    rw [numeral.rest_eq]
    exact (((List.dropWhile_suffix _).trans (List.dropWhile_suffix _)).trans
      comparison.suffix).trans sign.suffix
  | contains opening first comma second closing | startsWith opening first comma second closing =>
    exact (((closing.suffix.trans second.suffix).trans comma.suffix).trans first.suffix).trans
      opening.suffix
  | term term => exact term.suffix
  | equal left comparison right | differ left comparison right =>
    exact (right.suffix.trans comparison.suffix).trans left.suffix
  | conjunct _ ih | disjunct _ ih => exact ih
  | and _ word _ left right | or _ word _ left right =>
    exact (right.trans word.sign.suffix).trans left

end Standard
end XPath
end CosmeticFilter
