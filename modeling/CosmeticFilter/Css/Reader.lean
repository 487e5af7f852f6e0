import CosmeticFilter.Css.Basic
import CosmeticFilter.Css.Error
import CosmeticFilter.Css.Ident
import CosmeticFilter.Css.Keyword
import CosmeticFilter.Text.Nesting
import CosmeticFilter.Text.Outcome

/-!
# Reading selectors

`Selector.ofText` reads a list of selectors: it is cut at its commas, and each part is read from
left to right, compound by compound. Every reader returns what it left unread, and that is shorter
than what it was given, so the loops end.

* `splitList`: the parts between commas outside groups;
* `readAttribute`, `readPseudo`, `readSimple`, `readCompound`: the pieces of a selector;
* `Complex.ofText`, `Selector.ofText`: whole selectors.

A selector that starts with a combinator is relative to `:scope`: `> a` is `:scope > a`.
-/

namespace CosmeticFilter
namespace Css

/-- The parts of a list between its commas, without blanks around them. -/
def splitList (t : Text) : Except Error (List Text) :=
  let finish := Nesting.top.after .roundAndSquare t
  match finish.quote with
  | some q => .error (.unterminated q)
  | none =>
    if finish.depth = 0 then
      .ok ((Nesting.top.split .roundAndSquare (· == ',') t).map Text.trim)
    else .error (.unterminated '(')

/-- Reads an identifier that has to be there. -/
def readIdent (kind : NameKind) (t : Text) : Except Error (Text × Text) :=
  if (takeIdent t).1 = [] then .error (.missingName kind) else .ok (takeIdent t)

theorem length_lt_of_readIdent {kind : NameKind} {t name rest : Text}
    (h : readIdent kind t = .ok (name, rest)) : rest.length < t.length := by
  unfold readIdent at h
  split at h
  · simp at h
  · rename_i nonempty
    have := length_takeIdent_snd_lt nonempty
    rwa [Except.ok.inj h] at this

/-! ### Attribute selectors -/

/-- The comparison that is spelled by this character and `=`. -/
def Comparison.ofChar? (c : Char) : Option Comparison :=
  if c = '~' then some includes
  else if c = '|' then some dashMatch
  else if c = '^' then some startsWith
  else if c = '$' then some endsWith
  else if c = '*' then some contains
  else none

/-- Reads what follows the name of an attribute: the closing bracket, or a comparison. -/
def readComparison : Text → Except Error (Option Comparison × Text)
  | [] => .error (.unterminated '[')
  | c :: r =>
    if c = ']' then .ok (none, r)
    else if c = '=' then .ok (some .equals, r)
    else match Comparison.ofChar? c with
      | none => .error (.unexpected c)
      | some k =>
        if r.head? = some '=' then .ok (some k, r.tail) else .error (.unexpected c)

/-- Reads the text that an attribute is compared with: a string, or an identifier, which may start
with a digit here. -/
def readValue : Text → Except Error (Text × Text)
  | [] => .error (.unterminated '[')
  | c :: r =>
    if c = '"' ∨ c = '\'' then
      match takeString? c r with
      | some taken => .ok taken
      | none => .error (.unterminated c)
    else if startsIdent (c :: r) || c.isDigit then readIdent .attributeValue (c :: r)
    else .error (.unexpected c)

/-- Reads the letter that says whether letter case counts, if there is one. -/
def readCaseFlag : Text → Bool × Text
  | [] => (false, [])
  | c :: r =>
    if c = 'i' ∨ c = 'I' then (true, Text.trimStart r)
    else if c = 's' ∨ c = 'S' then (false, Text.trimStart r)
    else (false, c :: r)

/-- Reads the bracket that closes an attribute selector. -/
def readClosingBracket : Text → Except Error Text
  | [] => .error (.unterminated '[')
  | c :: r => if c = ']' then .ok r else .error (.unexpected c)

/-- Reads an attribute selector after its opening bracket. -/
def readAttribute (t : Text) : Except Error (AttributeTest × Text) := do
  let (name, afterName) ← readIdent .attributeName (Text.trimStart t)
  let (comparison, afterSign) ← readComparison (Text.trimStart afterName)
  match comparison with
  | none => return (⟨Text.lower name, none, false⟩, afterSign)
  | some comparison =>
    let (value, afterValue) ← readValue (Text.trimStart afterSign)
    let flag := readCaseFlag (Text.trimStart afterValue)
    let rest ← readClosingBracket flag.2
    return (⟨Text.lower name, some (comparison, value), flag.1⟩, rest)

theorem length_le_of_readComparison {t rest : Text} {k : Option Comparison}
    (h : readComparison t = .ok (k, rest)) : rest.length ≤ t.length := by
  cases t with
  | nil => simp [readComparison] at h
  | cons c r =>
    rw [readComparison] at h
    split at h
    · simp_all
    · split at h
      · simp_all
      · split at h
        · simp at h
        · split at h
          · simp only [Except.ok.injEq, Prod.mk.injEq] at h
            simp only [List.length_cons, ← h.2, List.length_tail]
            omega
          · simp at h

theorem length_le_of_readValue {t value rest : Text} (h : readValue t = .ok (value, rest)) :
    rest.length ≤ t.length := by
  cases t with
  | nil => simp [readValue] at h
  | cons c r =>
    rw [readValue] at h
    split at h
    · split at h
      · rename_i taken found
        simp only [Except.ok.injEq] at h
        subst h
        have := length_takeString?_snd_lt found
        simp only [List.length_cons]
        omega
      · simp at h
    · split at h
      · exact Nat.le_of_lt (length_lt_of_readIdent h)
      · simp at h

theorem length_readCaseFlag_le (t : Text) : (readCaseFlag t).2.length ≤ t.length := by
  cases t with
  | nil => simp [readCaseFlag]
  | cons c r =>
    have := Text.length_trimStart_le r
    rw [readCaseFlag]
    split
    · simp only [List.length_cons]; omega
    · split
      · simp only [List.length_cons]; omega
      · simp

theorem length_lt_of_readClosingBracket {t rest : Text} (h : readClosingBracket t = .ok rest) :
    rest.length < t.length := by
  cases t with
  | nil => simp [readClosingBracket] at h
  | cons c r =>
    rw [readClosingBracket] at h
    split at h <;> simp_all

theorem length_lt_of_readAttribute {t rest : Text} {test : AttributeTest}
    (h : readAttribute t = .ok (test, rest)) : rest.length < t.length := by
  simp only [readAttribute, Outcome.bind_eq_ok, Prod.exists] at h
  obtain ⟨name, afterName, hname, comparison, afterSign, hsign, h⟩ := h
  have h₁ := length_lt_of_readIdent hname
  have h₂ := Text.length_trimStart_le t
  have h₃ := length_le_of_readComparison hsign
  have h₄ := Text.length_trimStart_le afterName
  cases comparison with
  | none =>
    simp only [pure, Except.pure, Except.ok.injEq, Prod.mk.injEq] at h
    obtain ⟨-, rfl⟩ := h
    omega
  | some k =>
    simp only [Outcome.bind_eq_ok, Prod.exists] at h
    obtain ⟨value, afterValue, hvalue, rest', hrest, h⟩ := h
    simp only [pure, Except.pure, Except.ok.injEq, Prod.mk.injEq] at h
    obtain ⟨-, rfl⟩ := h
    have h₅ := length_le_of_readValue hvalue
    have h₆ := Text.length_trimStart_le afterSign
    have h₇ := length_lt_of_readClosingBracket hrest
    have h₈ := length_readCaseFlag_le (Text.trimStart afterValue)
    have h₉ := Text.length_trimStart_le afterValue
    omega

/-! ### Pseudo-classes and pseudo-elements -/

/-- Reads the argument of a pseudo-class after its opening bracket, up to the bracket that closes
it. -/
def takeArgument? (s : Nesting) : Text → Option (Text × Text)
  | [] => none
  | c :: r =>
    if s.isTop ∧ c = ')' then some ([], r)
    else (takeArgument? (s.step .round c) r).map (Text.onto c)

/-- Reads the argument of a pseudo-class if there is one. -/
def readArgument : Text → Except Error (Option Text × Text)
  | [] => .ok (none, [])
  | c :: r =>
    if c = '(' then
      match takeArgument? .top r with
      | some (argument, rest) => .ok (some argument, rest)
      | none => .error (.unterminated '(')
    else .ok (none, c :: r)

/-- The language in the argument of `:lang()`, without blanks and quotes around it. -/
def languageOf (argument : Text) : Text :=
  let isQuote (c : Char) : Bool := c == '"' || c == '\''
  ((((Text.trim argument).dropWhile isQuote).reverse).dropWhile isQuote).reverse

/-- The condition that a pseudo-class with this name, in small letters, stands for without an
argument. -/
def plainPseudoClass? (name : Text) : Option PseudoClass :=
  if name = "root".toList then some .root
  else if name = "scope".toList then some .scope
  else if name = "first-child".toList then some .firstChild
  else if name = "last-child".toList then some .lastChild
  else if name = "only-child".toList then some .onlyChild
  else if name = "first-of-type".toList then some .firstOfType
  else if name = "last-of-type".toList then some .lastOfType
  else if name = "only-of-type".toList then some .onlyOfType
  else if name = "empty".toList then some .empty
  else if name = "link".toList ∨ name = "any-link".toList then some .link
  else if name = "enabled".toList then some .enabled
  else if name = "disabled".toList then some .disabled
  else if name = "checked".toList then some .checked
  else if name = "required".toList then some .required
  else if name = "optional".toList then some .optional
  else none

/-- The positional pseudo-class with this name, in small letters. -/
def positional? (name : Text) : Option (Nth → PseudoClass) :=
  if name = "nth-child".toList then some .nthChild
  else if name = "nth-last-child".toList then some .nthLastChild
  else if name = "nth-of-type".toList then some .nthOfType
  else if name = "nth-last-of-type".toList then some .nthLastOfType
  else none

/-- The condition that a name after one colon, in small letters, and its argument stand for. -/
def pseudoClassOf (name : Text) (argument : Option Text) : Except Error Simple :=
  let invalid : Except Error Simple := .error (.invalidArgument name (argument.getD []))
  match positional? name with
  | some make =>
    match argument.bind Nth.ofText? with
    | some nth => .ok (.pseudo (make nth))
    | none => invalid
  | none =>
    match argument with
    | none =>
      match plainPseudoClass? name with
      | some pseudoClass => .ok (.pseudo pseudoClass)
      | none =>
        if stateNames.contains name || legacyElementNames.contains name then .ok .never
        else if isPseudoClass name then invalid
        else .error (.unknownPseudoClass name)
    | some a =>
      if name = "lang".toList then
        if languageOf a = [] then invalid else .ok (.pseudo (.lang (languageOf a)))
      else if name = "dir".toList then .ok .never
      else if isPseudoClass name then invalid
      else .error (.unknownPseudoClass name)

/-- Reads a pseudo-class or a pseudo-element after its first colon. -/
def readPseudo (t : Text) : Except Error (Simple × Text) := do
  let isElement := t.head? == some ':'
  let (name, afterName) ← readIdent .pseudoClassName (if isElement then t.tail else t)
  let (argument, rest) ← readArgument afterName
  if isElement then
    if isPseudoElement name then return (.never, rest)
    else throw (.unknownPseudoElement (Text.lower name))
  else
    let condition ← pseudoClassOf (Text.lower name) argument
    return (condition, rest)

theorem length_lt_of_takeArgument? {s : Nesting} {t argument rest : Text}
    (h : takeArgument? s t = some (argument, rest)) : rest.length < t.length := by
  induction t generalizing s argument with
  | nil => simp [takeArgument?] at h
  | cons c r ih =>
    rw [takeArgument?] at h
    split at h
    · simp_all
    · obtain ⟨⟨argument', rest'⟩, h', heq⟩ := Option.map_eq_some_iff.1 h
      simp only [Text.onto, Prod.mk.injEq] at heq
      obtain ⟨-, rfl⟩ := heq
      have := ih h'
      simp only [List.length_cons]
      omega

theorem length_le_of_readArgument {t rest : Text} {argument : Option Text}
    (h : readArgument t = .ok (argument, rest)) : rest.length ≤ t.length := by
  cases t with
  | nil => simp_all [readArgument]
  | cons c r =>
    rw [readArgument] at h
    split at h
    · split at h
      · rename_i found
        simp only [Except.ok.injEq, Prod.mk.injEq] at h
        obtain ⟨-, rfl⟩ := h
        have := length_lt_of_takeArgument? found
        simp only [List.length_cons]
        omega
      · simp at h
    · simp_all

theorem length_lt_of_readPseudo {t rest : Text} {condition : Simple}
    (h : readPseudo t = .ok (condition, rest)) : rest.length < t.length := by
  simp only [readPseudo, Outcome.bind_eq_ok, Prod.exists] at h
  obtain ⟨name, afterName, hname, argument, rest', hargument, h⟩ := h
  have h₁ := length_lt_of_readIdent hname
  have h₂ := length_le_of_readArgument hargument
  have h₃ : (if (t.head? == some ':') = true then t.tail else t).length ≤ t.length := by
    split
    · simp
    · exact Nat.le_refl _
  have h₄ : rest' = rest := by
    split at h
    · split at h
      · simp only [pure, Except.pure, Except.ok.injEq, Prod.mk.injEq] at h
        exact h.2
      · simp [throw, throwThe, MonadExceptOf.throw] at h
    · simp only [Outcome.bind_eq_ok] at h
      obtain ⟨_, -, h⟩ := h
      simp only [pure, Except.pure, Except.ok.injEq, Prod.mk.injEq] at h
      exact h.2
  rw [h₄] at h₂
  omega

/-! ### Compounds -/

/-- Reads the next condition of a compound, whose first condition it is or not; nothing if the
compound ends here. -/
def readSimple (isFirst : Bool) : Text → Except Error (Option (Simple × Text))
  | [] => .ok none
  | c :: r =>
    if c = '*' ∧ isFirst then .ok (some (.universal, r))
    else if c = '.' then (readIdent .className r).map fun (n, rest) => some (.hasClass n, rest)
    else if c = '#' then (readIdent .id r).map fun (n, rest) => some (.hasId n, rest)
    else if c = '[' then (readAttribute r).map fun (a, rest) => some (.attribute a, rest)
    else if c = ':' then (readPseudo r).map some
    else if isFirst ∧ startsIdent (c :: r) then
      (readIdent .typeName (c :: r)).map fun (n, rest) => some (.tag (Text.lower n), rest)
    else if Text.isBlank c || isCombinator c then .ok none
    else .error (.unexpected c)

theorem length_lt_of_readSimple {isFirst : Bool} {t rest : Text} {condition : Simple}
    (h : readSimple isFirst t = .ok (some (condition, rest))) : rest.length < t.length := by
  cases t with
  | nil => simp [readSimple] at h
  | cons c r =>
    rw [readSimple] at h
    split at h
    · simp_all
    split at h
    · obtain ⟨⟨n, rest'⟩, hread, heq⟩ := Outcome.map_eq_ok.1 h
      have := length_lt_of_readIdent hread
      simp_all
      omega
    split at h
    · obtain ⟨⟨n, rest'⟩, hread, heq⟩ := Outcome.map_eq_ok.1 h
      have := length_lt_of_readIdent hread
      simp_all
      omega
    split at h
    · obtain ⟨⟨n, rest'⟩, hread, heq⟩ := Outcome.map_eq_ok.1 h
      have := length_lt_of_readAttribute hread
      simp_all
      omega
    split at h
    · obtain ⟨⟨n, rest'⟩, hread, heq⟩ := Outcome.map_eq_ok.1 h
      have := length_lt_of_readPseudo hread
      simp_all
      omega
    split at h
    · obtain ⟨⟨n, rest'⟩, hread, heq⟩ := Outcome.map_eq_ok.1 h
      have := length_lt_of_readIdent hread
      simp_all
    split at h
    · simp at h
    · simp at h

/-- Reads the conditions of a compound, as many as follow each other. -/
def readConditions (isFirst : Bool) (t : Text) : Except Error (Compound × Text) :=
  match _read : readSimple isFirst t with
  | .error e => .error e
  | .ok none => .ok ([], t)
  | .ok (some (condition, rest)) =>
    (readConditions false rest).map fun more => (condition :: more.1, more.2)
termination_by t.length
decreasing_by exact length_lt_of_readSimple _read

/-- Reads a compound; it has at least one condition. -/
def readCompound (t : Text) : Except Error (Compound × Text) :=
  match readConditions true t with
  | .error e => .error e
  | .ok ([], rest) =>
    match rest with
    | [] => .error .empty
    | c :: _ => .error (.unexpected c)
  | .ok (condition :: conditions, rest) => .ok (condition :: conditions, rest)

theorem length_le_of_readConditions {isFirst : Bool} {t rest : Text} {compound : Compound}
    (h : readConditions isFirst t = .ok (compound, rest)) : rest.length ≤ t.length := by
  fun_induction readConditions isFirst t generalizing compound with
  | case1 => simp at h
  | case2 => simp_all
  | case3 isFirst t condition rest' hread ih =>
    have := length_lt_of_readSimple hread
    obtain ⟨⟨compound', rest''⟩, h', heq⟩ := Outcome.map_eq_ok.1 h
    simp only [Prod.mk.injEq] at heq
    obtain ⟨-, rfl⟩ := heq
    have := ih h'
    omega

theorem length_lt_of_readCompound {t rest : Text} {compound : Compound}
    (h : readCompound t = .ok (compound, rest)) : rest.length < t.length := by
  unfold readCompound at h
  split at h
  · simp at h
  · split at h <;> simp at h
  · rename_i condition conditions rest' hread
    simp only [Except.ok.injEq, Prod.mk.injEq] at h
    obtain ⟨-, rfl⟩ := h
    rw [readConditions] at hread
    split at hread
    · simp at hread
    · simp at hread
    · rename_i condition' rest'' hsimple
      have := length_lt_of_readSimple hsimple
      obtain ⟨⟨compound', rest₃⟩, h', heq⟩ := Outcome.map_eq_ok.1 hread
      simp only [Prod.mk.injEq] at heq
      obtain ⟨-, rfl⟩ := heq
      have := length_le_of_readConditions h'
      omega

/-! ### Whole selectors -/

/-- What separates a compound from the next: a combinator, with blanks around it or not, or blanks
alone. Nothing if the selector ends here. -/
def readCombinator (t : Text) : Except Error (Option (Combinator × Text)) :=
  match Text.trimStart t with
  | [] => .ok none
  | c :: r =>
    match Combinator.ofChar? c with
    | some combinator =>
      match Text.trimStart r with
      | [] => .error (.danglingCombinator c)
      | d :: r' => .ok (some (combinator, d :: r'))
    | none =>
      if t.head? = some c then .error (.unexpected c)
      else .ok (some (.descendant, c :: r))

theorem length_le_of_readCombinator {t rest : Text} {combinator : Combinator}
    (h : readCombinator t = .ok (some (combinator, rest))) : rest.length ≤ t.length := by
  have start := Text.length_trimStart_le t
  unfold readCombinator at h
  split at h
  · simp at h
  · rename_i c r heq
    rw [heq] at start
    simp only [List.length_cons] at start
    split at h
    · split at h
      · simp at h
      · rename_i d r' heq'
        have := Text.length_trimStart_le r
        simp only [Except.ok.injEq, Option.some.injEq, Prod.mk.injEq] at h
        rw [← h.2, ← heq']
        omega
    · split at h
      · simp at h
      · simp only [Except.ok.injEq, Option.some.injEq, Prod.mk.injEq] at h
        rw [← h.2]
        simp only [List.length_cons]
        omega

/-- Reads compounds to the end of the text, `left` being the ones already read. -/
def readChain (left : List (Combinator × Compound)) (t : Text) : Except Error Complex :=
  match _compound : readCompound t with
  | .error e => .error e
  | .ok (compound, rest) =>
    match _combinator : readCombinator rest with
    | .error e => .error e
    | .ok none => .ok ⟨compound, left⟩
    | .ok (some (combinator, rest')) => readChain ((combinator, compound) :: left) rest'
termination_by t.length
decreasing_by
  have := length_lt_of_readCompound _compound
  have := length_le_of_readCombinator _combinator
  omega

/-- Reads one selector. -/
def Complex.ofText (t : Text) : Except Error Complex :=
  match Text.trim t with
  | [] => .error .empty
  | c :: r =>
    match Combinator.ofChar? c with
    | some combinator => readChain [(combinator, [.pseudo .scope])] (Text.trimStart r)
    | none => readChain [] (c :: r)

/-- Reads a list of selectors. -/
def Selector.ofText (t : Text) : Except Error Selector := do
  let parts ← splitList t
  let alternatives ← parts.mapM Complex.ofText
  return ⟨alternatives⟩

end Css
end CosmeticFilter
