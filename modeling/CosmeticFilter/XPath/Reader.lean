import CosmeticFilter.Text.Category
import CosmeticFilter.XPath.Basic
import CosmeticFilter.XPath.Error

/-!
# Reading XPath expressions

A reader takes what it reads from the start of a text and returns the rest; where it stops, it
returns the cause and the text that it has not read. Blanks may stand between the parts of an
expression.

* `XPath.readJoined`: one or more parts with a word between neighbours, as in `p and q and r`;
* `XPath.readPredicate`: what stands between square brackets;
* `XPath.readStep`, `XPath.readPath`: steps and paths;
* `XPath.ofText`: a whole expression.
-/

namespace CosmeticFilter
namespace XPath

/-- Why a reader stops, and what it has not read. -/
structure Stop where
  /-- The cause. -/
  cause : Cause
  /-- The text from there on. -/
  unread : Text
  deriving DecidableEq, Repr

/-! ### Signs, names and numbers -/

/-- Reads a sign that has to stand here, behind blanks or not. -/
def readSign (sign : Text) (t : Text) : Except Stop Text :=
  match Text.dropLead? sign (Text.trimStart t) with
  | some rest => .ok rest
  | none => .error ⟨.expected sign, Text.trimStart t⟩

/-- The character may stand in a name. -/
def isNameChar (c : Char) : Bool := Text.isAlphanumeric c || c == '-' || c == '_' || c == '.'

/-- Cuts a name from what follows it. Two full stops in a row are a step, not a part of a name. -/
def takeName : Text → Text × Text
  | [] => ([], [])
  | c :: r =>
    if isNameChar c && !(c == '.' && r.head? == some '.') then Text.onto c (takeName r)
    else ([], c :: r)

/-- Numbers are below this bound. -/
def numberLimit : Nat := UInt64.size

/-- Reads digits: their value, unless there are none or it is too great, and what follows them. -/
def takeNumber (t : Text) : Option Nat × Text :=
  let digits := t.takeWhile Char.isDigit
  ((Text.readNat? digits).filter (· < numberLimit), t.dropWhile Char.isDigit)

/-- Reads a word such as `and`; only a blank, an opening bracket, `@` or a full stop may follow
it. -/
def dropWord? (word t : Text) : Option Text :=
  (Text.dropLead? word t).filter fun rest =>
    rest.head?.all fun c => Text.isBlank c || c == '(' || c == '@' || c == '.'

/-- Reads one or more parts that are joined by a word. -/
def readJoined {α : Type} (word : Text) (part : Text → Except Stop (α × Text)) (t : Text) :
    Except Stop ((α × List α) × Text) :=
  match part t with
  | .error e => .error e
  | .ok (x, rest) =>
    match dropWord? word (Text.trimStart rest) with
    | none => .ok ((x, []), Text.trimStart rest)
    | some r =>
      if r.length < t.length then
        (readJoined word part r).map fun more => ((x, more.1.1 :: more.1.2), more.2)
      else .error ⟨.unsupported, r⟩
termination_by t.length

/-! ### Predicates -/

/-- Reads a comparison, if one stands here. -/
def takeRelation (t : Text) : Option Relation × Text :=
  match Text.trimStart t with
  | '!' :: '=' :: r => (some .ne, r)
  | '<' :: '=' :: r => (some .le, r)
  | '>' :: '=' :: r => (some .ge, r)
  | '=' :: r => (some .eq, r)
  | '<' :: r => (some .lt, r)
  | '>' :: r => (some .gt, r)
  | r => (none, r)

/-- Reads a string after its first quote. -/
def readLiteral (quote : Char) (t : Text) : Except Stop (Operand × Text) :=
  match Text.cutFirst (· == quote) t with
  | some (literal, rest) => .ok (.literal literal, rest)
  | none => .error ⟨.openLiteral, []⟩

/-- Reads a number as a string. -/
def readNumeral (t : Text) : Except Stop (Operand × Text) :=
  match takeNumber t with
  | (some n, rest) => .ok (.literal (Text.ofNat n), rest)
  | (none, rest) => .error ⟨.unsupported, rest⟩

/-- Reads the name of an attribute after `@`. -/
def readAttribute (t : Text) : Except Stop (Operand × Text) :=
  match takeName t with
  | ([], rest) => .error ⟨.noAttributeName, rest⟩
  | (name, rest) => .ok (.attribute name, rest)

/-- Reads an operand. -/
def readOperand (t : Text) : Except Stop (Operand × Text) :=
  let s := Text.trimStart t
  match s with
  | '@' :: r => readAttribute r
  | _ =>
    match Text.dropLead? "text()".toList s with
    | some r => .ok (.text, r)
    | none =>
      match Text.dropLead? "string()".toList s with
      | some r => .ok (.context, r)
      | none =>
        match s with
        | '.' :: r => .ok (.context, r)
        | '"' :: r => readLiteral '"' r
        | '\'' :: r => readLiteral '\'' r
        | r => readNumeral r

/-- Reads what follows `position()`. -/
def readPosition (t : Text) : Except Stop (Predicate × Text) :=
  match takeRelation t with
  | (none, rest) => .error ⟨.noComparison, rest⟩
  | (some relation, rest) =>
    match takeNumber (Text.trimStart rest) with
    | (some n, rest') => .ok (.position relation n, rest')
    | (none, rest') => .error ⟨.noNumber, rest'⟩

/-- Reads two operands with a comma between them and a closing bracket behind. -/
def readPair (make : Operand → Operand → Predicate) (t : Text) :
    Except Stop (Predicate × Text) := do
  let (first, afterFirst) ← readOperand t
  let afterComma ← readSign [','] afterFirst
  let (second, afterSecond) ← readOperand afterComma
  let rest ← readSign [')'] afterSecond
  return (make first second, rest)

/-- Reads an operand that stands alone or is compared with another. -/
def readComparison (t : Text) : Except Stop (Predicate × Text) := do
  let (left, afterLeft) ← readOperand t
  match takeRelation afterLeft with
  | (none, rest) => return (.present left, rest)
  | (some relation, afterSign) =>
    if relation = .eq ∨ relation = .ne then
      let (right, rest) ← readOperand afterSign
      return (.compare left (relation == .eq) right, rest)
    else throw ⟨.orderOfStrings, afterSign⟩

/-- Reads a condition that is not joined to others. `inner` reads what stands in brackets. -/
def readCondition (inner : Text → Except Stop (Predicate × Text)) (t : Text) :
    Except Stop (Predicate × Text) :=
  let s := Text.trimStart t
  match Text.dropLead? "(".toList s with
  | some r => do
    let (p, afterInner) ← inner r
    let rest ← readSign [')'] afterInner
    return (p, rest)
  | none =>
    match Text.dropLead? "not(".toList s with
    | some r => do
      let (p, afterInner) ← inner r
      let rest ← readSign [')'] afterInner
      return (.not p, rest)
    | none =>
      match Text.dropLead? "last()".toList s with
      | some r => .ok (.last, r)
      | none =>
        match Text.dropLead? "position()".toList s with
        | some r => readPosition r
        | none =>
          match Text.dropLead? "contains(".toList s with
          | some r => readPair .contains r
          | none =>
            match Text.dropLead? "starts-with(".toList s with
            | some r => readPair .startsWith r
            | none => readComparison s

/-- Reads conditions joined by `and`. -/
def readConjunction (inner : Text → Except Stop (Predicate × Text)) (t : Text) :
    Except Stop (Predicate × Text) :=
  (readJoined "and".toList (readCondition inner) t).map fun (ps, rest) =>
    (ps.2.foldl .and ps.1, rest)

/-- Reads conditions joined by `and` and `or`, in which brackets nest less than `depth` deep. -/
def readDisjunction : Nat → Text → Except Stop (Predicate × Text)
  | 0, t => .error ⟨.unsupported, t⟩
  | depth + 1, t =>
    (readJoined "or".toList (readConjunction (readDisjunction depth)) t).map fun (ps, rest) =>
      (ps.2.foldl .or ps.1, rest)

/-- Reads what stands between square brackets: a number alone is a position, and anything else a
condition. A number that is too great is passed over. -/
def readPredicate (t : Text) : Except Stop (Predicate × Text) :=
  let s := Text.trimStart t
  let number := takeNumber s
  let condition (r : Text) : Except Stop (Predicate × Text) := readDisjunction (r.length + 1) r
  match number.1 with
  | some n =>
    let rest := Text.trimStart number.2
    if rest.head? = some ']' then .ok (.position .eq n, rest) else condition s
  | none => condition number.2

/-! ### Steps and paths -/

/-- Reads the predicates of a step. -/
def readPredicates (t : Text) : Except Stop (List Predicate × Text) :=
  match Text.trimStart t with
  | '[' :: r => do
    let (p, afterPredicate) ← readPredicate r
    let rest ← readSign [']'] afterPredicate
    if rest.length < t.length then
      let (ps, rest') ← readPredicates rest
      return (p :: ps, rest')
    else throw ⟨.unsupported, rest⟩
  | r => .ok ([], r)
termination_by t.length

/-- The node test that a name stands for, in front of the rest of the text. -/
def readNodeTest (name t : Text) : Except Stop (NodeTest × Text) :=
  if name = [] then .error ⟨.noNodeTest, t⟩
  else match t with
    | '(' :: r =>
      if name = "node".toList then (readSign [')'] r).map fun rest => (.node, rest)
      else if name = "text".toList then (readSign [')'] r).map fun rest => (.text, rest)
      else .error ⟨.unsupportedNodeTest name, t⟩
    | _ => .ok (.name name, t)

/-- Reads the node test after an axis. -/
def readTestOnAxis (t : Text) : Except Stop (NodeTest × Text) :=
  match t with
  | '*' :: r => .ok (.anyElement, r)
  | _ => readNodeTest (takeName t).1 (takeName t).2

/-- Reads an axis and a node test; without an axis, the children are meant. -/
def readAxisAndTest (t : Text) : Except Stop ((Axis × NodeTest) × Text) :=
  match t with
  | '*' :: r => .ok ((.child, .anyElement), r)
  | _ =>
    let name := takeName t
    match Text.dropLead? "::".toList name.2 with
    | none => (readNodeTest name.1 name.2).map fun (test, rest) => ((.child, test), rest)
    | some r =>
      match Axis.ofText? name.1 with
      | none => .error ⟨.unsupportedAxis name.1, r⟩
      | some axis => (readTestOnAxis r).map fun (test, rest) => ((axis, test), rest)

/-- Reads a step. -/
def readStep (t : Text) : Except Stop (Step × Text) :=
  match Text.trimStart t with
  | '.' :: '.' :: r => .ok (.toParent, r)
  | '.' :: r => .ok (.toSelf, r)
  | '@' :: r => .error ⟨.attributeStep, '@' :: r⟩
  | s => do
    let ((axis, test), afterTest) ← readAxisAndTest s
    let (predicates, rest) ← readPredicates afterTest
    return (⟨axis, test, predicates⟩, rest)

/-- Reads one or more steps with slashes between neighbours. -/
def readSteps (t : Text) : Except Stop (List Step × Text) :=
  match readStep t with
  | .error e => .error e
  | .ok (step, rest) =>
    let further (r : Text) (_shorter : r.length < t.length) (before : List Step) :
        Except Stop (List Step × Text) :=
      (readSteps r).map fun more => (before ++ more.1, more.2)
    match Text.trimStart rest with
    | '/' :: '/' :: r =>
      if h : r.length < t.length then further r h [step, .toAllBelow]
      else .error ⟨.unsupported, r⟩
    | '/' :: r =>
      if h : r.length < t.length then further r h [step] else .error ⟨.unsupported, r⟩
    | r => .ok ([step], r)
termination_by t.length

/-- Reads a location path. A slash alone stands for the document. -/
def readPath (t : Text) : Except Stop (LocationPath × Text) :=
  match Text.trimStart t with
  | '/' :: '/' :: r =>
    (readSteps r).map fun (steps, rest) => (⟨true, .toAllBelow :: steps⟩, rest)
  | '/' :: r =>
    let s := Text.trimStart r
    if s.head?.all (· == '|') then .ok (⟨true, []⟩, s)
    else (readSteps s).map fun (steps, rest) => (⟨true, steps⟩, rest)
  | s => (readSteps s).map fun (steps, rest) => (⟨false, steps⟩, rest)

/-- Reads one or more paths with `|` between neighbours, to the end of the text. -/
def readPaths (t : Text) : Except Stop (List LocationPath) :=
  match readPath t with
  | .error e => .error e
  | .ok (path, rest) =>
    match Text.trimStart rest with
    | [] => .ok [path]
    | c :: r =>
      if c = '|' ∧ r.length < t.length then (readPaths r).map (path :: ·)
      else .error ⟨.trailingInput, c :: r⟩
termination_by t.length

/-- The expression that a whole text writes. -/
def ofText (t : Text) : Except Error XPath :=
  match readPaths t with
  | .ok paths => .ok ⟨paths⟩
  | .error e => .error ⟨e.cause, t.length - e.unread.length⟩

end XPath
end CosmeticFilter
