import CosmeticFilter.Css.Reader
import CosmeticFilter.Extended.Basic
import CosmeticFilter.Extended.Error
import CosmeticFilter.Extended.Piece

/-!
# Reading extended selectors

A selector is built piece by piece. Native text is pending until an extended pseudo-class or the end
of the branch cuts it into a fragment; a text argument is compiled to see that it is good, and a
selector argument is read by the same rules within a narrower scope.

* `Scope`: where a list of branches stands, and so which pseudo-classes it may hold;
* `Draft`: a branch that is being built;
* `Draft.addExtended`: adds a pseudo-class; the rules on where it may stand are in
  `Draft.checkPlacement`;
* `readBranches`, `Selector.ofText`: reading.

Besides `:name(argument)` there is the form `[-ext-name="argument"]`, which means the same.
-/

namespace CosmeticFilter
namespace Extended

/-- Where a list of branches stands. -/
structure Scope where
  /-- Inside an argument of `:has()` or an alias, at any depth. -/
  inHas : Bool
  /-- Inside any argument. -/
  isArgument : Bool
  /-- A branch may start with a combinator. -/
  mayLead : Bool
  deriving DecidableEq, Repr

namespace Scope

/-- Outside of all arguments. -/
def top : Scope := ⟨false, false, false⟩

/-- Inside the argument of a pseudo-class. -/
def inside (s : Scope) (name : Name) : Scope :=
  if name.isHasFamily then ⟨true, true, true⟩ else ⟨s.inHas, true, false⟩

end Scope

/-- A branch that is being built. -/
structure Draft where
  /-- The nodes, first to last. -/
  nodes : List Node
  /-- Native text that is not a fragment yet. -/
  pending : Text
  /-- A pseudo-element has been read. -/
  afterElement : Bool
  deriving DecidableEq, Repr

namespace Draft

/-- Nothing has been read. -/
def empty : Draft := ⟨[], [], false⟩

/-- Adds native text. -/
def write (d : Draft) (t : Text) : Draft := { d with pending := d.pending ++ t }

/-- Adds a blank, unless one stands here already or the branch would start with it. -/
def writeSpace (d : Draft) : Draft :=
  if (d.pending.isEmpty && d.nodes.isEmpty) || d.pending.getLast? == some ' ' then d
  else d.write [' ']

/-- The branch has a pseudo-class with this name. -/
def has (d : Draft) (name : Name) : Bool := d.nodes.any fun n => n.name? == some name

/-- Adds a fragment and leaves nothing pending. The fragment has to be a native selector, and the
first one may start with a combinator only within `:has()`. -/
def addFragment (s : Scope) (d : Draft) (t : Text) : Except Cause Draft :=
  let trimmed := Text.trim t
  if d.nodes.isEmpty && !s.mayLead && trimmed.head?.any Css.isCombinator then
    .error .danglingCombinator
  else match Css.Selector.ofText trimmed with
    | .error cause => .error (.invalidFragment trimmed cause)
    | .ok _ => .ok { d with nodes := d.nodes ++ [.fragment t], pending := [] }

/-- The pending text calls for an element that is not named: after a blank or a combinator. -/
def isOpenEnded (t : Text) : Bool := t.getLast?.any fun c => c == ' ' || Css.isCombinator c

/-- Cuts the pending text in front of a pseudo-class. Where no element is named, any is meant. -/
def cutBeforeExtended (s : Scope) (d : Draft) : Except Cause Draft :=
  let text :=
    if (d.nodes.isEmpty && d.pending.isEmpty) || isOpenEnded d.pending then d.pending ++ ['*']
    else d.pending
  if text = [] then .ok d else d.addFragment s text

/-- Cuts the pending text at the end of a branch. -/
def cutAtEnd (s : Scope) (d : Draft) : Except Cause Draft :=
  let text := Text.trimEnd d.pending
  if text = [] then .ok { d with pending := [] }
  else if d.has .remove then .error (.misplaced .removeNotLast)
  else if d.has .xpath then .error (.misplaced .xpathNotLast)
  else d.addFragment s text

/-- The pseudo-class may stand here. -/
def checkPlacement (s : Scope) (d : Draft) (name : Name) : Except Cause Unit :=
  if d.afterElement && name.isScoped then .error (.misplaced .afterElement)
  else if d.has .remove then .error (.misplaced .removeNotLast)
  else if d.has .xpath && name != .remove then .error (.misplaced .xpathNotLast)
  else if name == .remove && s.isArgument then .error (.misplaced .removeInsideArgument)
  else if s.inHas && name.isHasFamily then .error (.misplaced .hasInsideHas)
  else if s.inHas && name.isIsFamily then .error (.misplaced .isInsideHas)
  else .ok ()

/-- The node of a pseudo-class. `inner` reads the branches of an argument. -/
def nodeOf (inner : Scope → Text → Except Cause (List (List Node))) (s : Scope) (name : Name)
    (argument : Text) : Except Cause Node :=
  match name.argumentKind argument with
  | .absolute =>
    match Condition.compile name argument with
    | .ok _ => .ok (.textual name argument)
    | .error e => .error (.invalidArgument e)
  | .relative => (inner (s.inside name) argument).map (.nested name)

/-- Adds a pseudo-class with its argument. -/
def addExtended (inner : Scope → Text → Except Cause (List (List Node))) (s : Scope) (d : Draft)
    (name : Name) (argument : Text) : Except Cause Draft := do
  d.checkPlacement s name
  if name.requiresArgument && Text.isAllBlank argument then throw (.missingArgument name)
  let cut ← d.cutBeforeExtended s
  let node ← nodeOf inner s name argument
  return { cut with nodes := cut.nodes ++ [node] }

/-! ### Pieces -/

/-- What the attribute form of an extended pseudo-class starts with. -/
def attributeLead : Text := "-ext-".toList

/-- What stands behind `-ext-` in an attribute selector. -/
def extendedBody? (content : Text) : Option Text :=
  let trimmed := Text.trim content
  if Text.sameIgnoringCase (trimmed.take attributeLead.length) attributeLead then
    some (trimmed.drop attributeLead.length)
  else none

/-- The name and the value in `name=value`; without an equals sign the value is empty. -/
def nameAndValue (body : Text) : Text × Text :=
  ((Text.cutFirst (· == '=') body).map fun (n, v) => (Text.trim n, Text.trim v)).getD
    (Text.trim body, [])

/-- A value without quotes around it; inside, an escaped quote is the quote. -/
def unquote (value : Text) : Text :=
  match Text.stripQuotes? value, value.head? with
  | some inner, some quote => Text.dropEscapes quote inner
  | _, _ => value

/-- Adds an attribute selector, which may be an extended pseudo-class in disguise. -/
def addAttribute (inner : Scope → Text → Except Cause (List (List Node))) (s : Scope) (d : Draft)
    (content : Text) : Except Cause Draft :=
  match extendedBody? content with
  | none => .ok (d.write ('[' :: content ++ [']']))
  | some body =>
    match Name.ofText? (nameAndValue body).1 with
    | none => .error (.unknownPseudoClass (attributeLead ++ (nameAndValue body).1))
    | some name =>
      d.addExtended inner s name
        (if name = .remove then [] else unquote (nameAndValue body).2)

/-- Adds the argument of a native pseudo-class or of a pseudo-element. -/
def writeArgument (d : Draft) : Argument → Except Cause Draft
  | .absent => .ok d
  | .unclosed => .error .unbalanced
  | .given content => .ok (d.write ('(' :: content ++ [')']))

/-- Adds a pseudo-class, extended or native. -/
def addPseudoClass (inner : Scope → Text → Except Cause (List (List Node))) (s : Scope) (d : Draft)
    (name : Text) (argument : Argument) : Except Cause Draft :=
  match Name.ofText? name with
  | some n =>
    match argument with
    | .unclosed => .error .unbalanced
    | .absent => d.addExtended inner s n []
    | .given content => d.addExtended inner s n content
  | none =>
    if Css.isPseudoClass name then
      { d.write (':' :: name) with
        afterElement := d.afterElement || Css.isLegacyPseudoElement name }.writeArgument argument
    else .error (.unknownPseudoClass name)

/-- The openings of the scoped pseudo-classes, which an argument of a pseudo-element may not
have. -/
def scopedOpenings : List Text :=
  [":has(".toList, ":is(".toList, ":where(".toList, ":-abp-has(".toList, ":if(".toList,
    ":if-not(".toList]

/-- The text has a scoped pseudo-class in it. -/
def holdsScoped (t : Text) : Bool := scopedOpenings.any fun o => Text.occursIn o (Text.lower t)

/-- Adds a pseudo-element. -/
def addPseudoElement (d : Draft) (name : Text) (argument : Argument) : Except Cause Draft :=
  let written : Draft := { d.write (':' :: ':' :: name) with afterElement := true }
  match argument with
  | .given content =>
    if holdsScoped content then .error (.misplaced .insideElementArgument)
    else written.writeArgument (.given content)
  | argument => written.writeArgument argument

end Draft

/-- What has been built of a list of branches. -/
structure Progress where
  /-- The branches that are complete. -/
  branches : List (List Node)
  /-- The branch that is not. -/
  draft : Draft
  deriving DecidableEq, Repr

namespace Progress

/-- Nothing has been read. -/
def start : Progress := ⟨[], .empty⟩

/-- Completes the branch. -/
def endBranch (s : Scope) (p : Progress) : Except Cause (List (List Node)) :=
  match p.draft.cutAtEnd s with
  | .error e => .error e
  | .ok d => if d.nodes.isEmpty then .error .empty else .ok (p.branches ++ [d.nodes])

/-- Reads one piece. -/
def step (inner : Scope → Text → Except Cause (List (List Node))) (s : Scope) (p : Progress) :
    Piece → Except Cause Progress
  | .verbatim t => .ok ⟨p.branches, p.draft.write t⟩
  | .space => .ok ⟨p.branches, p.draft.writeSpace⟩
  | .comma => (p.endBranch s).map fun branches => ⟨branches, .empty⟩
  | .pseudoClass name argument =>
    (p.draft.addPseudoClass inner s name argument).map fun d => ⟨p.branches, d⟩
  | .pseudoElement name argument =>
    (p.draft.addPseudoElement name argument).map fun d => ⟨p.branches, d⟩
  | .attributeTest content =>
    (p.draft.addAttribute inner s content).map fun d => ⟨p.branches, d⟩
  | .unbalanced => .error .unbalanced
  | .unclosedQuote quote => .error (.unclosedQuote quote)

end Progress

/-- Reads a list of branches in which arguments nest less than `depth` deep. -/
def readBranches : Nat → Scope → Text → Except Cause (List (List Node))
  | 0, _, _ => .error .unbalanced
  | depth + 1, s, t =>
    match (pieces t).foldlM (Progress.step (readBranches depth) s) .start with
    | .error e => .error e
    | .ok p => p.endBranch s

/-- Reads a selector. Arguments are shorter than what they stand in, so the length of the text
bounds how deep they nest. -/
def Selector.ofText (t : Text) : Except Error Selector :=
  match readBranches (t.length + 1) .top t with
  | .ok branches => .ok ⟨branches⟩
  | .error cause => .error ⟨t, cause⟩

end Extended
end CosmeticFilter
