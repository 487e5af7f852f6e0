import CosmeticFilter.StyleSheet.Rule

/-!
# Merging rules

Rules with the same selector become one. Its properties stand in the order in which they were first
declared, each with the value that was declared last. A removal discards all other properties, apart
from `content` if that is asked for. The property `debug` is no style: it says that the rule, or
every rule, is to be watched.

* `Entry`, `add`: what is known of a selector, and how a rule adds to it;
* `RuleData`, `Entry.finish`: what a selector comes to in the end.
-/

namespace CosmeticFilter
namespace StyleSheet

/-- What is known of a selector. -/
structure Entry where
  /-- The normal form of the selector. -/
  selector : Text
  /-- The selector, as the first rule has it. -/
  tree : Extended.Selector
  /-- The declarations, each property once. -/
  declarations : List Declaration
  /-- One of the rules had the removal mark. -/
  isRemoval : Bool
  deriving DecidableEq, Repr

/-- Sets a property, in the place where it was first set. -/
def setProperty (d : Declaration) : List Declaration → List Declaration
  | [] => [d]
  | e :: r => if e.property = d.property then d :: r else e :: setProperty d r

/-- Sets properties one after the other. -/
def setProperties (ds new : List Declaration) : List Declaration :=
  new.foldl (fun ds d => setProperty d ds) ds

/-- The entry of a rule alone. -/
def Entry.ofRule (r : Rule) : Entry :=
  ⟨r.selector, r.tree, setProperties [] r.declarations, r.isRemoval⟩

/-- Adds what a rule with the same selector declares. -/
def Entry.extend (e : Entry) (r : Rule) : Entry :=
  { e with
    declarations := setProperties e.declarations r.declarations
    isRemoval := e.isRemoval || r.isRemoval }

/-- Adds a rule to the entries, which stand in the order of the first rules. -/
def add (r : Rule) : List Entry → List Entry
  | [] => [.ofRule r]
  | e :: es => if e.selector = r.selector then e.extend r :: es else e :: add r es

/-- The entries of rules. -/
def merge (rules : List Rule) : List Entry := rules.foldl (fun es r => add r es) []

/-- Which rules are watched. -/
inductive DebugMode where
  /-- The rule itself. -/
  | rule
  /-- Every rule. -/
  | all
  deriving DecidableEq, Repr

/-- The value of `debug` that stands for a mode. -/
def DebugMode.text : DebugMode → Text
  | rule => "true".toList
  | all => "global".toList

/-- What a style sheet says about a selector. -/
structure RuleData where
  /-- The normal form of the selector. -/
  selector : Text
  /-- The selector. -/
  tree : Extended.Selector
  /-- The style; a removal is the property `remove` alone, or with `content`. -/
  style : Option (List Declaration)
  /-- Which rules are watched. -/
  debug : Option DebugMode
  deriving DecidableEq, Repr

/-- How style sheets are compiled. -/
structure Options where
  /-- A removal keeps the property `content`. -/
  keepsContent : Bool
  /-- Skipped rules are also reported as warnings. -/
  reportsWarnings : Bool
  deriving DecidableEq, Repr

/-- A removal discards all properties, and warnings are reported. -/
def Options.default : Options := ⟨false, true⟩

/-- The value of a property. -/
def valueOf? (ds : List Declaration) (property : Text) : Option Text :=
  (ds.find? fun d => d.property == property).map Declaration.value

/-- The declarations of all other properties. -/
def without (ds : List Declaration) (property : Text) : List Declaration :=
  ds.filter fun d => d.property != property

/-- The mode that the value of `debug` stands for. -/
def debugOf? (value : Text) : Option DebugMode :=
  if Text.trim value = "true".toList then some .rule
  else if Text.trim value = "global".toList then some .all
  else none

namespace Entry

/-- The elements are removed: by the mark, or by the property `remove`. -/
def removes (e : Entry) : Bool :=
  e.isRemoval ||
    (valueOf? e.declarations "remove".toList).any fun v => Text.trim v == "true".toList

/-- The style of a removal. -/
def removalStyle (options : Options) (e : Entry) : List Declaration :=
  ⟨"remove".toList, "true".toList⟩ ::
    (if options.keepsContent then e.declarations.filter fun d => d.property == "content".toList
      else [])

/-- The style of a selector whose elements stay. -/
def plainStyle (e : Entry) : List Declaration :=
  without (without e.declarations "debug".toList) "remove".toList

/-- What the selector comes to. -/
def finish (options : Options) (e : Entry) : RuleData where
  selector := e.selector
  tree := e.tree
  style :=
    if e.removes then some (e.removalStyle options)
    else if e.plainStyle.isEmpty then none
    else some e.plainStyle
  debug := (valueOf? e.declarations "debug".toList).bind debugOf?

end Entry
end StyleSheet
end CosmeticFilter
