import CosmeticFilter.Text.Basic

/-!
# Commands

The program has three commands: `parse FILE [--keep-content]` compiles a style sheet, `check
SELECTOR` reads a selector, and `query --dom FILE SELECTOR` runs one on a document. Options may
stand before or after the other arguments, and nothing after `--` is an option.

* `Command`: the commands;
* `Command.ofArguments?`: reads the arguments of the program;
* `Output`: what a command writes, and its exit code.
-/

namespace CosmeticFilter

/-- A command. -/
inductive Command where
  /-- Compiles the style sheet in a file. -/
  | parse (file : Text) (keepsContent : Bool)
  /-- Reads a selector. -/
  | check (selector : Text)
  /-- Runs a selector on the document in a file. -/
  | query (file : Text) (selector : Text)
  deriving DecidableEq, Repr

/-- What a command writes and how it ends. -/
structure Output where
  /-- The exit code. -/
  code : Nat
  /-- The text on standard output. -/
  stdout : Text
  /-- The text on standard error. -/
  stderr : Text
  deriving DecidableEq, Repr

namespace Command

/-- Arguments sorted into options and others. -/
structure Arguments where
  /-- How often `--keep-content` is given. -/
  keepContent : Nat
  /-- The values of `--dom`. -/
  dom : List Text
  /-- All other arguments. -/
  others : List Text
  deriving DecidableEq, Repr

/-- Sorts arguments; `none` if an option is not known or lacks its value. -/
def sort? : List Text → Option Arguments
  | [] => some ⟨0, [], []⟩
  | a :: r =>
    if a = "--".toList then some ⟨0, [], r⟩
    else if a = "--keep-content".toList then
      (sort? r).map fun s => { s with keepContent := s.keepContent + 1 }
    else if a = "--dom".toList then
      match r with
      | [] => none
      | value :: r' => (sort? r').map fun s => { s with dom := value :: s.dom }
    else match Text.dropLead? "--dom=".toList a with
      | some value => (sort? r).map fun s => { s with dom := value :: s.dom }
      | none =>
        if a.head? = some '-' ∧ a ≠ ['-'] then none
        else (sort? r).map fun s => { s with others := a :: s.others }

/-- The command that a name and its arguments stand for. -/
def ofParts? (name : Text) (a : Arguments) : Option Command :=
  if name = "parse".toList then
    match a.others with
    | [file] =>
      if a.dom = [] ∧ a.keepContent ≤ 1 then some (parse file (a.keepContent == 1)) else none
    | _ => none
  else if name = "check".toList then
    match a.others with
    | [selector] => if a.dom = [] ∧ a.keepContent = 0 then some (check selector) else none
    | _ => none
  else if name = "query".toList then
    match a.dom, a.others with
    | [file], [selector] => if a.keepContent = 0 then some (query file selector) else none
    | _, _ => none
  else none

/-- The command that the arguments of the program stand for. -/
def ofArguments? : List Text → Option Command
  | [] => none
  | name :: r => (sort? r).bind (ofParts? name)

/-- The file that a command reads. -/
def file? : Command → Option Text
  | parse file _ => some file
  | check _ => none
  | query file _ => some file

end Command
end CosmeticFilter
