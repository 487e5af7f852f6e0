import CosmeticFilter.Command.Basic
import CosmeticFilter.Document.Description
import CosmeticFilter.Document.Fixture
import CosmeticFilter.Json.Printer
import CosmeticFilter.Query.Evaluation
import CosmeticFilter.StyleSheet.Compiler
import CosmeticFilter.StyleSheet.Encoding

/-!
# Running commands

What each command writes, as a function of its arguments and of the file that it reads. Results go
to standard output, and summaries, warnings and errors to standard error, with colours.

* `Command.run`: the output of a command;
* `Command.outputOf`: the output of the program.
-/

namespace CosmeticFilter
namespace Command

/-! ### Colours and lines -/

/-- A text between two control sequences. -/
def styled (on off : String) (t : Text) : Text := on.toList ++ t ++ off.toList

/-- A text in red. -/
def red (t : Text) : Text := styled "\x1b[31m" "\x1b[39m" t

/-- A text in green. -/
def green (t : Text) : Text := styled "\x1b[32m" "\x1b[39m" t

/-- A text in yellow. -/
def yellow (t : Text) : Text := styled "\x1b[33m" "\x1b[39m" t

/-- A text in a dim colour. -/
def dimmed (t : Text) : Text := styled "\x1b[2m" "\x1b[0m" t

/-- A text as a line. -/
def line (t : Text) : Text := t ++ ['\n']

/-- Each line of a text, indented by four blanks. -/
def indented (t : Text) : Text := "    ".toList ++ t.flatMap fun c =>
  if c = '\n' then "\n    ".toList else [c]

/-- The report of a failure and perhaps its cause. -/
def failure (context : Text) (cause : Option Text) : Text :=
  let because := (cause.map fun c => "\n\nCaused by:\n".toList ++ indented c).getD []
  line ("Error: ".toList ++ context ++ because)

/-- The output of a command that fails. -/
def failed (context : Text) (cause : Option Text) : Output := ⟨1, [], failure context cause⟩

/-- A summary. -/
def summary (t : Text) : Text := line (dimmed "===".toList ++ ' ' :: t)

/-! ### The three commands -/

/-- A warning as a line. -/
def warningLine (w : Text) : Text :=
  line (yellow ("[extcss ".toList ++ StyleSheet.Compiler.component ++ "] ⚠ ".toList ++ w))

/-- What is written about a compiled style sheet: its rules, its warnings, each once, and how many
there are of both. -/
def compiledOutput (c : StyleSheet.Compiled) : Output :=
  let counts := Text.ofNat c.rules.length ++ " rules, ".toList ++ Text.ofNat c.warnings.length ++
    " skipped".toList ++ if c.debugsAll then ", global debug".toList else []
  ⟨0, line (Json.pretty (.array (c.rules.map StyleSheet.RuleData.toJson))),
    c.warnings.eraseDups.flatMap warningLine ++ summary counts⟩

/-- Compiles a style sheet. -/
def runParse (keepsContent : Bool) (content : Text) : Output :=
  compiledOutput ((StyleSheet.Compiler.ofOptions ⟨keepsContent, false⟩).compile [content]).1

/-- Reads a selector. -/
def runCheck (selector : Text) : Output :=
  match Extended.Selector.ofText selector with
  | .ok s =>
    ⟨0, line (green "✓".toList ++ ' ' :: s.text) ++ line (Json.pretty s.toJson), []⟩
  | .error e =>
    ⟨1, [], line (red "✗".toList ++ ' ' :: e.message) ++ failure "invalid selector".toList none⟩

/-- Runs a selector on a document, or says why that fails. -/
def runSelector (p : Page) (selector : Text) : Except Text (List Nat) :=
  match Extended.Selector.ofText selector with
  | .error e => .error e.message
  | .ok s =>
    match Query.all p s with
    | .error e => .error e.message
    | .ok found => .ok found

/-- Runs a selector on the document in a file. -/
def runQuery (file selector content : Text) : Output :=
  match Fixture.ofText? content with
  | none => failed ("failed to load ".toList ++ file) (some "invalid DOM fixture".toList)
  | some f =>
    let p := Page.ofDocument (.ofFixture f)
    match runSelector p selector with
    | .error cause =>
      failed ("query ".toList ++ Text.ticked selector ++ " failed".toList) (some cause)
    | .ok found =>
      ⟨0, found.flatMap fun n => line (p.document.path n),
        summary (Text.ofNat found.length ++ " matches".toList)⟩

/-- The output of a command, given what the file that it reads holds; `none` if there is no such
file. -/
def run (c : Command) (content : Option Text) : Output :=
  match c, content with
  | check selector, _ => runCheck selector
  | parse _ keepsContent, some t => runParse keepsContent t
  | query file selector, some t => runQuery file selector t
  | parse file _, none => missing file
  | query file _, none => missing file
where
  /-- The output of a command whose file is missing. -/
  missing (file : Text) : Output :=
    failed ("failed to read ".toList ++ file)
      (some "No such file or directory (os error 2)".toList)

/-- What is written if the arguments are no command. -/
def usage : Output :=
  ⟨2, [], line
    "usage: parse FILE [--keep-content] | check SELECTOR | query --dom FILE SELECTOR".toList⟩

/-- The output of the program, given its arguments and the files there are. -/
def outputOf (arguments : List Text) (file? : Text → Option Text) : Output :=
  match ofArguments? arguments with
  | none => usage
  | some c => c.run (c.file?.bind file?)

end Command
end CosmeticFilter
