import CosmeticFilter.StyleSheet.Merge
import CosmeticFilter.Warning.Log

/-!
# Compiling style sheets

A style sheet is compiled rule by rule. A rule that is refused is skipped and leaves a warning. The
compiler remembers the selectors that it has read and the warnings that it has given.

* `Compiled`: what a style sheet comes to;
* `Compiler.compile`: compiles texts as one style sheet;
* `Compiler.compileSingle`: compiles a text that has to be a single rule.
-/

namespace CosmeticFilter
namespace StyleSheet

/-- What a style sheet comes to. -/
structure Compiled where
  /-- The rules, in the order of their selectors' first rules. -/
  rules : List RuleData
  /-- What was skipped: each rule and why. -/
  warnings : List Text
  /-- Every rule is watched. -/
  debugsAll : Bool
  deriving DecidableEq, Repr

/-- A compiler and what it remembers. -/
structure Compiler where
  /-- How it compiles. -/
  options : Options
  /-- The selectors that have been read. -/
  cache : Extended.Cache
  /-- The warnings that have been given. -/
  log : WarningLog

namespace Compiler

/-- A compiler that remembers nothing. -/
def ofOptions (options : Options) : Compiler := ⟨options, .empty, .empty⟩

/-- Who gives the warnings. -/
def component : Text := "ExtCSS".toList

/-- What a skipped rule leaves. -/
def warningOf (rule : Text) (e : Error) : Text := rule ++ ": ".toList ++ e.message

/-- Reads rules one after the other: the good ones, and the warnings of the others. -/
def readAll (cache : Extended.Cache) : List Text → (List Rule × List Text) × Extended.Cache
  | [] => (([], []), cache)
  | t :: r =>
    match compileRule cache t with
    | (.ok rule, cache') =>
      let later := readAll cache' r
      ((rule :: later.1.1, later.1.2), later.2)
    | (.error e, cache') =>
      let later := readAll cache' r
      ((later.1.1, warningOf t e :: later.1.2), later.2)

/-- What rules come to. -/
def finish (options : Options) (rules : List Rule) (warnings : List Text) : Compiled :=
  let data := (merge rules).map (Entry.finish options)
  ⟨data, warnings, data.any fun d => d.debug == some .all⟩

/-- The log after the warnings have been given. -/
def report (options : Options) (log : WarningLog) (warnings : List Text) : WarningLog :=
  if options.reportsWarnings then warnings.foldl (fun l w => l.warn component w) log else log

/-- Compiles texts, each with any number of rules, as one style sheet. -/
def compile (c : Compiler) (texts : List Text) : Compiled × Compiler :=
  let read := readAll c.cache (texts.flatMap ruleTexts)
  (finish c.options read.1.1 read.1.2,
    ⟨c.options, read.2, report c.options c.log read.1.2⟩)

/-- Compiles a text that has to be a single rule. -/
def compileSingle (c : Compiler) (t : Text) : Except Error RuleData × Compiler :=
  match checkSupported (Text.trim t) with
  | .error e => (.error e, c)
  | .ok () =>
    match ruleTexts t with
    | [] => (.error .empty, c)
    | [rule] =>
      match compileRule c.cache rule with
      | (.ok compiled, cache) =>
        (.ok ((Entry.ofRule compiled).finish c.options), { c with cache := cache })
      | (.error e, cache) => (.error e, { c with cache := cache })
    | _ => (.error (.severalRules t), c)

end Compiler
end StyleSheet
end CosmeticFilter
