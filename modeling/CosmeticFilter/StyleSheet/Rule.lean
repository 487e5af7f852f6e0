import CosmeticFilter.Extended.Cache
import CosmeticFilter.StyleSheet.Removal
import CosmeticFilter.StyleSheet.Split

/-!
# Rules

A rule is a selector with a declaration block. Where the block begins is not known, as a selector
may hold braces: the opening braces are tried from right to left, and the first one that leaves a
good selector and a good block decides. If none does, the error of the rightmost one counts. A rule
without any brace has to be a removal.

* `Rule`: a rule that has been read;
* `compileCandidate`: a rule whose block begins at a given brace;
* `compileRule`: reads a rule.
-/

namespace CosmeticFilter
namespace StyleSheet

/-- A rule that has been read. -/
structure Rule where
  /-- The normal form of its selector, without the removal mark. -/
  selector : Text
  /-- The selector. -/
  tree : Extended.Selector
  /-- The declarations of its block. -/
  declarations : List Declaration
  /-- The selector had the removal mark. -/
  isRemoval : Bool
  deriving DecidableEq, Repr

/-- Reads a selector. -/
def readSelector (cache : Extended.Cache) (t : Text) :
    Except Error Extended.Selector × Extended.Cache :=
  match cache.read t with
  | (.ok s, cache') => (.ok s, cache')
  | (.error e, cache') => (.error (.selector e), cache')

/-- The text without the closing brace at its end. -/
def dropBrace? (t : Text) : Option Text :=
  if t.getLast? = some '\x7d' then some t.dropLast else none

/-- The rule of a selector and a block that still has its closing brace. -/
def ruleOf (rule selector : Text) (marked : Bool) (tree : Extended.Selector) (block : Text) :
    Except Error Rule :=
  match dropBrace? block with
  | none => .error (.unclosedBlock rule)
  | some declarations =>
    let isRemoval := marked || tree.hasRemoval
    match Declaration.readBlock isRemoval declarations with
    | .error e => .error (.style e)
    | .ok ds => .ok ⟨Extended.normalForm selector, tree, ds, isRemoval⟩

/-- Reads a rule, given what stands before and after the brace that begins its block. -/
def compileCandidate (cache : Extended.Cache) (rule before after : Text) :
    Except Error Rule × Extended.Cache :=
  match stripRemoval before with
  | .error e => (.error e, cache)
  | .ok (selector, marked) =>
    if selector = [] then (.error (.noSelector rule), cache)
    else match readSelector cache selector with
      | (.error e, cache') => (.error e, cache')
      | (.ok tree, cache') => (ruleOf rule selector marked tree after, cache')

/-- Tries candidates one after the other. The first that succeeds counts, or else the first error;
nothing if there is no candidate. -/
def compileFirst (cache : Extended.Cache) (rule : Text) :
    List (Text × Text) → Option (Except Error Rule) × Extended.Cache
  | [] => (none, cache)
  | (before, after) :: r =>
    match compileCandidate cache rule before after with
    | (.ok compiled, cache') => (some (.ok compiled), cache')
    | (.error e, cache') =>
      match compileFirst cache' rule r with
      | (some (.ok compiled), cache'') => (some (.ok compiled), cache'')
      | (_, cache'') => (some (.error e), cache'')

/-- Reads a rule without a block, which has to be a removal. -/
def compileBare (cache : Extended.Cache) (rule : Text) : Except Error Rule × Extended.Cache :=
  match stripRemoval rule with
  | .error e => (.error e, cache)
  | .ok (selector, marked) =>
    match readSelector cache selector with
    | (.error e, cache') => (.error e, cache')
    | (.ok tree, cache') =>
      if marked || tree.hasRemoval then
        (.ok ⟨Extended.normalForm selector, tree, [], true⟩, cache')
      else (.error (.noStyle selector), cache')

/-- What rules may not hold: at-rules and comments. -/
def checkSupported (t : Text) : Except Error Unit :=
  if t.head? = some '@' then .error (.atRule t)
  else if hasComment t then .error (.comment t)
  else .ok ()

/-- Reads a rule. -/
def compileRule (cache : Extended.Cache) (t : Text) : Except Error Rule × Extended.Cache :=
  let rule := Text.trim t
  if rule = [] then (.error .empty, cache)
  else if rule.head? = some '\x7b' then (.error (.noSelector rule), cache)
  else match checkSupported rule with
    | .error e => (.error e, cache)
    | .ok () =>
      match compileFirst cache rule (braceSplits rule).reverse with
      | (some result, cache') => (result, cache')
      | (none, cache') => compileBare cache' rule

end StyleSheet
end CosmeticFilter
