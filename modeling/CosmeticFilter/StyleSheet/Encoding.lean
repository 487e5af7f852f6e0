import CosmeticFilter.Extended.Encoding
import CosmeticFilter.StyleSheet.Merge

/-!
# Compiled rules as JSON

A rule is written as an object with its selector as text and as a tree, its style, and which rules
are watched. A style is an object from properties to values.

* `RuleData.toJson`: the JSON value of a rule.
-/

namespace CosmeticFilter
namespace StyleSheet

/-- The JSON value of a style. -/
def styleToJson (ds : List Declaration) : Json :=
  .object (ds.map fun d => (d.property, .string d.value))

/-- The JSON value of a rule. -/
def RuleData.toJson (r : RuleData) : Json :=
  .object [("selector".toList, .string r.selector), ("ast".toList, r.tree.toJson),
    ("style".toList, (r.style.map styleToJson).getD .null),
    ("debug".toList, (r.debug.map fun m => Json.string m.text).getD .null)]

end StyleSheet
end CosmeticFilter
