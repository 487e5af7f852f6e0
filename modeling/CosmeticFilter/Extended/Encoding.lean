import CosmeticFilter.Extended.Basic
import CosmeticFilter.Json.Basic

/-!
# Extended selectors as JSON

A selector is written as an object that lists its branches, a branch as an object that lists its
nodes, and a node as an object that says of which kind it is. The fields stand in a fixed order.

* `Selector.toJson`: the JSON value of a selector.
-/

namespace CosmeticFilter
namespace Extended

mutual

/-- The JSON value of a node. -/
def Node.toJson : Node → Json
  | .fragment t => .object [("type".toList, .string "regular".toList), ("text".toList, .string t)]
  | .textual name argument =>
    .object [("type".toList, .string "extended".toList), ("kind".toList, .string "absolute".toList),
      ("name".toList, .string name.text), ("raw_arg".toList, .string argument)]
  | .nested name branches =>
    .object [("type".toList, .string "extended".toList), ("kind".toList, .string "relative".toList),
      ("name".toList, .string name.text),
      ("argument".toList, .object [("selectors".toList, .array (Node.branchesToJson branches))])]

/-- The JSON values of the nodes of a branch. -/
def Node.branchToJson : List Node → List Json
  | [] => []
  | n :: r => Node.toJson n :: Node.branchToJson r

/-- The JSON values of branches. -/
def Node.branchesToJson : List (List Node) → List Json
  | [] => []
  | b :: r =>
    .object [("nodes".toList, .array (Node.branchToJson b))] :: Node.branchesToJson r

end

/-- The JSON value of a selector. -/
def Selector.toJson (s : Selector) : Json :=
  .object [("selectors".toList, .array (Node.branchesToJson s.branches))]

end Extended
end CosmeticFilter
