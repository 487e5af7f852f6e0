import CosmeticFilter.Document.Traversal

/-!
# Descriptions of nodes

An element is described by its tag name, id and classes, as in `div#main.box.wide`, and its place by
the descriptions of the elements above it.

* `Document.describe`: the description of a node;
* `Document.path`: the descriptions from the document element down to a node.
-/

namespace CosmeticFilter

/-- The classes in order, each once. -/
def Element.sortedClasses (e : Element) : List Text := e.classes.eraseDups.mergeSort Text.le

/-- The tag name in small letters, the id behind `#`, and each class behind a full stop. -/
def Element.describe (e : Element) : Text :=
  Text.lower e.tag ++ ((e.id?.map fun id => '#' :: id).getD []) ++
    e.sortedClasses.flatMap fun c => '.' :: c

namespace Document

/-- The description of an element, or the kind of any other node. -/
def describe (d : Document) (n : Nat) : Text :=
  match d.content? n with
  | some (.element e) => e.describe
  | some .document => "#document".toList
  | some (.text _) => "#text".toList
  | some (.comment _) => "#comment".toList
  | none => "#invalid".toList

/-- The descriptions of the elements above a node, outermost first, and of the node itself. -/
def path (d : Document) (n : Nat) : Text :=
  Text.join " > ".toList
    ((((d.ancestors n).filter d.isElement).reverse ++ [n]).map d.describe)

end Document
end CosmeticFilter
