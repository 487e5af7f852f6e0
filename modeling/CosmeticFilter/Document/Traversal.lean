import CosmeticFilter.Document.Basic

/-!
# Walks through a document

From a node a walk goes up to its ancestors, along its siblings, or down to its descendants. Every
step up or to the left leads to a smaller number, and every other step to a greater one that the
document has, so each walk ends.

* `Document.ancestors`: parent, grandparent, and so on up to the document;
* `Document.preceding`, `Document.following`: siblings on either side, nearest first;
* `Document.walk`: a walk down with a stack;
* `Document.descendants`: all nodes below, a node before those below it;
* `Document.textContent`: the text below a node.
-/

namespace CosmeticFilter
namespace Document

/-- The nodes above, nearest first. -/
def ancestors (d : Document) (n : Nat) : List Nat :=
  match _parent : d.parent? n with
  | none => []
  | some p => p :: d.ancestors p
termination_by n
decreasing_by exact parent_lt _parent

/-- The siblings on the left, nearest first. -/
def preceding (d : Document) (n : Nat) : List Nat :=
  match _previous : d.previous? n with
  | none => []
  | some m => m :: d.preceding m
termination_by n
decreasing_by exact previous_lt _previous

/-- The siblings on the right, nearest first. -/
def following (d : Document) (n : Nat) : List Nat :=
  match _next : d.next? n with
  | none => []
  | some m => m :: d.following m
termination_by d.size - n
decreasing_by
  have := next_gt _next
  omega

/-- The nodes below, as the tree has them: each child, and then the nodes below it. -/
def below (d : Document) (n : Nat) : List Nat :=
  (d.children n).attach.flatMap fun m => m.1 :: d.below m.1
termination_by d.size - n
decreasing_by
  have := child_gt m.2
  omega

theorem below_eq (d : Document) (n : Nat) :
    d.below n = (d.children n).flatMap fun m => m :: d.below m := by
  rw [below, List.flatMap_subtype (f := fun m => m.1 :: d.below m.1)
    (g := fun m => m :: d.below m) (fun _ _ => rfl), List.unattach_attach]

/-- A walk with a stack: the node on top is visited, and its children take its place. -/
def walk (d : Document) : List Nat → List Nat
  | [] => []
  | n :: stack => n :: d.walk (d.children n ++ stack)
termination_by stack => (stack.flatMap fun n => n :: d.below n).length
decreasing_by
  rw [List.flatMap_append, ← below_eq, List.flatMap_cons]
  simp

/-- A walk visits each node of its stack, and then the nodes below it. -/
theorem walk_eq (d : Document) (stack : List Nat) :
    d.walk stack = stack.flatMap fun n => n :: d.below n := by
  fun_induction walk d stack with
  | case1 => rfl
  | case2 n stack ih =>
    rw [ih, List.flatMap_append, ← below_eq, List.flatMap_cons, List.cons_append]

/-- The nodes below, in document order. -/
def descendants (d : Document) (n : Nat) : List Nat := d.walk (d.children n)

/-- The nodes below are the children, each followed by the nodes below it. -/
theorem descendants_eq (d : Document) (n : Nat) :
    d.descendants n = (d.children n).flatMap fun m => m :: d.descendants m := by
  have hbelow : ∀ m, d.descendants m = d.below m := fun m => by
    rw [descendants, walk_eq, ← below_eq]
  simp only [hbelow]
  exact d.below_eq n

/-- The node stands below another. -/
def isBelow (d : Document) (n above : Nat) : Bool := (d.ancestors n).contains above

/-- The node, and then those above it. -/
def selfAndAncestors (d : Document) (n : Nat) : List Nat := n :: d.ancestors n

/-- The nearest element among the siblings on the left. -/
def previousElement? (d : Document) (n : Nat) : Option Nat := (d.preceding n).find? d.isElement

/-- The elements of the document, in document order. -/
def elements (d : Document) : List Nat := (d.descendants 0).filter d.isElement

/-- The text of a text node, or all text below another node. -/
def textContent (d : Document) (n : Nat) : Text :=
  match d.text? n with
  | some t => t
  | none => ((d.descendants n).filterMap d.text?).flatten

end Document
end CosmeticFilter
