import CosmeticFilter.Document.Traversal
import CosmeticFilter.XPath.Basic

/-!
# Evaluating XPath expressions

A step takes the nodes of its axis, nearest first, keeps those that pass the node test, and applies
its predicates one after the other, each to the nodes that are left, numbered anew. A path applies
its steps to sets of nodes, and the result of an expression is a set too: its nodes are listed by
their numbers, each once.

* `NodeSet.ofList`: a list of nodes as a set;
* `Predicate.holds`: a node at a position satisfies a predicate;
* `Step.select`, `LocationPath.select`, `XPath.select`: evaluation.
-/

namespace CosmeticFilter

namespace NodeSet

/-- Puts a node in its place among nodes in order, if it is not there yet. -/
def insert (n : Nat) : List Nat → List Nat
  | [] => [n]
  | m :: r => if n < m then n :: m :: r else if n = m then m :: r else m :: insert n r

/-- The nodes of a list in order, each once. -/
def ofList (ns : List Nat) : List Nat := ns.foldr insert []

theorem mem_insert {n m : Nat} {s : List Nat} : m ∈ insert n s ↔ m = n ∨ m ∈ s := by
  induction s with
  | nil => simp [insert]
  | cons k r ih =>
    rw [insert]
    split
    · simp
    · split
      · rename_i heq
        simp [heq]
      · simp only [List.mem_cons, ih]
        constructor
        · rintro (h | h | h) <;> simp [h]
        · rintro (h | h | h) <;> simp [h]

/-- A set has the members of the list. -/
theorem mem_ofList {m : Nat} {ns : List Nat} : m ∈ ofList ns ↔ m ∈ ns := by
  induction ns with
  | nil => simp [ofList]
  | cons n r ih =>
    have h : ofList (n :: r) = insert n (ofList r) := rfl
    rw [h, mem_insert, ih, List.mem_cons]

theorem pairwise_insert {n : Nat} {s : List Nat} (h : s.Pairwise (· < ·)) :
    (insert n s).Pairwise (· < ·) := by
  induction s with
  | nil => simp [insert]
  | cons k r ih =>
    rw [List.pairwise_cons] at h
    rw [insert]
    split
    · rename_i hlt
      rw [List.pairwise_cons]
      refine ⟨?_, List.pairwise_cons.2 h⟩
      intro m hm
      rcases List.mem_cons.1 hm with rfl | hm
      · exact hlt
      · exact Nat.lt_trans hlt (h.1 m hm)
    · split
      · exact List.pairwise_cons.2 h
      · rw [List.pairwise_cons]
        refine ⟨?_, ih h.2⟩
        intro m hm
        rcases mem_insert.1 hm with rfl | hm
        · omega
        · exact h.1 m hm

/-- A set lists its members in order, each once. -/
theorem pairwise_ofList (ns : List Nat) : (ofList ns).Pairwise (· < ·) := by
  induction ns with
  | nil => simp [ofList]
  | cons n r ih => exact pairwise_insert ih

end NodeSet

/-- The nodes of an axis, nearest first. -/
def Axis.nodes (d : Document) (n : Nat) : Axis → List Nat
  | child => d.children n
  | descendant => d.descendants n
  | descendantOrSelf => n :: d.descendants n
  | parent => (d.parent? n).toList
  | ancestor => d.ancestors n
  | ancestorOrSelf => n :: d.ancestors n
  | followingSibling => d.following n
  | precedingSibling => d.preceding n
  | self => [n]

/-- The node passes the test. -/
def NodeTest.passes (d : Document) (n : Nat) : NodeTest → Bool
  | anyElement => d.isElement n
  | name tag => (d.element? n).any fun e => e.isTag tag
  | node => true
  | text => (d.text? n).isSome

/-- The strings that an operand stands for at a node. -/
def Operand.values (d : Document) (n : Nat) : Operand → List Text
  | .attribute name => ((d.element? n).bind fun e => e.attribute? name).toList
  | text => (d.children n).filterMap d.text?
  | context => [d.textContent n]
  | literal t => [t]

/-- The first of the strings that an operand stands for, or the empty text. -/
def Operand.string (d : Document) (n : Nat) (o : Operand) : Text := (o.values d n).headD []

namespace Predicate

/-- A node that is one of `count` nodes, at this place, satisfies the predicate. -/
def holds (d : Document) (n place count : Nat) : Predicate → Bool
  | or p q => p.holds d n place count || q.holds d n place count
  | and p q => p.holds d n place count && q.holds d n place count
  | not p => !p.holds d n place count
  | present o => !(o.values d n).isEmpty
  | compare left equal right =>
    (left.values d n).any fun a => (right.values d n).any fun b => (a == b) == equal
  | contains whole part => Text.occursIn (part.string d n) (whole.string d n)
  | startsWith whole start => (start.string d n).isPrefixOf (whole.string d n)
  | position relation k => relation.holds place k
  | last => place == count

/-- The nodes that satisfy a predicate among those numbered from `place` on, of `count` nodes in
all. -/
def keepFrom (d : Document) (p : Predicate) (count : Nat) : Nat → List Nat → List Nat
  | _, [] => []
  | place, n :: r =>
    if p.holds d n place count then n :: keepFrom d p count (place + 1) r
    else keepFrom d p count (place + 1) r

/-- The nodes of a list that satisfy a predicate. -/
def keep (d : Document) (ns : List Nat) (p : Predicate) : List Nat :=
  keepFrom d p ns.length 1 ns

end Predicate

/-- The nodes that a step leads to, nearest first. -/
def Step.select (d : Document) (s : Step) (n : Nat) : List Nat :=
  s.predicates.foldl (Predicate.keep d) ((s.axis.nodes d n).filter fun m => s.test.passes d m)

/-- The set of nodes that a step leads to from a set of nodes. -/
def Step.selectAll (d : Document) (ns : List Nat) (s : Step) : List Nat :=
  NodeSet.ofList (ns.flatMap (s.select d))

/-- The set of nodes that a path leads to. -/
def LocationPath.select (d : Document) (context : Nat) (p : LocationPath) : List Nat :=
  p.steps.foldl (Step.selectAll d) [if p.isAbsolute then 0 else context]

/-- The set of nodes that an expression selects. -/
def XPath.select (d : Document) (context : Nat) (x : XPath) : List Nat :=
  NodeSet.ofList (x.paths.flatMap (LocationPath.select d context))

end CosmeticFilter
