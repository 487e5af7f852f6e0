import CosmeticFilter.Json.Basic

/-!
# Documents

A document is a table of nodes that grows at its end: a node is appended as the last child of a node
that is already there, and its number is the number of nodes before it. Node 0 is the document
itself. Numbers are all that refers to nodes. Each node knows its parent, its children and its two
neighbours, so that a selector can step in any direction.

Because nodes are only appended, a parent and an earlier sibling always have smaller numbers, and a
child and a later sibling always have greater ones. `Document.Linked` says so, every document
carries it, and with it all walks through a document end.

* `Element`, `Document.Content`, `Document.Node`: what a node holds;
* `Document`: a table of nodes whose links are in order;
* `Document.append`: adds a node, and `Document.node?_append` says what every node is then;
* `Document.parent?`, `Document.children`, `Document.element?` and others: what a number stands for.
  A number that the document does not have stands for nothing.
-/

namespace CosmeticFilter

/-- What an element carries. -/
structure Element where
  /-- The tag name, as it was written. -/
  tag : Text
  /-- The attributes, each name once. -/
  attributes : List (Text × Text)
  /-- The properties that a script sees, in order of their names. -/
  properties : List (Text × Json)
  deriving Repr

namespace Element

/-- The value of the attribute with this very name. -/
def attribute? (e : Element) (name : Text) : Option Text := e.attributes.lookup name

/-- The element has an attribute with this very name. -/
def hasAttribute (e : Element) (name : Text) : Bool := (e.attribute? name).isSome

/-- The attribute `id`. -/
def id? (e : Element) : Option Text := e.attribute? "id".toList

/-- The words of the attribute `class`. -/
def classes (e : Element) : List Text := ((e.attribute? "class".toList).map Text.words).getD []

/-- The tag name is this one, letter case aside. -/
def isTag (e : Element) (name : Text) : Bool := Text.sameIgnoringCase e.tag name

/-- The attributes in order of their names. -/
def sortedAttributes (e : Element) : List (Text × Text) :=
  e.attributes.mergeSort fun a b => Text.le a.1 b.1

end Element

namespace Document

/-- What a node is. -/
inductive Content where
  /-- The document. -/
  | document
  /-- An element. -/
  | element (e : Element)
  /-- A run of text. -/
  | text (t : Text)
  /-- A comment. -/
  | comment (t : Text)
  deriving Repr

/-- A node and its links. -/
structure Node where
  /-- What the node is. -/
  content : Content
  /-- The node it is a child of. -/
  parent : Option Nat
  /-- Its children, first to last. -/
  children : List Nat
  /-- The child before it of the same parent. -/
  previous : Option Nat
  /-- The child after it of the same parent. -/
  next : Option Nat
  deriving Repr

/-- Links lead from a node to nodes that were added before it or after it, as its place in the
table says. -/
structure Linked (nodes : Array Node) : Prop where
  /-- A parent is added before its children. -/
  parent_lt : ∀ (n : Nat) (x : Node) (p : Nat),
    nodes[n]? = some x → x.parent = some p → p < n
  /-- A sibling on the left is added before. -/
  previous_lt : ∀ (n : Nat) (x : Node) (m : Nat),
    nodes[n]? = some x → x.previous = some m → m < n
  /-- A sibling on the right is added after. -/
  next_gt : ∀ (n : Nat) (x : Node) (m : Nat),
    nodes[n]? = some x → x.next = some m → n < m ∧ m < nodes.size
  /-- Children are added after their parent. -/
  child_gt : ∀ (n : Nat) (x : Node) (m : Nat),
    nodes[n]? = some x → m ∈ x.children → n < m ∧ m < nodes.size

end Document

/-- A table of nodes with its links in order. -/
structure Document where
  /-- The nodes; their places are their numbers. -/
  nodes : Array Document.Node
  /-- The links are in order. -/
  linked : Document.Linked nodes

namespace Document

/-- The document that holds nothing. -/
def empty : Document where
  nodes := #[⟨.document, none, [], none, none⟩]
  linked := by
    constructor <;> intro n x _ h <;> cases n <;> simp_all <;> subst h <;> simp

/-! ### What a number stands for -/

/-- How many nodes there are. -/
def size (d : Document) : Nat := d.nodes.size

/-- The numbers of all nodes. -/
def ids (d : Document) : List Nat := List.range d.size

/-- The node with this number. -/
def node? (d : Document) (n : Nat) : Option Node := d.nodes[n]?

/-- What the node is. -/
def content? (d : Document) (n : Nat) : Option Content := (d.node? n).map Node.content

/-- The parent of a node; the document may be one. -/
def parent? (d : Document) (n : Nat) : Option Nat := (d.node? n).bind Node.parent

/-- The children of a node, of every kind. -/
def children (d : Document) (n : Nat) : List Nat :=
  ((d.node? n).map Node.children).getD []

/-- The child before a node of the same parent. -/
def previous? (d : Document) (n : Nat) : Option Nat := (d.node? n).bind Node.previous

/-- The child after a node of the same parent. -/
def next? (d : Document) (n : Nat) : Option Nat := (d.node? n).bind Node.next

/-- The element with this number. -/
def element? (d : Document) (n : Nat) : Option Element :=
  match d.content? n with
  | some (.element e) => some e
  | _ => none

/-- The node is an element. -/
def isElement (d : Document) (n : Nat) : Bool := (d.element? n).isSome

/-- The data of a text node. -/
def text? (d : Document) (n : Nat) : Option Text :=
  match d.content? n with
  | some (.text t) => some t
  | _ => none

/-- The children that are elements. -/
def elementChildren (d : Document) (n : Nat) : List Nat :=
  (d.children n).filter d.isElement

/-- The parent, if it is an element. -/
def parentElement? (d : Document) (n : Nat) : Option Nat :=
  (d.parent? n).filter d.isElement

/-- The first element of the document. -/
def documentElement? (d : Document) : Option Nat := (d.elementChildren 0).head?

theorem parent_lt {d : Document} {n p : Nat} (h : d.parent? n = some p) : p < n := by
  obtain ⟨x, hx, hp⟩ := Option.bind_eq_some_iff.1 h
  exact d.linked.parent_lt n x p hx hp

theorem previous_lt {d : Document} {n m : Nat} (h : d.previous? n = some m) : m < n := by
  obtain ⟨x, hx, hm⟩ := Option.bind_eq_some_iff.1 h
  exact d.linked.previous_lt n x m hx hm

theorem next_gt {d : Document} {n m : Nat} (h : d.next? n = some m) : n < m ∧ m < d.size := by
  obtain ⟨x, hx, hm⟩ := Option.bind_eq_some_iff.1 h
  exact d.linked.next_gt n x m hx hm

theorem child_gt {d : Document} {n m : Nat} (h : m ∈ d.children n) : n < m ∧ m < d.size := by
  unfold children at h
  cases hx : d.node? n with
  | none => simp [hx] at h
  | some x => exact d.linked.child_gt n x m hx (by simpa [hx] using h)

/-! ### Adding a node -/

/-- The last child of a node. -/
def lastChild? (nodes : Array Node) (parent : Nat) : Option Nat :=
  nodes[parent]?.bind fun x => x.children.getLast?

/-- A node of the table after another one has been added as the last child of `parent`: the parent
has one child more, and the child that was last has a neighbour. -/
def relink (parent child : Nat) (last : Option Nat) (n : Nat) (x : Node) : Node :=
  { x with
    children := if n = parent then x.children ++ [child] else x.children
    next := if last = some n then some child else x.next }

/-- The table with a node added as the last child of `parent`. -/
def attach (nodes : Array Node) (parent : Nat) (content : Content) : Array Node :=
  let last := lastChild? nodes parent
  (nodes.mapIdx (relink parent nodes.size last)).push ⟨content, some parent, [], last, none⟩

/-- What every place of the table holds after a node has been added. -/
theorem getElem?_attach (nodes : Array Node) (parent : Nat) (content : Content) (n : Nat) :
    (attach nodes parent content)[n]? =
      if n = nodes.size then
        some ⟨content, some parent, [], lastChild? nodes parent, none⟩
      else nodes[n]?.map (relink parent nodes.size (lastChild? nodes parent) n) := by
  simp only [attach, Array.getElem?_push, Array.size_mapIdx, Array.getElem?_mapIdx]

theorem size_attach (nodes : Array Node) (parent : Nat) (content : Content) :
    (attach nodes parent content).size = nodes.size + 1 := by
  simp [attach]

/-- Adding a node keeps the links in order. -/
theorem linked_attach {nodes : Array Node} (h : Linked nodes) {parent : Nat}
    (hparent : parent < nodes.size) (content : Content) :
    Linked (attach nodes parent content) := by
  have hlast : ∀ m : Nat, lastChild? nodes parent = some m → parent < m ∧ m < nodes.size := by
    intro m hm
    obtain ⟨x, hx, hm⟩ := Option.bind_eq_some_iff.1 hm
    exact h.child_gt parent x m hx (List.mem_of_getLast? hm)
  have hsize : ∀ (n : Nat) (x : Node), nodes[n]? = some x → n < nodes.size := by
    intro n x hx
    exact (Array.getElem?_eq_some_iff.1 hx).1
  constructor
  · intro n x p hx hp
    rw [getElem?_attach] at hx
    split at hx
    · simp only [Option.some.injEq] at hx
      subst hx
      simp only [Option.some.injEq] at hp
      omega
    · obtain ⟨y, hy, rfl⟩ := Option.map_eq_some_iff.1 hx
      exact h.parent_lt n y p hy hp
  · intro n x m hx hm
    rw [getElem?_attach] at hx
    split at hx
    · simp only [Option.some.injEq] at hx
      subst hx
      have := (hlast m hm).2
      omega
    · obtain ⟨y, hy, rfl⟩ := Option.map_eq_some_iff.1 hx
      exact h.previous_lt n y m hy hm
  · intro n x m hx hm
    rw [size_attach]
    rw [getElem?_attach] at hx
    split at hx
    · simp only [Option.some.injEq] at hx
      subst hx
      simp at hm
    · obtain ⟨y, hy, rfl⟩ := Option.map_eq_some_iff.1 hx
      have := hsize n y hy
      simp only [relink] at hm
      split at hm
      · simp only [Option.some.injEq] at hm
        omega
      · have := h.next_gt n y m hy hm
        omega
  · intro n x m hx hm
    rw [size_attach]
    rw [getElem?_attach] at hx
    split at hx
    · simp only [Option.some.injEq] at hx
      subst hx
      simp at hm
    · obtain ⟨y, hy, rfl⟩ := Option.map_eq_some_iff.1 hx
      have := hsize n y hy
      have := h.child_gt n y m hy
      simp only [relink] at hm
      split at hm
      · simp only [List.mem_append, List.mem_singleton] at hm
        rcases hm with hm | rfl
        · have := h.child_gt n y m hy hm
          omega
        · omega
      · have := h.child_gt n y m hy hm
        omega

/-- Adds a node as the last child of `parent`; its number is the size of the document before. A
document that does not have the parent stays as it is. -/
def append (d : Document) (parent : Nat) (content : Content) : Document :=
  if h : parent < d.size then ⟨attach d.nodes parent content, linked_attach d.linked h content⟩
  else d

theorem size_append {d : Document} {parent : Nat} (h : parent < d.size) (content : Content) :
    (d.append parent content).size = d.size + 1 := by
  rw [append, dif_pos h]
  exact size_attach d.nodes parent content

/-- What every node is after one has been added. -/
theorem node?_append {d : Document} {parent : Nat} (h : parent < d.size) (content : Content)
    (n : Nat) :
    (d.append parent content).node? n =
      if n = d.size then
        some ⟨content, some parent, [], lastChild? d.nodes parent, none⟩
      else (d.node? n).map (relink parent d.size (lastChild? d.nodes parent) n) := by
  rw [append, dif_pos h]
  exact getElem?_attach d.nodes parent content n

end Document
end CosmeticFilter
