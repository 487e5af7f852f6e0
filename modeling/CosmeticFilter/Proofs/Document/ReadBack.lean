import CosmeticFilter.Proofs.Document.Numbering
import CosmeticFilter.Proofs.Document.Parents
import Mathlib.Data.List.Sort

/-!
# Reading a document back

A fixture is loaded by one appending after the other, and while what is below a node is appended,
the tree that it belongs to is not finished. What is finished stays so: appending changes the list
of children of one node only, which is the parent of what is appended, and no content at all. A tree
is read back from contents and lists of children at its own numbers. So it is read back right once
it has been loaded, whatever is loaded behind it.

* `fixture?`: the tree at a node, read back from the top down;
* `fixture?_congr`: it depends on the numbers from the node on;
* `Grows`: what appending trees side by side does to the nodes that are there;
* `grows_appendFixture`, `fixture?_appendFixture`: loading a tree, and reading it back;
* `fixture?_ofFixture`: a loaded document is the fixture, numbered from the top down.
-/

namespace CosmeticFilter

namespace Fixture

mutual

/-- How many nodes are written. -/
def size : Fixture → Nat
  | .element _ children => sizes children + 1
  | .text _ => 1
  | .comment _ => 1

/-- How many nodes are written side by side and below. -/
def sizes : List Fixture → Nat
  | [] => 0
  | f :: r => f.size + sizes r

end

theorem size_pos : ∀ f : Fixture, 0 < f.size
  | .element _ _ => Nat.succ_pos _
  | .text _ => Nat.one_pos
  | .comment _ => Nat.one_pos

/-- The numbers of trees that are loaded side by side, the first one at `n`. -/
def places (n : Nat) : List Fixture → List Nat
  | [] => []
  | f :: r => n :: places (n + f.size) r

end Fixture

namespace Document

variable {d d' d'' : Document} {m n parent : Nat} {new more : List Nat}

/-- The tree at a node. A text and a comment are trees only if nothing stands below them, and the
document itself is none. -/
def fixture? (d : Document) (n : Nat) : Option Fixture :=
  match d.content? n with
  | some (.element e) =>
    ((d.children n).attach.mapM fun m => d.fixture? m.1).map (Fixture.element e)
  | some (.text t) => if d.children n = [] then some (.text t) else none
  | some (.comment t) => if d.children n = [] then some (.comment t) else none
  | some .document => none
  | none => none
termination_by d.size - n
decreasing_by
  have := child_gt m.2
  omega

theorem fixture?_of_element {e : Element} (h : d.content? n = some (.element e)) :
    d.fixture? n = ((d.children n).mapM d.fixture?).map (Fixture.element e) := by
  have hmap : (d.children n).attach.mapM (fun m => d.fixture? m.1) =
      (d.children n).mapM d.fixture? := by
    rw [List.mapM_subtype (g := d.fixture?) fun _ _ => rfl, List.unattach_attach]
  rw [fixture?, h]
  exact congrArg (Option.map (Fixture.element e)) hmap

theorem fixture?_of_text {t : Text} (h : d.content? n = some (.text t)) :
    d.fixture? n = if d.children n = [] then some (.text t) else none := by
  rw [fixture?, h]

theorem fixture?_of_comment {t : Text} (h : d.content? n = some (.comment t)) :
    d.fixture? n = if d.children n = [] then some (.comment t) else none := by
  rw [fixture?, h]

theorem mapM_congr {α β : Type} {f g : α → Option β} {l : List α} (h : ∀ a ∈ l, f a = g a) :
    l.mapM f = l.mapM g := by
  induction l with
  | nil => rfl
  | cons a l ih =>
    obtain ⟨ha, hl⟩ := List.forall_mem_cons.mp h
    rw [List.mapM_cons, List.mapM_cons, ha, ih hl]

/-- The tree at a node is read from the numbers of its own part of the document. -/
theorem fixture?_congr (h : ∀ m, n ≤ m → m < d.size →
    d'.content? m = d.content? m ∧ d'.children m = d.children m) (hn : n < d.size) :
    d'.fixture? n = d.fixture? n := by
  induction hs : d.size - n using Nat.strongRecOn generalizing n with
  | _ s ih =>
    subst hs
    obtain ⟨hcontent, hchildren⟩ := h n (Nat.le_refl n) hn
    have hbelow : (d.children n).mapM d'.fixture? = (d.children n).mapM d.fixture? := by
      refine mapM_congr fun c hc => ?_
      have hgt := child_gt hc
      exact ih (d.size - c) (by omega) (fun m hm => h m (by omega)) hgt.2 rfl
    cases hc : d.content? n with
    | none => rw [fixture?, fixture?, hcontent, hc]
    | some content =>
      rw [hc] at hcontent
      cases content with
      | document => rw [fixture?, fixture?, hcontent, hc]
      | element e =>
        rw [fixture?_of_element hcontent, fixture?_of_element hc, hchildren, hbelow]
      | text t => rw [fixture?_of_text hcontent, fixture?_of_text hc, hchildren]
      | comment t => rw [fixture?_of_comment hcontent, fixture?_of_comment hc, hchildren]

/-! ### Loading -/

/-- Nodes have been appended, the numbers `new` among them as children of `parent` and all others
further down. -/
structure Grows (d : Document) (parent : Nat) (new : List Nat) (d' : Document) : Prop where
  /-- No node is lost. -/
  size_le : d.size ≤ d'.size
  /-- The nodes stay what they are. -/
  content : ∀ n < d.size, d'.content? n = d.content? n
  /-- One of them has more children. -/
  children : ∀ n < d.size,
    d'.children n = if n = parent then d.children n ++ new else d.children n

theorem Grows.refl (d : Document) (parent : Nat) : Grows d parent [] d where
  size_le := Nat.le_refl _
  content _ _ := rfl
  children n _ := by rw [List.append_nil, ite_self]

theorem grows_append (hparent : parent < d.size) (content : Content) :
    Grows d parent [d.size] (d.append parent content) where
  size_le := by
    rw [size_append hparent]
    exact Nat.le_succ _
  content n hn := by rw [content?_append hparent, if_neg (Nat.ne_of_lt hn)]
  children n _ := children_append hparent content n

/-- Trees side by side, one after the other. -/
theorem Grows.trans (h : Grows d parent new d') (h' : Grows d' parent more d'') :
    Grows d parent (new ++ more) d'' where
  size_le := Nat.le_trans h.size_le h'.size_le
  content n hn := (h'.content n (Nat.lt_of_lt_of_le hn h.size_le)).trans (h.content n hn)
  children n hn := by
    rw [h'.children n (Nat.lt_of_lt_of_le hn h.size_le), h.children n hn]
    split
    · rw [List.append_assoc]
    · rfl

/-- What is appended below a new node changes no list of an old one. -/
theorem Grows.below (h : Grows d parent new d') (h' : Grows d' m more d'') (hm : d.size ≤ m) :
    Grows d parent new d'' where
  size_le := Nat.le_trans h.size_le h'.size_le
  content n hn := (h'.content n (Nat.lt_of_lt_of_le hn h.size_le)).trans (h.content n hn)
  children n hn := by
    rw [h'.children n (Nat.lt_of_lt_of_le hn h.size_le), if_neg (by omega), h.children n hn]

/-- A tree that is finished is read back as before when its later siblings have come. -/
theorem Grows.fixture? (h : Grows d parent new d') (hparent : parent < n) (hn : n < d.size) :
    d'.fixture? n = d.fixture? n := by
  refine fixture?_congr (fun m hm hsize => ⟨h.content m hsize, ?_⟩) hn
  rw [h.children m hsize, if_neg (by omega)]

theorem children_append_self (hparent : parent < d.size) (content : Content) :
    (d.append parent content).children d.size = [] := by
  rw [children_append hparent, if_neg (Nat.ne_of_gt hparent), Document.children,
    node?_eq_none (Nat.le_refl _)]
  rfl

mutual

theorem size_appendFixture (f : Fixture) {d : Document} {parent : Nat} (h : parent < d.size) :
    (d.appendFixture parent f).size = d.size + f.size :=
  match f with
  | .text t => size_append h (.text t)
  | .comment t => size_append h (.comment t)
  | .element e children => by
    have hsize := size_append h (.element e)
    rw [appendFixture, size_appendFixtures children (by omega), hsize, Fixture.size]
    omega

theorem size_appendFixtures (fs : List Fixture) {d : Document} {parent : Nat}
    (h : parent < d.size) : (d.appendFixtures parent fs).size = d.size + Fixture.sizes fs :=
  match fs with
  | [] => rfl
  | f :: r => by
    have hsize := size_appendFixture f h
    rw [appendFixtures, size_appendFixtures r (by omega), hsize, Fixture.sizes, Nat.add_assoc]

end

mutual

/-- Loading a tree appends one child, and all else below it. -/
theorem grows_appendFixture (f : Fixture) {d : Document} {parent : Nat} (h : parent < d.size) :
    Grows d parent [d.size] (d.appendFixture parent f) :=
  match f with
  | .text t => grows_append h (.text t)
  | .comment t => grows_append h (.comment t)
  | .element e children => by
    have hsize := size_append h (.element e)
    exact (grows_append h (.element e)).below (grows_appendFixtures children (by omega))
      (Nat.le_refl _)

theorem grows_appendFixtures (fs : List Fixture) {d : Document} {parent : Nat}
    (h : parent < d.size) :
    Grows d parent (Fixture.places d.size fs) (d.appendFixtures parent fs) :=
  match fs with
  | [] => Grows.refl d parent
  | f :: r => by
    have hsize := size_appendFixture f h
    have hlt : parent < (d.appendFixture parent f).size := by omega
    have hrest := grows_appendFixtures r hlt
    rw [hsize] at hrest
    exact (grows_appendFixture f h).trans hrest

end

mutual

/-- A tree that has been loaded is read back at the first of its numbers. -/
theorem fixture?_appendFixture (f : Fixture) {d : Document} {parent : Nat}
    (h : parent < d.size) : (d.appendFixture parent f).fixture? d.size = some f :=
  match f with
  | .text t => by
    have hcontent := (content?_append h (.text t) d.size).trans (if_pos rfl)
    rw [appendFixture, fixture?_of_text hcontent, if_pos (children_append_self h _)]
  | .comment t => by
    have hcontent := (content?_append h (.comment t) d.size).trans (if_pos rfl)
    rw [appendFixture, fixture?_of_comment hcontent, if_pos (children_append_self h _)]
  | .element e children => by
    have hsize := size_append h (.element e)
    have hself : d.size < (d.append parent (.element e)).size := by omega
    have hgrows := grows_appendFixtures children hself
    have hcontent := (content?_append h (.element e) d.size).trans (if_pos rfl)
    have hchildren := hgrows.children d.size hself
    rw [if_pos rfl, children_append_self h, List.nil_append] at hchildren
    rw [appendFixture, fixture?_of_element ((hgrows.content d.size hself).trans hcontent),
      hchildren, mapM_fixture?_appendFixtures children hself]
    rfl

/-- Trees that have been loaded side by side are read back at their numbers. -/
theorem mapM_fixture?_appendFixtures (fs : List Fixture) {d : Document} {parent : Nat}
    (h : parent < d.size) :
    (Fixture.places d.size fs).mapM (d.appendFixtures parent fs).fixture? = some fs :=
  match fs with
  | [] => rfl
  | f :: r => by
    have hsize := size_appendFixture f h
    have hlater : parent < (d.appendFixture parent f).size := by omega
    have hpos := f.size_pos
    have hfirst := (grows_appendFixtures r hlater).fixture? h (n := d.size) (by omega)
    rw [fixture?_appendFixture f h] at hfirst
    have hrest := mapM_fixture?_appendFixtures r hlater
    rw [hsize] at hrest
    rw [Fixture.places, List.mapM_cons, appendFixtures, hfirst, hrest]
    rfl

end

/-! ### Loaded documents -/

theorem size_ofFixture (f : Fixture) : (ofFixture f).size = f.size + 1 :=
  (size_appendFixture f (Nat.zero_lt_one : 0 < empty.size)).trans (Nat.add_comm _ _)

/-- The walk through a loaded document counts. -/
theorem descendants_ofFixture (f : Fixture) :
    (ofFixture f).descendants 0 = List.range' 1 f.size := by
  refine (pairwise_descendants_ofFixture f 0).eq_of_mem_iff List.pairwise_lt_range' fun n => ?_
  have hsize := size_ofFixture f
  rw [List.mem_range'_1]
  constructor
  · intro hn
    have hlt := lt_size_of_mem_descendants hn
    omega
  · rintro ⟨hpos, hlt⟩
    exact (built_ofFixture f).mem_descendants (by omega) (by omega)

/-- **A loaded document is its fixture**: one tree stands below the document, read back it is the
fixture, and from the top down its nodes are numbered 1, 2, 3 and so on. -/
theorem fixture?_ofFixture (f : Fixture) :
    (ofFixture f).children 0 = [1] ∧ (ofFixture f).fixture? 1 = some f ∧
      (ofFixture f).descendants 0 = List.range' 1 f.size ∧ (ofFixture f).size = f.size + 1 ∧
      ∀ m n, n < (ofFixture f).size → ((ofFixture f).Precedes m n ↔ m < n) := by
  have hroot : 0 < empty.size := Nat.zero_lt_one
  have hloaded := isLoading_ofFixture f
  have hchildren := (grows_appendFixture f hroot).children 0 hroot
  rw [if_pos rfl] at hchildren
  exact ⟨hchildren, fixture?_appendFixture f hroot, descendants_ofFixture f, size_ofFixture f,
    fun _ _ hn => hloaded.preordered.precedes_iff_lt hloaded.built hn⟩

end Document
end CosmeticFilter
