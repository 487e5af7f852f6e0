import CosmeticFilter.Proofs.Document.Loaded

/-!
# Parents in a loaded document

Appending puts a node below any other, even below a text. A document that is loaded from a fixture
has children below elements only, and below the document itself. So on the way up from a node, there
are elements until the document is reached, and the walk from element to element misses none of the
ancestors that are elements.

* `HasElementParents`: only elements and the document have children;
* `hasElementParents_ofFixture`: a loaded document is like this;
* `HasElementParents.ancestors_of_parentElement?_eq_none`: above a node without a parent element
  there is nothing but the document.
-/

namespace CosmeticFilter
namespace Document

variable {d : Document} {n m parent : Nat}

/-- Only elements and the document itself have children. -/
def HasElementParents (d : Document) : Prop :=
  ∀ n m, d.parent? n = some m → m = 0 ∨ d.isElement m = true

/-- The node may have children in a loaded document. -/
structure Hosts (d : Document) (n : Nat) : Prop where
  /-- The document has the node. -/
  lt_size : n < d.size
  /-- It is the document or an element. -/
  content : n = 0 ∨ d.isElement n = true

theorem content?_append (h : parent < d.size) (content : Content) (n : Nat) :
    (d.append parent content).content? n = if n = d.size then some content else d.content? n := by
  unfold content?
  rw [node?_append h]
  split
  · rfl
  · cases d.node? n <;> rfl

/-- What a node is stays as it is. -/
theorem isElement_append (h : parent < d.size) (content : Content) (hn : n < d.size) :
    (d.append parent content).isElement n = d.isElement n := by
  unfold isElement element?
  rw [content?_append h, if_neg (Nat.ne_of_lt hn)]

theorem Hosts.append (h : d.Hosts n) (hparent : parent < d.size) (content : Content) :
    (d.append parent content).Hosts n := by
  refine ⟨?_, h.content.imp_right fun hn => ?_⟩
  · rw [size_append hparent]
    exact Nat.lt_succ_of_lt h.lt_size
  · rw [isElement_append hparent content h.lt_size]
    exact hn

/-- An element that has just been appended hosts what is to come. -/
theorem hosts_append_self (hparent : parent < d.size) (e : Element) :
    (d.append parent (.element e)).Hosts d.size := by
  refine ⟨?_, Or.inr ?_⟩
  · rw [size_append hparent]
    exact Nat.lt_succ_self _
  · unfold isElement element?
    rw [content?_append hparent, if_pos rfl]
    rfl

theorem HasElementParents.append (h : d.HasElementParents) (hparent : d.Hosts parent)
    (content : Content) : (d.append parent content).HasElementParents := by
  intro n m hm
  rw [parent?_append hparent.lt_size] at hm
  by_cases hn : n = d.size
  · rw [if_pos hn] at hm
    obtain rfl := Option.some_inj.mp hm
    exact (hparent.append hparent.lt_size content).content
  · rw [if_neg hn] at hm
    refine (h n m hm).imp_right fun helement => ?_
    rw [isElement_append hparent.lt_size content (lt_size_of_isElement helement)]
    exact helement

/-! ### Loading -/

mutual

/-- What is below a host stays in order, and all hosts stay hosts. -/
theorem HasElementParents.appendFixture (f : Fixture) {d : Document} {parent : Nat}
    (h : d.HasElementParents) (hparent : d.Hosts parent) :
    (d.appendFixture parent f).HasElementParents ∧
      ∀ n, d.Hosts n → (d.appendFixture parent f).Hosts n :=
  match f with
  | .text t => ⟨h.append hparent (.text t), fun _ hn => hn.append hparent.lt_size _⟩
  | .comment t => ⟨h.append hparent (.comment t), fun _ hn => hn.append hparent.lt_size _⟩
  | .element e children =>
    have hrest := HasElementParents.appendFixtures children (h.append hparent (.element e))
      (hosts_append_self hparent.lt_size e)
    ⟨hrest.1, fun n hn => hrest.2 n (hn.append hparent.lt_size _)⟩

theorem HasElementParents.appendFixtures (fs : List Fixture) {d : Document} {parent : Nat}
    (h : d.HasElementParents) (hparent : d.Hosts parent) :
    (d.appendFixtures parent fs).HasElementParents ∧
      ∀ n, d.Hosts n → (d.appendFixtures parent fs).Hosts n :=
  match fs with
  | [] => ⟨h, fun _ hn => hn⟩
  | f :: r =>
    have hfirst := HasElementParents.appendFixture f h hparent
    have hrest := HasElementParents.appendFixtures r hfirst.1 (hfirst.2 parent hparent)
    ⟨hrest.1, fun n hn => hrest.2 n (hfirst.2 n hn)⟩

end

/-- **In a loaded document** only elements and the document itself have children. -/
theorem hasElementParents_ofFixture (f : Fixture) : (ofFixture f).HasElementParents := by
  have hempty : empty.HasElementParents := by
    intro n m hm
    cases n <;> exact absurd hm (by simp [parent?, node?, empty])
  have hhosts : empty.Hosts 0 := ⟨by decide, Or.inl rfl⟩
  exact (HasElementParents.appendFixture f hempty hhosts).1

/-- The walk from element to element ends where no element is above. -/
theorem HasElementParents.ancestors_of_parentElement?_eq_none (h : d.HasElementParents)
    (hn : d.parentElement? n = none) : ∀ m ∈ d.ancestors n, m = 0 := by
  cases hparent : d.parent? n with
  | none =>
    rw [ancestors_eq_nil hparent]
    exact fun m hm => absurd hm List.not_mem_nil
  | some p =>
    unfold parentElement? at hn
    rw [hparent, Option.filter_eq_none_iff] at hn
    obtain rfl := (h n p hparent).resolve_right (hn p rfl)
    have hroot : d.parent? 0 = none :=
      Option.eq_none_iff_forall_ne_some.mpr fun q hq => absurd (parent_lt hq) (Nat.not_lt_zero q)
    rw [ancestors_eq_cons hparent, selfAndAncestors, ancestors_eq_nil hroot]
    exact fun m hm => List.mem_singleton.mp hm

end Document
end CosmeticFilter
