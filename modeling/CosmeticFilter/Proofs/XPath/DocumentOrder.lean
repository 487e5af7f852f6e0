import CosmeticFilter.Proofs.Document.Numbering
import CosmeticFilter.Proofs.XPath.Axes
import CosmeticFilter.XPath.Reader

/-!
# The order of what an expression selects

The nodes that an expression selects are listed by their numbers, which are in the order in which
the nodes were appended. What is asked for is the order of the document. Each node is listed once,
and if the document was built from the top down, in that order too. But a node may be appended to
any other at any time, and then expressions list nodes out of order; so the documents in which all
of them list the nodes in order are exactly those in which the numbers are.

* `LocationPath.lt_size_of_mem_select`: no path leads out of the document;
* `XPath.inDocumentOrder`: what an expression selects, listed by a walk through the document;
* `XPath.perm_inDocumentOrder`: each selected node is listed once;
* `XPath.select_eq_inDocumentOrder_iff`: when the lists are in document order;
* `XPath.lateChild`: a document in which they are not.
-/

namespace CosmeticFilter

variable {d : Document} {context m n : Nat}

/-! ### Paths stay in the document -/

/-- A step leads to nodes of its axis. -/
theorem Step.select_sublist (d : Document) (s : Step) (n : Nat) :
    (s.select d n).Sublist (s.axis.nodes d n) := by
  have hkeep : ∀ (ps : List Predicate) (l : List Nat),
      (ps.foldl (Predicate.keep d) l).Sublist l := by
    intro ps
    induction ps with
    | nil => exact fun l => List.Sublist.refl l
    | cons p ps ih => exact fun l => (ih _).trans (p.sublist_keepFrom l.length 1 l)
  exact (hkeep s.predicates _).trans List.filter_sublist

theorem Step.lt_size_of_mem_select (hd : d.Built) {s : Step} (hn : n < d.size)
    (h : m ∈ s.select d n) : m < d.size :=
  Axis.lt_size_of_leads hn ((s.axis.mem_nodes_iff hd).mp ((s.select_sublist d n).subset h))

theorem LocationPath.lt_size_of_mem_select (hd : d.Built) {path : LocationPath}
    (hcontext : context < d.size) (h : m ∈ path.select d context) : m < d.size := by
  have hsteps : ∀ (ss : List Step) (ns : List Nat), (∀ n ∈ ns, n < d.size) →
      ∀ m ∈ ss.foldl (Step.selectAll d) ns, m < d.size := by
    intro ss
    induction ss with
    | nil => exact fun ns hns => hns
    | cons s ss ih =>
      refine fun ns hns => ih _ fun k hk => ?_
      obtain ⟨n, hn, hk⟩ := List.mem_flatMap.mp (NodeSet.mem_ofList.mp hk)
      exact Step.lt_size_of_mem_select hd (hns n hn) hk
  refine hsteps path.steps _ (fun n hn => ?_) m h
  rw [List.mem_singleton.mp hn]
  split
  · exact Nat.zero_lt_of_lt hcontext
  · exact hcontext

namespace XPath

/-- Some path of the expression leads to the node. -/
def selects (d : Document) (context : Nat) (x : XPath) (m : Nat) : Bool :=
  x.paths.any fun path => (path.select d context).contains m

/-- What the expression selects, in the order in which a walk through the document comes to it. -/
def inDocumentOrder (d : Document) (context : Nat) (x : XPath) : List Nat :=
  (0 :: d.descendants 0).filter (x.selects d context)

variable {x : XPath}

theorem mem_select_iff : m ∈ x.select d context ↔ x.selects d context m = true := by
  rw [select, NodeSet.mem_ofList, List.mem_flatMap, selects, List.any_eq_true]
  exact exists_congr fun path => and_congr_right fun _ => List.contains_iff_mem.symm

/-- The walk misses nothing that is selected. -/
theorem mem_inDocumentOrder_iff (hd : d.Built) (hcontext : context < d.size) :
    m ∈ x.inDocumentOrder d context ↔ m ∈ x.select d context := by
  rw [inDocumentOrder, List.mem_filter, mem_select_iff]
  refine and_iff_right_of_imp fun hm => ?_
  obtain ⟨path, -, hpath⟩ := List.any_eq_true.mp hm
  have hlt := LocationPath.lt_size_of_mem_select hd hcontext (List.contains_iff_mem.mp hpath)
  by_cases hroot : m = 0
  · rw [hroot]
    exact List.mem_cons_self
  · exact List.mem_cons_of_mem _ (hd.mem_descendants hlt hroot)

theorem nodup_inDocumentOrder (hd : d.Built) : (x.inDocumentOrder d context).Nodup := by
  refine (List.nodup_cons.mpr ⟨fun hmem => ?_, hd.isTree.nodup_descendants 0⟩).filter _
  exact absurd (Document.lt_size_of_mem_descendants hmem).1 (Nat.lt_irrefl 0)

/-- Each selected node is listed once. -/
theorem perm_inDocumentOrder (hd : d.Built) (hcontext : context < d.size) :
    (x.select d context).Perm (x.inDocumentOrder d context) := by
  refine (List.perm_ext_iff_of_nodup ?_ (nodup_inDocumentOrder hd)).mpr fun m =>
    (mem_inDocumentOrder_iff hd hcontext).symm
  exact (NodeSet.pairwise_ofList _).imp Nat.ne_of_lt

/-! ### Where numbers are in document order -/

/-- If the walk through the document counts upwards, so does the list of what is selected. -/
theorem select_eq_inDocumentOrder (hd : d.Built) (hpre : d.IsPreordered)
    (hcontext : context < d.size) : x.select d context = x.inDocumentOrder d context := by
  have hwalk : (0 :: d.descendants 0).Pairwise (· < ·) :=
    .cons (fun m hm => (Document.lt_size_of_mem_descendants hm).1)
      (hpre.pairwise_descendants hd 0)
  exact (NodeSet.pairwise_ofList _).eq_of_mem_iff (hwalk.filter _) fun m =>
    (mem_inDocumentOrder_iff hd hcontext).symm

/-- All nodes but the document. -/
def allNodes : XPath := ⟨[⟨true, [.toAllBelow, ⟨.child, .node, []⟩]⟩]⟩

theorem ofText_allNodes : ofText "//node()".toList = .ok allNodes := by decide +kernel

theorem mem_select_allNodes_iff (hd : d.Built) :
    m ∈ allNodes.select d context ↔ m ∈ d.descendants 0 := by
  have hchild : ∀ n, Step.select d ⟨.child, .node, []⟩ n = d.children n := fun n =>
    List.filter_eq_self.mpr fun _ _ => rfl
  have hbelow : ∀ n, Step.select d .toAllBelow n = n :: d.descendants n := fun n =>
    List.filter_eq_self.mpr fun _ _ => rfl
  have hmem : m ∈ allNodes.select d context ↔
      ∃ n ∈ 0 :: d.descendants 0, m ∈ d.children n := by
    rw [mem_select_iff]
    simp only [selects, allNodes, List.any_cons, List.any_nil, Bool.or_false,
      List.contains_iff_mem, LocationPath.select, if_true, List.foldl_cons, List.foldl_nil,
      Step.selectAll, NodeSet.mem_ofList, List.mem_flatMap, List.mem_singleton, exists_eq_left,
      hchild, hbelow]
  rw [hmem]
  constructor
  · rintro ⟨n, hn, hm⟩
    rcases List.mem_cons.mp hn with rfl | hn
    · rw [Document.descendants_eq]
      exact List.mem_flatMap.mpr ⟨m, hm, List.mem_cons_self⟩
    · exact Document.mem_descendants_of_child hn hm
  · intro hm
    obtain ⟨hpos, hlt⟩ := Document.lt_size_of_mem_descendants hm
    obtain ⟨p, hp, hmem⟩ := hd.exists_parent hlt (Nat.ne_of_gt hpos)
    refine ⟨p, ?_, hmem⟩
    by_cases hroot : p = 0
    · rw [hroot]
      exact List.mem_cons_self
    · have hsize := (Document.parent_lt hp).trans hlt
      exact List.mem_cons_of_mem _ (hd.mem_descendants hsize hroot)

/-- The walk through the document and the list of all nodes have the same members, so the one counts
upwards if it is the other. -/
theorem isPreordered_of_select_allNodes (hd : d.Built)
    (h : allNodes.select d 0 = allNodes.inDocumentOrder d 0) : d.IsPreordered := by
  have hselects : ∀ m, allNodes.selects d 0 m = true ↔ m ∈ d.descendants 0 := fun m =>
    mem_select_iff.symm.trans (mem_select_allNodes_iff hd)
  have hroot : ¬ allNodes.selects d 0 0 = true := fun hsel =>
    absurd (Document.lt_size_of_mem_descendants ((hselects 0).mp hsel)).1 (Nat.lt_irrefl 0)
  have hwalk : allNodes.inDocumentOrder d 0 = d.descendants 0 := by
    rw [inDocumentOrder, List.filter_cons_of_neg hroot]
    exact List.filter_eq_self.mpr fun m hm => (hselects m).mpr hm
  rw [hd.isPreordered_iff, ← hwalk, ← h]
  exact NodeSet.pairwise_ofList _

/-- **Expressions and document order**: each selected node is listed once, with smaller numbers
first. The lists of all expressions are in document order if each node of the document was appended
to the node before it or above that, and only then. -/
theorem select_eq_inDocumentOrder_iff (hd : d.Built) :
    (∀ t x context, ofText t = .ok x → context < d.size →
        (x.select d context).Perm (x.inDocumentOrder d context) ∧
          (x.select d context).Pairwise (· < ·)) ∧
      ((∀ t x context, ofText t = .ok x → context < d.size →
        x.select d context = x.inDocumentOrder d context) ↔ d.IsPreordered) := by
  refine ⟨fun t x context _ hcontext => ?_, fun h => ?_, fun hpre t x context _ hcontext => ?_⟩
  · exact ⟨perm_inDocumentOrder hd hcontext, NodeSet.pairwise_ofList _⟩
  · exact isPreordered_of_select_allNodes hd (h _ _ 0 ofText_allNodes hd.size_pos)
  · exact select_eq_inDocumentOrder hd hpre hcontext

/-- Two siblings, of which the first one is given a child when the second one is there. -/
def lateChild : Document :=
  ((Document.empty.append 0 (.element ⟨"a".toList, [], []⟩)).append 0
    (.element ⟨"b".toList, [], []⟩)).append 1 (.element ⟨"c".toList, [], []⟩)

theorem built_lateChild : lateChild.Built :=
  ((Document.Built.empty.append 0 _).append 0 _).append 1 _

/-- All elements. -/
def allElements : XPath := ⟨[⟨true, [.toAllBelow, ⟨.child, .anyElement, []⟩]⟩]⟩

theorem ofText_allElements : ofText "//*".toList = .ok allElements := by decide +kernel

theorem select_lateChild : allElements.select lateChild 0 = [1, 2, 3] := by decide +kernel

theorem inDocumentOrder_lateChild : allElements.inDocumentOrder lateChild 0 = [1, 3, 2] := by
  decide +kernel

/-- There, some expression lists what it selects in another order, and in no order more than
once. -/
theorem select_eq_inDocumentOrder_iff_lateChild :
    lateChild.Built ∧ ¬ lateChild.IsPreordered ∧ allElements.select lateChild 0 = [1, 2, 3] ∧
      [1, 2, 3].Perm (allElements.inDocumentOrder lateChild 0) := by
  have hsize : 0 < lateChild.size := by decide +kernel
  obtain ⟨hperm, hiff⟩ := select_eq_inDocumentOrder_iff built_lateChild
  refine ⟨built_lateChild, fun hpre => ?_, select_lateChild, ?_⟩
  · have hsame := hiff.mpr hpre _ _ 0 ofText_allElements hsize
    rw [select_lateChild, inDocumentOrder_lateChild] at hsame
    exact absurd hsame (by decide)
  · rw [← select_lateChild]
    exact (hperm _ _ 0 ofText_allElements hsize).1

/-- **Not every list is in document order**: the child that was appended last comes before the
second sibling, and it is listed behind it. -/
theorem not_select_eq_inDocumentOrder :
    ¬ ∀ (d : Document) (t : Text) (x : XPath) (context : Nat), d.Built → ofText t = .ok x →
      context < d.size → x.select d context = x.inDocumentOrder d context := by
  intro h
  have hsame := h lateChild _ allElements 0 built_lateChild ofText_allElements (by decide +kernel)
  rw [select_lateChild, inDocumentOrder_lateChild] at hsame
  exact absurd hsame (by decide)

end XPath
end CosmeticFilter
