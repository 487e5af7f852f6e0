import CosmeticFilter.Proofs.XPath.Reading
import CosmeticFilter.Proofs.XPath.Values

/-!
# Expressions find what they mean

An expression that is accepted is written by the grammar of XPath 1.0, and where its predicates are
read for what they mean, the evaluator finds exactly the nodes that XPath 1.0 says. Along each axis
it lists the nodes that are meant, each predicate leaves a list of those that are meant to be left,
and steps, paths and unions only put such sets together.

Where a predicate is not read for what it means, other nodes may be found: the empty string alone is
false, and it is taken for something that is there.

* `Standard.Step.IsFaithful`, `Standard.Query.IsFaithful`: expressions that are read for what they
  mean;
* `lists_select`, `mem_foldl_selectAll_iff`: steps and paths;
* `mem_select_iff_found`: expressions.
-/

namespace CosmeticFilter
namespace XPath

open Standard (Rounding Lists IsNoComment isNoComment_of_isTrueOf)

variable {R : Rounding} {d : Document} {context m n : Nat}

/-! ### Where an expression is read for what it means -/

/-- The predicates of the step are read for what they mean. If they ask for the string-values of
nodes, they do not ask it of comments. -/
structure Standard.Step.IsFaithful (R : Rounding) (d : Document) (s : Standard.Step) : Prop where
  /-- Each predicate is read for what it means. -/
  predicates : ∀ e ∈ s.predicates, e.IsFaithfulPredicate R d
  /-- The step comes to no comment whose string-value is asked for. -/
  comments : s.test = .node → (∃ e ∈ s.predicates, e.ReadsNode) → ∀ n, IsNoComment d n

/-- All steps of the expression are read for what they mean. -/
def Standard.Query.IsFaithful (R : Rounding) (d : Document) (q : Standard.Query) : Prop :=
  ∀ p ∈ q.paths, ∀ s ∈ p.steps, s.IsFaithful R d

/-! ### One step -/

/-- Predicates that are read for what they mean keep the same nodes. -/
theorem lists_foldl_keep (hd : d.Built) (hsize : d.size < 2 ^ 53) {axis : Axis}
    {es : List Standard.Expr} {l : List Nat} {s : Set Nat} (h : Lists d axis l s)
    (hl : ∀ m ∈ l, m < d.size) (hes : ∀ e ∈ es, e.IsFaithfulPredicate R d)
    (hcomment : ∀ e ∈ es, e.ReadsNode → ∀ m ∈ l, IsNoComment d m) :
    Lists d axis ((es.map Standard.Expr.toPredicate).foldl (Predicate.keep d) l)
      (es.foldl (Standard.keep R d axis) s) := by
  induction es generalizing l s with
  | nil => exact h
  | cons e es ih =>
    have hsub : ∀ m ∈ e.toPredicate.keep d l, m ∈ l :=
      (e.toPredicate.sublist_keepFrom l.length 1 l).subset
    refine ih (Predicate.lists_keep hd h fun i m hi => ?_) (fun m hm => hl m (hsub m hm))
      (fun e' he' => hes e' (List.mem_cons_of_mem _ he'))
      fun e' he' hreads m hm => hcomment e' (List.mem_cons_of_mem _ he') hreads m (hsub m hm)
    have hlength := h.length_le hd hl
    have hi' := (List.getElem?_eq_some_iff.mp hi).1
    exact Standard.Expr.keeps_iff (c := ⟨m, i + 1, l.length⟩) (by show i + 1 < 2 ^ 53; omega)
      (hes e List.mem_cons_self)
      fun hreads => hcomment e List.mem_cons_self hreads m (List.mem_of_getElem? hi)

/-- A step comes to the nodes that it means, in the direction of its axis. -/
theorem lists_select (hd : d.Built) (hsize : d.size < 2 ^ 53) {s : Standard.Step}
    (h : s.IsFaithful R d) (hn : n < d.size) :
    Lists d s.axis (s.toStep.select d n) (s.found R d n) := by
  have haxis := Axis.lists_nodes hd s.axis n
  have hmem : ∀ m, m ∈ (s.axis.nodes d n).filter (fun m => s.test.passes d m) ↔
      s.axis.Leads d n m ∧ s.test.IsTrueOf d m := fun m => by
    rw [List.mem_filter, s.axis.mem_nodes_iff hd, s.test.passes_iff]
  have hbase : Lists d s.axis ((s.axis.nodes d n).filter fun m => s.test.passes d m)
      {m | s.axis.Leads d n m ∧ s.test.IsTrueOf d m} := ⟨hmem, haxis.pairwise.filter _⟩
  refine lists_foldl_keep hd hsize hbase (fun m hm => Axis.lt_size_of_leads hn ((hmem m).mp hm).1)
    h.predicates fun e he hreads m hm => ?_
  by_cases htest : s.test = .node
  · exact h.comments htest ⟨e, he, hreads⟩ m
  · exact isNoComment_of_isTrueOf htest ((hmem m).mp hm).2

theorem lt_size_of_mem_found {s : Standard.Step} (hn : n < d.size) (h : m ∈ s.found R d n) :
    m < d.size := by
  have hsub : ∀ (es : List Standard.Expr) (found : Set Nat),
      es.foldl (Standard.keep R d s.axis) found ⊆ found := by
    intro es
    induction es with
    | nil => exact fun found => subset_rfl
    | cons e es ih => exact fun found => (ih _).trans (Set.sep_subset _ _)
  exact Axis.lt_size_of_leads hn (hsub s.predicates _ h).1

/-! ### Paths and unions -/

theorem mem_foldl_selectAll_iff (hd : d.Built) (hsize : d.size < 2 ^ 53) {ss : List Standard.Step}
    (h : ∀ s ∈ ss, s.IsFaithful R d) {ns : List Nat} {found : Set Nat}
    (hns : ∀ n, n ∈ ns ↔ n ∈ found) (hfound : ∀ n ∈ found, n < d.size) :
    m ∈ (ss.map Standard.Step.toStep).foldl (Step.selectAll d) ns ↔
      m ∈ ss.foldl (fun found s => {m | ∃ n ∈ found, m ∈ s.found R d n}) found := by
  induction ss generalizing ns found with
  | nil => exact hns m
  | cons s ss ih =>
    refine ih (fun s' hs' => h s' (List.mem_cons_of_mem _ hs')) (fun m => ?_) ?_
    · rw [Step.selectAll, NodeSet.mem_ofList, List.mem_flatMap]
      refine exists_congr fun n => ?_
      rw [hns n]
      exact and_congr_right fun hn =>
        (lists_select hd hsize (h s List.mem_cons_self) (hfound n hn)).mem_iff m
    · rintro m ⟨n, hn, hm⟩
      exact lt_size_of_mem_found (hfound n hn) hm

/-- What is read for an expression comes to the nodes that the expression means. -/
theorem mem_select_toXPath_iff (hd : d.Built) (hsize : d.size < 2 ^ 53)
    (hcontext : context < d.size) {q : Standard.Query} (h : q.IsFaithful R d) :
    m ∈ q.toXPath.select d context ↔ m ∈ q.found R d context := by
  have hpath : ∀ p ∈ q.paths,
      (m ∈ LocationPath.select d context p.toPath ↔ m ∈ p.found R d context) := by
    intro p hp
    refine mem_foldl_selectAll_iff hd hsize (h p hp) (fun n => List.mem_singleton) ?_
    rintro n rfl
    show (if p.isAbsolute then 0 else context) < d.size
    split
    · omega
    · exact hcontext
  rw [XPath.select, NodeSet.mem_ofList, List.mem_flatMap]
  constructor
  · rintro ⟨path, hmem, hm⟩
    obtain ⟨p, hp, rfl⟩ := List.mem_map.mp hmem
    exact ⟨p, hp, (hpath p hp).mp hm⟩
  · rintro ⟨p, hp, hm⟩
    exact ⟨p.toPath, List.mem_map_of_mem hp, (hpath p hp).mpr hm⟩

/-- **Expressions mean what XPath 1.0 says.** -/
theorem mem_select_iff_found (hd : d.Built) (hsize : d.size < 2 ^ 53) (hcontext : context < d.size)
    {t : Text} {x : XPath} (hread : ofText t = .ok x) :
    (NumbersFit t → ∃ q : Standard.Query, q.IsWritten t) ∧
      ∀ (R : Rounding) (q : Standard.Query), q.IsWritten t → q.IsFaithful R d →
        ∀ m, m ∈ x.select d context ↔ m ∈ q.found R d context := by
  refine ⟨fun hfit => ?_, fun R q hwritten hfaithful m => ?_⟩
  · obtain ⟨q, hq, -⟩ := exists_isWritten_of_ofText hfit hread
    exact ⟨q, hq⟩
  · rw [ofText_of_isWritten hwritten] at hread
    rw [← Except.ok.inj hread]
    exact mem_select_toXPath_iff hd hsize hcontext hfaithful

/-- An element with two others in it that have an attribute. -/
def twoItems : Document :=
  ((Document.empty.append 0 (.element ⟨"a".toList, [], []⟩)).append 1
    (.element ⟨"b".toList, [("c".toList, "x".toList)], []⟩)).append 1
      (.element ⟨"b".toList, [("c".toList, "y".toList)], []⟩)

/-- A comparison and a position. -/
def lastItem : Standard.Query :=
  ⟨[⟨true, [.toAllBelow, ⟨.child, .name "b".toList,
    [.compare (.attribute "c".toList) false (.literal "z".toList), .last]⟩]⟩]⟩

/-- The last of the two others is what the expression means. -/
theorem mem_select_iff_found_lastItem :
    lastItem.IsWritten "//b[@c != 'z'][last()]".toList ∧ lastItem.IsFaithful .none twoItems ∧
      3 ∈ lastItem.found .none twoItems 0 := by
  have hbuilt : twoItems.Built := ((Document.Built.empty.append 0 _).append 1 _).append 1 _
  have hcompare : (Standard.Expr.compare (.attribute "c".toList) false
      (.literal "z".toList)).IsWritten .disjunction "@c != 'z'][last()]".toList
        "][last()]".toList := by
    refine .disjunct (.conjunct (.differ (s := " != 'z'][last()]".toList)
      (r := " 'z'][last()]".toList) ?_ rfl ?_))
    · exact .named (s := "c != 'z'][last()]".toList) rfl rfl (by decide)
    · exact .literal (.inr rfl) rfl (by decide)
  have hlast : Standard.Expr.last.IsWritten .disjunction "last()]".toList "]".toList :=
    .disjunct (.conjunct (.last rfl))
  have hpredicates : Standard.PredicatesAreWritten [_, _] "[@c != 'z'][last()]".toList [] :=
    .cons rfl hcompare rfl (.cons rfl hlast rfl .nil)
  have hwritten : lastItem.IsWritten "//b[@c != 'z'][last()]".toList :=
    .last (.anywhere (r := "b[@c != 'z'][last()]".toList) rfl (.last (.child (by decide)
      (.name rfl (by decide)) hpredicates))) rfl
  have hfaithful : lastItem.IsFaithful .none twoItems := by
    intro p hp s hs
    obtain rfl := List.mem_singleton.mp hp
    rcases List.mem_cons.mp hs with rfl | hs
    · exact ⟨fun e he => absurd he List.not_mem_nil,
        fun _ ⟨e, he, _⟩ => absurd he List.not_mem_nil⟩
    · obtain rfl := List.mem_singleton.mp hs
      refine ⟨fun e he => .inr ?_, fun htest => by cases htest⟩
      rcases List.mem_cons.mp he with rfl | he
      · exact fun hnumeral => hnumeral.elim False.elim False.elim
      · obtain rfl := List.mem_singleton.mp he
        exact trivial
  refine ⟨hwritten, hfaithful, ?_⟩
  exact ((mem_select_iff_found hbuilt (by decide) (by decide)
    (ofText_of_isWritten hwritten)).2 .none lastItem hwritten hfaithful 3).mp (by decide +kernel)

/-- An element. -/
def oneElement : Document := Document.empty.append 0 (.element ⟨"a".toList, [], []⟩)

/-- An empty string as a predicate. -/
def emptyLiteral : Standard.Query :=
  ⟨[⟨true, [.toAllBelow, ⟨.child, .name "a".toList, [.term (.literal [])]⟩]⟩]⟩

/-- **Not every expression means what XPath 1.0 says**: the empty string is false, but it is read as
something that is there. -/
theorem not_mem_select_iff_found :
    ¬ ∀ (R : Rounding) (d : Document) (context : Nat) (t : Text) (x : XPath) (q : Standard.Query),
      d.Built → d.size < 2 ^ 53 → context < d.size → ofText t = .ok x → q.IsWritten t →
        ∀ m, m ∈ x.select d context ↔ m ∈ q.found R d context := by
  intro h
  have hbuilt : oneElement.Built := Document.Built.empty.append 0 _
  have hliteral : (Standard.Expr.term (.literal [])).IsWritten .disjunction "'']".toList
      "]".toList :=
    .disjunct (.conjunct (.term (.literal (.inr rfl) rfl (by decide))))
  have hpredicates : Standard.PredicatesAreWritten [_] "['']".toList [] :=
    .cons rfl hliteral rfl .nil
  have hwritten : emptyLiteral.IsWritten "//a['']".toList :=
    .last (.anywhere (r := "a['']".toList) rfl (.last (.child (by decide)
      (.name rfl (by decide)) hpredicates))) rfl
  have hselect : 1 ∈ emptyLiteral.toXPath.select oneElement 0 := by decide +kernel
  obtain ⟨p, hp, hfound⟩ := (h .none oneElement 0 _ _ emptyLiteral hbuilt (by decide) (by decide)
    (ofText_of_isWritten hwritten) hwritten 1).mp hselect
  obtain rfl := List.mem_singleton.mp hp
  obtain ⟨n, -, hkept⟩ := hfound
  exact hkept.2 rfl

end XPath
end CosmeticFilter
