import CosmeticFilter.Proofs.Extended.Growth
import CosmeticFilter.Proofs.Text.Trim
import Mathlib.Data.List.Chain

/-!
# Where the nodes of a selector stand

The rules on where a pseudo-class may stand are checked when it is added, with what has been read of
its branch and its scope at hand. Together they shape the whole tree: every branch, at every depth,
starts with a fragment, has no two fragments in a row, and has only names in it that the arguments
around it allow.

* `IsPlaced`: these rules, for one branch;
* `isPlaced_of_occurs`: they hold of every branch of a selector that is read;
* `EndsAtRemoval`, `endsAtRemoval_of_occurs`: what may follow `:remove()` and `:xpath()`.

Native text that follows `:xpath()` is refused at the end of a branch, but not in front of
`:remove()`, where it becomes a fragment like any other.
-/

namespace CosmeticFilter
namespace Extended

variable {inner : BranchReader} {s : Scope}

/-! ### One more node -/

/-- A fragment that has been added fits into its scope if it is the first node. -/
theorem leadingCombinator?_of_addFragment {d d' : Draft} {t : Text}
    (h : d.addFragment s t = .ok d') (hnodes : d.nodes = []) (hs : s.mayLead = false) :
    (Node.fragment t).leadingCombinator? = none := by
  have hlead := (of_addFragment h).2 hnodes hs
  rw [Node.leadingCombinator?, Option.filter_eq_none_iff]
  intro c hc
  rw [Bool.not_eq_true]
  refine hlead c ?_
  have hne : Text.trimEnd (Text.trimStart t) ≠ [] := by
    cases hstart : Text.trimStart t with
    | nil =>
      rw [hstart] at hc
      exact absurd hc (by simp)
    | cons a r =>
      intro hnil
      have hblank := Text.trimEnd_eq_nil_iff.mp hnil a (List.mem_cons_self ..)
      rw [Text.not_blank_of_trimStart hstart] at hblank
      exact absurd hblank (by simp)
  rw [Text.trim, Text.head?_trimEnd hne]
  exact hc

/-- An extended pseudo-class is added behind a fragment, or behind another one. -/
theorem nodes_of_addExtended {d d' : Draft} {name : Name} {argument : Text}
    (h : d.addExtended inner s name argument = .ok d') :
    ∃ n, n.name? = some name ∧
      ((d.nodes ≠ [] ∧ d'.nodes = d.nodes ++ [n]) ∨
        ∃ t, (d.nodes = [] → s.mayLead = false →
            (Node.fragment t).leadingCombinator? = none) ∧
          d'.nodes = d.nodes ++ [.fragment t, n]) := by
  obtain ⟨-, -, cut, n, hcut, hnode, rfl⟩ := addExtended_eq_ok.mp h
  refine ⟨n, name?_of_nodeOf hnode, ?_⟩
  rcases cutBeforeExtended_cases hcut with ⟨hne, -, rfl⟩ | ⟨t, -, hfragment⟩
  · exact Or.inl ⟨hne, rfl⟩
  · refine Or.inr ⟨t, leadingCombinator?_of_addFragment hfragment, ?_⟩
    rw [nodes_of_addFragment hfragment, List.append_assoc]
    rfl

theorem isFragment_of_name? {n : Node} {name : Name} (h : n.name? = some name) :
    n.isFragment = false := by
  cases n with
  | fragment t => exact absurd h (by simp [Node.name?])
  | textual _ _ => rfl
  | nested _ _ => rfl

/-! ### The order of fragments -/

/-- Neighbours of which one is no fragment. -/
def Node.Alternates (a b : Node) : Prop := a.isFragment = false ∨ b.isFragment = false

/-- The rules on the fragments of a branch, which may be empty so far. -/
structure Scope.Orders (s : Scope) (ns : List Node) : Prop where
  /-- The first node is a fragment. -/
  starts : ∀ n ∈ ns.head?, n.isFragment = true
  /-- No two fragments are neighbours. -/
  alternates : ns.IsChain Node.Alternates
  /-- The first fragment starts with a combinator only where the scope allows it. -/
  leads : s.mayLead = false → ∀ n ∈ ns.head?, n.leadingCombinator? = none

theorem Scope.orders_nil : s.Orders [] :=
  ⟨fun _ hn => absurd hn (by simp), .nil, fun _ _ hn => absurd hn (by simp)⟩

/-- A branch stays in order with a node behind it that alternates with the last one. -/
theorem Scope.Orders.concat {ns : List Node} (h : s.Orders ns) {n : Node}
    (hlast : ∀ m ∈ ns.getLast?, m.Alternates n) (hstarts : ns = [] → n.isFragment = true)
    (hleads : ns = [] → s.mayLead = false → n.leadingCombinator? = none) :
    s.Orders (ns ++ [n]) := by
  have hhead : ∀ m ∈ (ns ++ [n]).head?, m ∈ ns.head? ∨ ns = [] ∧ m = n := by
    intro m hm
    cases ns with
    | nil => exact Or.inr ⟨rfl, (Option.some_inj.mp hm).symm⟩
    | cons a r => exact Or.inl hm
  refine ⟨fun m hm => ?_, ?_, fun hs m hm => ?_⟩
  · rcases hhead m hm with hm | ⟨hnil, rfl⟩
    · exact h.starts m hm
    · exact hstarts hnil
  · refine List.isChain_append.mpr ⟨h.alternates, .singleton n, fun a ha b hb => ?_⟩
    rw [← Option.some_inj.mp hb]
    exact hlast a ha
  · rcases hhead m hm with hm | ⟨hnil, rfl⟩
    · exact h.leads hs m hm
    · exact hleads hnil hs

/-- A branch that is being read is in order, and a fragment may follow it. -/
theorem Draft.IsGrown.orders {d : Draft} (h : d.IsGrown inner s) :
    s.Orders d.nodes ∧ ∀ n ∈ d.nodes.getLast?, n.isFragment = false := by
  induction h with
  | empty => exact ⟨Scope.orders_nil, fun _ hn => absurd hn (by simp [Draft.empty])⟩
  | addText _ _ ih =>
    rw [addText_nodes]
    exact ih
  | @addExtended d d' name argument _ hadd ih =>
    obtain ⟨n, hname, ⟨hne, hnodes⟩ | ⟨t, hleads, hnodes⟩⟩ := nodes_of_addExtended hadd
    · rw [hnodes]
      refine ⟨ih.1.concat (fun m hm => Or.inl (ih.2 m hm)) (fun hnil => absurd hnil hne)
        fun hnil => absurd hnil hne, fun m hm => ?_⟩
      rw [List.getLast?_concat] at hm
      rw [← Option.some_inj.mp hm]
      exact isFragment_of_name? hname
    · have hfragment := ih.1.concat (n := .fragment t) (fun m hm => Or.inl (ih.2 m hm))
        (fun _ => rfl) hleads
      rw [hnodes, show d.nodes ++ [.fragment t, n] = (d.nodes ++ [.fragment t]) ++ [n] by simp]
      refine ⟨hfragment.concat (fun m _ => Or.inr (isFragment_of_name? hname))
        (fun hnil => absurd hnil (by simp)) fun hnil => absurd hnil (by simp), fun m hm => ?_⟩
      rw [List.getLast?_concat] at hm
      rw [← Option.some_inj.mp hm]
      exact isFragment_of_name? hname

theorem IsComplete.orders {ns : List Node} (h : IsComplete inner s ns) :
    ns ≠ [] ∧ s.Orders ns := by
  obtain ⟨d, d', hgrown, hcut, hne, rfl⟩ := h
  refine ⟨hne, ?_⟩
  obtain ⟨horders, hlast⟩ := hgrown.orders
  rcases cutAtEnd_cases hcut with ⟨-, hnodes⟩ | ⟨-, -, hfragment⟩
  · rw [hnodes]
    exact horders
  · rw [nodes_of_addFragment hfragment]
    exact horders.concat (fun m hm => Or.inl (hlast m hm)) (fun _ => rfl)
      (leadingCombinator?_of_addFragment hfragment)

/-! ### All branches -/

/-- The rules for a branch in the arguments of these names, the innermost one first. -/
structure IsPlaced (path : List Name) (ns : List Node) : Prop where
  /-- The branch starts with a fragment. -/
  starts : ∃ t r, ns = .fragment t :: r
  /-- No two fragments are neighbours. -/
  alternates : ns.IsChain Node.Alternates
  /-- Inside `:has()` or an alias, at any depth, there is none of these, and no `:is()`. -/
  has : (∃ outer ∈ path, outer.isHasFamily = true) →
    ∀ n ∈ ns, ∀ name ∈ n.name?, name.isHasFamily = false ∧ name.isIsFamily = false
  /-- Inside an argument there is no `:remove()`. -/
  remove : path ≠ [] → ∀ n ∈ ns, n.name? ≠ some .remove
  /-- The first fragment starts with a combinator only directly inside `:has()` or an alias. -/
  leads : ∀ n ∈ ns.head?, n.leadingCombinator? ≠ none →
    ∃ outer ∈ path.head?, outer.isHasFamily = true

theorem IsComplete.isPlaced {path : List Name} {ns : List Node}
    (h : IsComplete inner (Scope.along path) ns) : IsPlaced path ns := by
  obtain ⟨hne, horders⟩ := h.orders
  obtain ⟨n, r, rfl⟩ := List.exists_cons_of_ne_nil hne
  have hallows : ∀ m ∈ n :: r, ∀ name ∈ m.name?, (Scope.along path).Allows name :=
    fun m hm name hname => (h.isAdmitted m hm).allows hname
  refine ⟨?_, horders.alternates, ?_, ?_, ?_⟩
  · have hfragment := horders.starts n rfl
    cases n with
    | fragment t => exact ⟨t, r, rfl⟩
    | textual _ _ => exact absurd hfragment (by simp [Node.isFragment])
    | nested _ _ => exact absurd hfragment (by simp [Node.isFragment])
  · intro houter m hm name hname
    refine (hallows m hm name hname).has ?_
    rw [Scope.along_inHas]
    exact List.any_eq_true.mpr houter
  · intro hpath m hm hname
    exact (hallows m hm .remove hname).remove (Scope.along_isArgument hpath) rfl
  · intro m hm hlead
    by_contra hnone
    refine hlead (horders.leads ?_ m hm)
    rw [Scope.along_mayLead, ← Bool.not_eq_true, Option.any_eq_true]
    rintro ⟨outer, houter, hhas⟩
    exact hnone ⟨outer, houter, hhas⟩

/-- In a selector that is read there is a branch in every list of branches, at every depth, and each
branch obeys the rules. -/
theorem isPlaced_of_occurs {t : Text} {sel : Selector} (h : Selector.ofText t = .ok sel)
    {path : List Name} {cs : List (List Node)} (hcs : Occurs sel.branches path cs) :
    cs ≠ [] ∧ ∀ ns ∈ cs, IsPlaced path ns := by
  obtain ⟨a, ha⟩ := exists_readAll_of_occurs (Selector.ofText_eq_ok.mp h) hcs
  obtain ⟨hne, hcomplete⟩ := isComplete_of_readAll ha
  exact ⟨hne, fun ns hns => (hcomplete ns hns).isPlaced⟩

/-- An argument of `:not()` in one of `:has()`. -/
theorem isPlaced_not_has : IsPlaced [.not, .has] [.fragment ".b".toList] := by
  have hread : Selector.ofText "div:has(> a:not(.b))".toList =
      .ok ⟨[[.fragment "div".toList, .nested .has [[.fragment "> a".toList,
        .nested .not [[.fragment ".b".toList]]]]]]⟩ := by decide +kernel
  have hhas : Occurs [[.fragment "div".toList, .nested .has [[.fragment "> a".toList,
      .nested .not [[.fragment ".b".toList]]]]]] [.has]
      [[.fragment "> a".toList, .nested .not [[.fragment ".b".toList]]]] :=
    .argument .self (List.mem_singleton_self _) (by simp)
  exact (isPlaced_of_occurs hread (.argument hhas (List.mem_singleton_self _) (by simp))).2 _
    (List.mem_singleton_self _)

/-! ### Behind `:xpath()` and `:remove()` -/

/-- What may follow `:xpath()` and `:remove()` in a branch. -/
structure EndsAtRemoval (ns : List Node) : Prop where
  /-- Nothing follows `:remove()`. -/
  remove : ∀ front n rest, ns = front ++ n :: rest → n.name? = some .remove → rest = []
  /-- Behind `:xpath()` there is at most `:remove()`, with or without a fragment between. -/
  xpath : ∀ front n rest, ns = front ++ n :: rest → n.name? = some .xpath →
    rest = [] ∨ ∃ m, m.name? = some .remove ∧ (rest = [m] ∨ ∃ t, rest = [.fragment t, m])

/-- A node of a branch with more behind it is one of the branch, or one of those behind. -/
theorem split_append {ns more front rest : List Node} {n : Node}
    (h : ns ++ more = front ++ n :: rest) :
    (∃ between, ns = front ++ n :: between ∧ rest = between ++ more) ∨
      ∃ between, more = between ++ n :: rest := by
  rcases List.append_eq_append_iff.mp h with ⟨between, -, hmore⟩ | ⟨between, hns, hrest⟩
  · exact Or.inr ⟨between, hmore⟩
  · cases between with
    | nil => exact Or.inr ⟨[], hrest.symm⟩
    | cons m r =>
      obtain ⟨rfl, rfl⟩ := List.cons.inj hrest
      exact Or.inl ⟨r, hns, rfl⟩

theorem has_of_split {d : Draft} {front rest : List Node} {n : Node} {name : Name}
    (h : d.nodes = front ++ n :: rest) (hname : n.name? = some name) : d.has name = true := by
  unfold Draft.has
  rw [h, List.any_eq_true]
  exact ⟨n, by simp, beq_iff_eq.mpr hname⟩

/-- If there is no `:remove()`, then `:xpath()` is the last node. -/
theorem EndsAtRemoval.eq_nil_of_xpath {d : Draft} (h : EndsAtRemoval d.nodes)
    (hremove : d.has .remove = false) {front rest : List Node} {n : Node}
    (hsplit : d.nodes = front ++ n :: rest) (hname : n.name? = some .xpath) : rest = [] := by
  rcases h.xpath front n rest hsplit hname with hnil | ⟨m, hm, hrest⟩
  · exact hnil
  · obtain ⟨between, last, hsplit'⟩ : ∃ between last, d.nodes = between ++ m :: last := by
      rcases hrest with rfl | ⟨t, rfl⟩
      · exact ⟨front ++ [n], [], by rw [hsplit]; simp⟩
      · exact ⟨front ++ [n, .fragment t], [], by rw [hsplit]; simp⟩
    rw [has_of_split hsplit' hm] at hremove
    exact absurd hremove (by simp)

theorem Draft.IsGrown.endsAtRemoval {d : Draft} (h : d.IsGrown inner s) :
    EndsAtRemoval d.nodes := by
  induction h with
  | empty => exact ⟨fun _ _ _ heq => absurd heq (by simp [Draft.empty]),
      fun _ _ _ heq => absurd heq (by simp [Draft.empty])⟩
  | addText _ _ ih =>
    rw [addText_nodes]
    exact ih
  | @addExtended d d' name argument _ hadd ih =>
    obtain ⟨-, hremove, hxpath, -⟩ := checkPlacement_eq_ok.mp (addExtended_eq_ok.mp hadd).1
    obtain ⟨m, hm, hnodes⟩ := nodes_of_addExtended hadd
    obtain ⟨more, hmore, hnodes⟩ : ∃ more, (more = [m] ∨ ∃ t, more = [.fragment t, m]) ∧
        d'.nodes = d.nodes ++ more := by
      rcases hnodes with ⟨-, hnodes⟩ | ⟨t, -, hnodes⟩
      · exact ⟨_, Or.inl rfl, hnodes⟩
      · exact ⟨_, Or.inr ⟨t, rfl⟩, hnodes⟩
    -- the only name among the new nodes is that of the last one
    have hlast : ∀ between n rest, more = between ++ n :: rest → n.name? ≠ none → rest = [] := by
      intro between n rest heq hname
      rcases hmore with rfl | ⟨t, rfl⟩
      · cases between with
        | nil => exact (List.cons.inj heq).2.symm
        | cons a r => exact absurd (List.cons.inj heq).2 (by simp)
      · cases between with
        | nil =>
          rw [← (List.cons.inj heq).1] at hname
          exact absurd rfl hname
        | cons a r =>
          have htail := (List.cons.inj heq).2
          cases r with
          | nil => exact (List.cons.inj htail).2.symm
          | cons b r => exact absurd (List.cons.inj htail).2 (by simp)
    rw [hnodes]
    refine ⟨fun front n rest heq hname => ?_, fun front n rest heq hname => ?_⟩
    · rcases split_append heq with ⟨between, hsplit, -⟩ | ⟨between, heq⟩
      · rw [has_of_split hsplit hname] at hremove
        exact absurd hremove (by simp)
      · exact hlast between n rest heq (by simp [hname])
    · rcases split_append heq with ⟨between, hsplit, rfl⟩ | ⟨between, heq⟩
      · -- behind `:xpath()` nothing but `:remove()` is added
        rw [has_of_split hsplit hname, Bool.true_and, bne_eq_false_iff_eq] at hxpath
        rw [ih.eq_nil_of_xpath hremove hsplit hname, List.nil_append]
        rw [hxpath] at hm
        exact Or.inr ⟨m, hm, hmore⟩
      · exact Or.inl (hlast between n rest heq (by simp [hname]))

theorem IsComplete.endsAtRemoval {ns : List Node} (h : IsComplete inner s ns) :
    EndsAtRemoval ns := by
  obtain ⟨d, d', hgrown, hcut, -, rfl⟩ := h
  rcases cutAtEnd_cases hcut with ⟨-, hnodes⟩ | ⟨hremove, hxpath, hfragment⟩
  · rw [hnodes]
    exact hgrown.endsAtRemoval
  · -- with a fragment at the end there is neither `:remove()` nor `:xpath()`
    have hnone : ∀ name front n rest, d.has name = false → d'.nodes = front ++ n :: rest →
        n.name? ≠ some name := by
      intro name front n rest hhas heq hname
      rw [nodes_of_addFragment hfragment] at heq
      rcases split_append heq with ⟨between, hsplit, -⟩ | ⟨between, heq⟩
      · rw [has_of_split hsplit hname] at hhas
        exact absurd hhas (by simp)
      · have hmem : n ∈ [Node.fragment (Text.trimEnd d.pending)] := by
          rw [heq]
          simp
        rw [List.mem_singleton.mp hmem] at hname
        exact absurd hname (by simp [Node.name?])
    exact ⟨fun front n rest heq hname => absurd hname (hnone .remove front n rest hremove heq),
      fun front n rest heq hname => absurd hname (hnone .xpath front n rest hxpath heq)⟩

/-- In a selector that is read, at every depth, nothing follows `:remove()`, and behind `:xpath()`
there is at most `:remove()`, with or without a fragment between. -/
theorem endsAtRemoval_of_occurs {t : Text} {sel : Selector} (h : Selector.ofText t = .ok sel)
    {path : List Name} {cs : List (List Node)} (hcs : Occurs sel.branches path cs) :
    ∀ ns ∈ cs, EndsAtRemoval ns := by
  obtain ⟨a, ha⟩ := exists_readAll_of_occurs (Selector.ofText_eq_ok.mp h) hcs
  exact fun ns hns => ((isComplete_of_readAll ha).2 ns hns).endsAtRemoval

/-- Both behind one another. -/
theorem endsAtRemoval_xpath_remove :
    EndsAtRemoval [.fragment "*".toList, .textual .xpath "//a".toList, .textual .remove []] := by
  have hread : Selector.ofText ":xpath(//a):remove()".toList =
      .ok ⟨[[.fragment "*".toList, .textual .xpath "//a".toList, .textual .remove []]]⟩ := by
    decide +kernel
  exact endsAtRemoval_of_occurs hread .self _ (List.mem_singleton_self _)

/-- Not only `:remove()` follows `:xpath()`: a fragment in front of it does as well. -/
theorem not_remove_of_xpath :
    ¬ ∀ (t : Text) (sel : Selector), Selector.ofText t = .ok sel →
      ∀ (path : List Name) (cs : List (List Node)), Occurs sel.branches path cs → ∀ ns ∈ cs,
        (∀ front n rest, ns = front ++ n :: rest → n.name? = some .remove → rest = []) ∧
        ∀ front n rest, ns = front ++ n :: rest → n.name? = some .xpath →
          rest = [] ∨ ∃ m, m.name? = some .remove ∧ rest = [m] := by
  intro h
  have hread : Selector.ofText ":xpath(//a) b:remove()".toList =
      .ok ⟨[[.fragment "*".toList, .textual .xpath "//a".toList, .fragment " b".toList,
        .textual .remove []]]⟩ := by
    decide +kernel
  obtain ⟨-, hxpath⟩ := h _ _ hread [] _ .self _ (List.mem_singleton_self _)
  rcases hxpath [.fragment "*".toList] (.textual .xpath "//a".toList)
    [.fragment " b".toList, .textual .remove []] rfl rfl with hnil | ⟨m, -, heq⟩
  · exact absurd hnil (by simp)
  · exact absurd (List.cons.inj heq).2 (by simp)

end Extended
end CosmeticFilter
