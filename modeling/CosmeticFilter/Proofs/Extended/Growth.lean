import CosmeticFilter.Proofs.Css.Alternatives
import CosmeticFilter.Proofs.Extended.NativeText

/-!
# How a branch grows

A branch is read in steps of two kinds: native text is added to what is pending, or an extended
pseudo-class is added behind it. What holds of the empty branch, is kept by both steps, and survives
the cut at the end holds of every branch that is read; and since an argument is read by the same
rules, it holds of the branches at every depth.

* `Draft.IsGrown`: the branch has come about by such steps;
* `IsComplete`: what the cut at the end leaves of such a branch;
* `isComplete_of_readAll`: all branches that are read are complete;
* `Node.IsAdmitted`, `IsComplete.isAdmitted`: what is known of each node;
* `Occurs`, `exists_readAll_of_occurs`: the lists of branches at all depths, and their texts.
-/

namespace CosmeticFilter
namespace Extended

variable {inner : BranchReader} {s : Scope}

/-! ### Steps -/

/-- The branch has come about step by step. -/
inductive Draft.IsGrown (inner : BranchReader) (s : Scope) : Draft → Prop where
  /-- Nothing has been read. -/
  | empty : IsGrown inner s .empty
  /-- Native text has been added. -/
  | addText {d : Draft} {q : Piece} : IsGrown inner s d → q.IsNative inner s →
      IsGrown inner s (d.addText q)
  /-- An extended pseudo-class has been added. -/
  | addExtended {d d' : Draft} {name : Name} {argument : Text} : IsGrown inner s d →
      d.addExtended inner s name argument = .ok d' → IsGrown inner s d'

/-- The nodes are what the end of a branch leaves of a draft. -/
def IsComplete (inner : BranchReader) (s : Scope) (ns : List Node) : Prop :=
  ∃ d d' : Draft, d.IsGrown inner s ∧ d.cutAtEnd s = .ok d' ∧ d'.nodes ≠ [] ∧ ns = d'.nodes

/-- The branch that is read has come about step by step, and those before it are complete. -/
structure Progress.IsGrown (inner : BranchReader) (s : Scope) (p : Progress) : Prop where
  /-- The branch that is being read. -/
  draft : p.draft.IsGrown inner s
  /-- The branches before it. -/
  branches : ∀ ns ∈ p.branches, IsComplete inner s ns

theorem Progress.isGrown_start : Progress.start.IsGrown inner s :=
  ⟨.empty, fun _ hns => absurd hns List.not_mem_nil⟩

/-- Completing a branch adds it to the others. -/
theorem Progress.IsGrown.endBranch {p : Progress} (h : p.IsGrown inner s)
    {branches : List (List Node)} (hend : p.endBranch s = .ok branches) :
    branches ≠ [] ∧ ∀ ns ∈ branches, IsComplete inner s ns := by
  obtain ⟨d, hcut, hne, rfl⟩ := endBranch_eq_ok.mp hend
  refine ⟨List.append_ne_nil_of_right_ne_nil _ (List.cons_ne_nil _ _), fun ns hns => ?_⟩
  rcases List.mem_append.mp hns with hns | hns
  · exact h.branches ns hns
  · exact ⟨p.draft, d, h.draft, hcut, hne, List.mem_singleton.mp hns⟩

theorem Progress.IsGrown.step {p p' : Progress} (h : p.IsGrown inner s) {q : Piece}
    (hstep : p.step inner s q = .ok p') : p'.IsGrown inner s := by
  rcases step_inversion hstep with ⟨hq, rfl⟩ | ⟨-, branches, hend, rfl⟩ | ⟨_, _, d, hadd, rfl⟩
  · exact ⟨h.draft.addText hq, h.branches⟩
  · exact ⟨.empty, (h.endBranch hend).2⟩
  · exact ⟨h.draft.addExtended hadd, h.branches⟩

theorem Progress.IsGrown.run {p p' : Progress} (h : p.IsGrown inner s) {qs : List Piece}
    (hrun : qs.foldlM (Progress.step inner s) p = .ok p') : p'.IsGrown inner s :=
  foldlM_keeps (fun hp hstep => hp.step hstep) h hrun

/-- There is a branch, and all branches that are read are complete. -/
theorem isComplete_of_readAll {t : Text} {cs : List (List Node)} (h : readAll s t = .ok cs) :
    cs ≠ [] ∧ ∀ ns ∈ cs, IsComplete readAll s ns := by
  obtain ⟨p, hrun, hend⟩ := readAll_eq_ok.mp h
  exact (Progress.isGrown_start.run hrun).endBranch hend

/-! ### Nodes -/

/-- The name may stand in the scope. -/
structure Scope.Allows (s : Scope) (name : Name) : Prop where
  /-- Inside `:has()` there is no `:has()` and no `:is()`. -/
  has : s.inHas = true → name.isHasFamily = false ∧ name.isIsFamily = false
  /-- Inside an argument there is no `:remove()`. -/
  remove : s.isArgument = true → name ≠ .remove

/-- A fragment is a native selector; any other node is made of a name that the scope allows, and of
an argument. -/
inductive Node.IsAdmitted (inner : BranchReader) (s : Scope) : Node → Prop where
  /-- A native selector. -/
  | fragment {t : Text} {S : Css.Selector} : Css.Selector.ofText (Text.trim t) = .ok S →
      IsAdmitted inner s (.fragment t)
  /-- A pseudo-class. -/
  | extended {name : Name} {argument : Text} {n : Node} :
      Draft.nodeOf inner s name argument = .ok n → s.Allows name → IsAdmitted inner s n

theorem guard_eq_ok {ε α : Type} {b : Bool} {e : ε} {x : Except ε α} {a : α} :
    (if b then .error e else x) = .ok a ↔ b = false ∧ x = .ok a := by
  cases b <;> simp

/-- A pseudo-class may stand where no rule is broken. -/
theorem checkPlacement_eq_ok {d : Draft} {name : Name} :
    d.checkPlacement s name = .ok () ↔
      (d.afterElement && name.isScoped) = false ∧ d.has .remove = false ∧
        (d.has .xpath && name != .remove) = false ∧ (name == .remove && s.isArgument) = false ∧
        (s.inHas && name.isHasFamily) = false ∧ (s.inHas && name.isIsFamily) = false := by
  unfold Draft.checkPlacement
  rw [guard_eq_ok, guard_eq_ok, guard_eq_ok, guard_eq_ok, guard_eq_ok, guard_eq_ok]
  simp only [and_true]

theorem allows_of_checkPlacement {d : Draft} {name : Name}
    (h : d.checkPlacement s name = .ok ()) : s.Allows name := by
  obtain ⟨-, -, -, hremove, hhas, his⟩ := checkPlacement_eq_ok.mp h
  refine ⟨fun hin => ?_, fun hin => ?_⟩
  · rw [hin, Bool.true_and] at hhas his
    exact ⟨hhas, his⟩
  · rw [hin, Bool.and_true] at hremove
    exact beq_eq_false_iff_ne.mp hremove

/-- The text in front of a pseudo-class is added as a fragment, if there is any. There always is at
the start of a branch. -/
theorem cutBeforeExtended_cases {d cut : Draft} (h : d.cutBeforeExtended s = .ok cut) :
    (d.nodes ≠ [] ∧ d.pending = [] ∧ cut = d) ∨
      ∃ t, t ≠ [] ∧ d.addFragment s t = .ok cut := by
  unfold Draft.cutBeforeExtended at h
  simp only at h
  by_cases hopen : ((d.nodes.isEmpty && d.pending.isEmpty) || Draft.isOpenEnded d.pending) = true
  · rw [if_pos hopen, if_neg (by simp)] at h
    exact Or.inr ⟨_, by simp, h⟩
  · rw [if_neg hopen] at h
    by_cases hnil : d.pending = []
    · rw [if_pos hnil] at h
      refine Or.inl ⟨fun hnodes => ?_, hnil, (Except.ok.inj h).symm⟩
      rw [hnodes, hnil] at hopen
      exact hopen rfl
    · rw [if_neg hnil] at h
      exact Or.inr ⟨_, hnil, h⟩

/-- The text at the end of a branch is added as a fragment, if there is any; there is none behind
`:remove()` and `:xpath()`. -/
theorem cutAtEnd_cases {d d' : Draft} (h : d.cutAtEnd s = .ok d') :
    (Text.trimEnd d.pending = [] ∧ d'.nodes = d.nodes) ∨
      d.has .remove = false ∧ d.has .xpath = false ∧
        d.addFragment s (Text.trimEnd d.pending) = .ok d' := by
  unfold Draft.cutAtEnd at h
  simp only at h
  split at h
  · rename_i hnil
    exact Or.inl ⟨hnil, by rw [← Except.ok.inj h]⟩
  · split at h
    · exact absurd h (by simp)
    · rename_i hremove
      split at h
      · exact absurd h (by simp)
      · rename_i hxpath
        exact Or.inr ⟨Bool.not_eq_true _ ▸ hremove, Bool.not_eq_true _ ▸ hxpath, h⟩

theorem isAdmitted_of_addFragment {d d' : Draft} {t : Text} (h : d.addFragment s t = .ok d')
    (hd : ∀ n ∈ d.nodes, n.IsAdmitted inner s) : ∀ n ∈ d'.nodes, n.IsAdmitted inner s := by
  intro n hn
  rw [nodes_of_addFragment h] at hn
  rcases List.mem_append.mp hn with hn | hn
  · exact hd n hn
  · obtain ⟨⟨S, hread⟩, -⟩ := of_addFragment h
    rw [List.mem_singleton.mp hn]
    exact .fragment hread

theorem Draft.IsGrown.isAdmitted {d : Draft} (h : d.IsGrown inner s) :
    ∀ n ∈ d.nodes, n.IsAdmitted inner s := by
  induction h with
  | empty => exact fun n hn => absurd hn List.not_mem_nil
  | addText _ _ ih =>
    rw [addText_nodes]
    exact ih
  | addExtended _ hadd ih =>
    obtain ⟨hplace, -, cut, node, hcut, hnode, rfl⟩ := addExtended_eq_ok.mp hadd
    intro n hn
    rcases List.mem_append.mp hn with hn | hn
    · rcases cutBeforeExtended_cases hcut with ⟨-, -, rfl⟩ | ⟨t, -, hfragment⟩
      · exact ih n hn
      · exact isAdmitted_of_addFragment hfragment ih n hn
    · rw [List.mem_singleton.mp hn]
      exact .extended hnode (allows_of_checkPlacement hplace)

theorem IsComplete.isAdmitted {ns : List Node} (h : IsComplete inner s ns) :
    ∀ n ∈ ns, n.IsAdmitted inner s := by
  obtain ⟨d, d', hgrown, hcut, -, rfl⟩ := h
  rcases cutAtEnd_cases hcut with ⟨-, hnodes⟩ | ⟨-, -, hfragment⟩
  · rw [hnodes]
    exact hgrown.isAdmitted
  · exact isAdmitted_of_addFragment hfragment hgrown.isAdmitted

/-- The name of a node that is made of a name. -/
theorem name?_of_nodeOf {name : Name} {argument : Text} {n : Node}
    (h : Draft.nodeOf inner s name argument = .ok n) : n.name? = some name := by
  unfold Draft.nodeOf at h
  split at h
  · split at h
    · rw [← Except.ok.inj h]
      rfl
    · exact absurd h (by simp)
  · obtain ⟨branches, -, rfl⟩ := Outcome.map_eq_ok.mp h
    rfl

theorem Node.IsAdmitted.allows {n : Node} (h : n.IsAdmitted inner s) {name : Name}
    (hname : n.name? = some name) : s.Allows name := by
  cases h with
  | fragment _ => exact absurd hname (by simp [Node.name?])
  | extended hnode hallows =>
    obtain rfl := Option.some_inj.mp ((name?_of_nodeOf hnode).symm.trans hname)
    exact hallows

/-- A fragment is a native selector as it stands. -/
theorem Node.IsAdmitted.exists_ofText {t : Text} (h : (Node.fragment t).IsAdmitted inner s) :
    ∃ S, Css.Selector.ofText t = .ok S := by
  cases h with
  | fragment hread => exact ⟨_, (Css.ofText_trim t).symm.trans hread⟩
  | extended hnode _ => exact absurd (name?_of_nodeOf hnode) (by simp [Node.name?])

/-- The branches in a node have been read of some text, which is no number. -/
theorem Node.IsAdmitted.argumentKind {name : Name} {args : List (List Node)}
    (h : (Node.nested name args).IsAdmitted inner s) :
    ∃ a, name.argumentKind a = .relative ∧ inner (s.inside name) a = .ok args := by
  cases h with
  | @extended name' argument _ hnode _ =>
    unfold Draft.nodeOf at hnode
    split at hnode
    · split at hnode <;> exact absurd hnode (by simp)
    · rename_i hkind
      obtain ⟨branches, hread, heq⟩ := Outcome.map_eq_ok.mp hnode
      obtain ⟨rfl, rfl⟩ := Node.nested.inj heq
      exact ⟨argument, hkind, hread⟩

theorem Node.IsAdmitted.nested {name : Name} {args : List (List Node)}
    (h : (Node.nested name args).IsAdmitted inner s) :
    ∃ a, inner (s.inside name) a = .ok args := by
  obtain ⟨a, -, hread⟩ := h.argumentKind
  exact ⟨a, hread⟩

/-! ### All depths -/

/-- The lists of branches in a tree, with the names of the pseudo-classes they are arguments of, the
innermost one first. -/
inductive Occurs (bs : List (List Node)) : List Name → List (List Node) → Prop where
  /-- The tree itself. -/
  | self : Occurs bs [] bs
  /-- The argument of a pseudo-class. -/
  | argument {path : List Name} {cs : List (List Node)} {ns : List Node} {name : Name}
      {args : List (List Node)} : Occurs bs path cs → ns ∈ cs → .nested name args ∈ ns →
      Occurs bs (name :: path) args

/-- The scope of an argument inside these names. -/
def Scope.along (path : List Name) : Scope := path.foldr (fun name s => s.inside name) .top

@[simp] theorem Scope.along_nil : Scope.along [] = .top := rfl

@[simp] theorem Scope.along_cons (name : Name) (path : List Name) :
    Scope.along (name :: path) = (Scope.along path).inside name := rfl

@[simp] theorem Scope.inside_isArgument (s : Scope) (name : Name) :
    (s.inside name).isArgument = true := by
  unfold inside
  split <;> rfl

@[simp] theorem Scope.inside_inHas (s : Scope) (name : Name) :
    (s.inside name).inHas = (name.isHasFamily || s.inHas) := by
  unfold inside
  split <;> simp_all

@[simp] theorem Scope.inside_mayLead (s : Scope) (name : Name) :
    (s.inside name).mayLead = name.isHasFamily := by
  unfold inside
  split <;> simp_all

theorem Scope.along_isArgument {path : List Name} (h : path ≠ []) :
    (Scope.along path).isArgument = true := by
  obtain ⟨name, r, rfl⟩ := List.exists_cons_of_ne_nil h
  exact inside_isArgument _ _

theorem Scope.along_inHas (path : List Name) :
    (Scope.along path).inHas = path.any Name.isHasFamily := by
  induction path with
  | nil => rfl
  | cons name r ih => rw [along_cons, inside_inHas, ih, List.any_cons]

theorem Scope.along_mayLead (path : List Name) :
    (Scope.along path).mayLead = path.head?.any Name.isHasFamily := by
  cases path with
  | nil => rfl
  | cons name r => exact inside_mayLead _ _

/-- Every list of branches in a tree that is read has been read of some text, in its scope. -/
theorem exists_readAll_of_occurs {t : Text} {bs : List (List Node)} (h : readAll .top t = .ok bs)
    {path : List Name} {cs : List (List Node)} (hcs : Occurs bs path cs) :
    ∃ a, readAll (Scope.along path) a = .ok cs := by
  induction hcs with
  | self => exact ⟨t, h⟩
  | argument _ hns hnode ih =>
    obtain ⟨a, ha⟩ := ih
    exact (((isComplete_of_readAll ha).2 _ hns).isAdmitted _ hnode).nested

end Extended
end CosmeticFilter
