import CosmeticFilter.Proofs.Extended.Places
import CosmeticFilter.Proofs.Extended.Transparency
import CosmeticFilter.Proofs.Extended.WrittenBranch

/-!
# Fragments are single selectors

A fragment goes to the native engine as one selector: it is put behind `:scope`, and what it finds
is taken for the matches of one branch. So no comma may cut it. The reader of extended selectors has
cut at all commas that it sees outside groups, and none is left in a fragment; but the native list
is cut by a reader that has its own opinion on quotes, and may see a comma outside groups where the
first one saw it inside an argument. This does not happen where both readers end the arguments at
the same brackets.

* `IsWritten.mark_not_mem_chunks`: no comma of written text stands outside its groups;
* `AreWritten.isWritten_fragment`, `IsWrittenBranch.isWritten_fragment`: fragments are written text;
* `cut_eq_none_of_endsAlike`: where the readers agree, the native list is not cut;
* `exists_ofText_of_fragment`: each fragment at each depth is read, and when as one selector;
* `not_exists_ofText_of_fragment`: a fragment of two selectors.
-/

namespace CosmeticFilter
namespace Extended

variable {inner : BranchReader} {s : Scope} {b : Bool} {f t : Text}

/-! ### Commas in written text -/

/-- A mark other than a colon makes a piece of its own. -/
theorem ofMark_mem_piecesIn {c : Char} (hcolon : c ≠ ':') (h : .mark c ∈ chunks t) :
    Piece.ofMark c ∈ piecesIn t := by
  obtain ⟨ks, ls, hchunks⟩ := List.append_of_mem h
  rw [piecesIn, hchunks, piecesFrom_append, piecesFrom, feed_mark hcolon]
  simp

/-- A branch ends at each comma, so none stands in its text outside groups. -/
theorem IsWritten.mark_not_mem_chunks (h : IsWritten inner s b t) : .mark ',' ∉ chunks t := by
  intro hmem
  have hclean := (h.pieces _ (ofMark_mem_piecesIn (by decide) hmem)).isClean
  exact absurd hclean (by decide)

/-- The fragments of nodes that have been written are written text. -/
theorem AreWritten.isWritten_fragment {ns : List Node} {a : Bool} (h : AreWritten inner s ns a)
    (hf : .fragment f ∈ ns) : ∃ b, IsWritten inner s b f := by
  induction h with
  | nil => exact absurd hf List.not_mem_nil
  | weaken _ _ ih => exact ih hf
  | extended _ hwritten _ _ hcutText hadd ih =>
    obtain ⟨-, -, cut, node, hcut, hnode, rfl⟩ := addExtended_eq_ok.mp hadd
    obtain rfl := cutBeforeExtended_eq_ok hcut
    rw [hcutText] at hf
    simp only [List.mem_append, List.mem_singleton] at hf
    rcases hf with (hf | hf) | rfl
    · exact ih hf
    · split at hf
      · exact absurd hf List.not_mem_nil
      · obtain rfl := Node.fragment.inj (List.mem_singleton.mp hf)
        exact ⟨_, hwritten⟩
    · exact absurd (name?_of_nodeOf hnode) (by simp [Node.name?])

/-- So are those of a whole branch. -/
theorem IsWrittenBranch.isWritten_fragment {ns : List Node} (h : IsWrittenBranch inner s ns)
    (hf : .fragment f ∈ ns) : ∃ b, IsWritten inner s b f := by
  obtain ⟨ms, a, last, d, hms, hwritten, htrim, hcut, -, rfl⟩ := h
  rcases cutAtEnd_cases hcut with ⟨-, hnodes⟩ | ⟨-, -, hfragment⟩
  · rw [hnodes] at hf
    exact hms.isWritten_fragment hf
  · rw [nodes_of_addFragment hfragment] at hf
    rcases List.mem_append.mp hf with hf | hf
    · exact hms.isWritten_fragment hf
    · obtain rfl := Node.fragment.inj (List.mem_singleton.mp hf)
      rw [htrim]
      exact ⟨_, hwritten⟩

/-! ### Commas for the native reader -/

/-- A native list is one selector exactly if it is cut at no comma. -/
theorem length_alternatives_eq_one_iff {S : Css.Selector} (h : Css.Selector.ofText t = .ok S) :
    S.alternatives.length = 1 ↔ Nesting.cut .roundAndSquare (· == ',') .top t = none := by
  rw [← (Css.ofText_eq_ok.mp h).2.length_eq, Css.parts]
  refine ⟨Css.cut_eq_none_of_split, fun hcut => ?_⟩
  rw [Css.split_eq_of_cut hcut]
  rfl

/-- A comma that cuts the native list stands outside the groups of the text, if both readers end the
arguments alike. -/
theorem cut_eq_none_of_endsAlike {S : Css.Selector} (hread : Css.Selector.ofText t = .ok S)
    (hcomma : .mark ',' ∉ chunks t) (halike : endsAlike t = true) :
    Nesting.cut .roundAndSquare (· == ',') .top t = none := by
  cases hcut : Nesting.cut .roundAndSquare (· == ',') .top t with
  | none => rfl
  | some found =>
    obtain ⟨first, c, rest⟩ := found
    obtain ⟨rfl, hparts, htop⟩ := Css.parts_of_cut hcut
    obtain ⟨x, hx⟩ := (Css.exists_ofText_iff.mp ⟨S, hread⟩).2 first
      (hparts ▸ List.mem_cons_self)
    have hescape : endsInEscape first = false := by
      rw [← Nesting.settled_top.escaped_after (b := .roundAndSquare) first, htop]
      rfl
    exact absurd (mark_mem_chunks (by decide) (by decide) (by decide) halike hescape hx) hcomma

/-! ### Fragments at all depths -/

/-- Every fragment of a tree is native, and one selector exactly if the native reader sees no comma
outside strings and brackets. It sees none if both readers end the arguments alike, so in particular
if there are no quotes. -/
theorem exists_ofText_of_fragment {sel : Selector} (h : Selector.ofText t = .ok sel)
    {path : List Name} {cs : List (List Node)} {ns : List Node}
    (hcs : Occurs sel.branches path cs) (hns : ns ∈ cs) (hf : .fragment f ∈ ns) :
    ∃ S, Css.Selector.ofText (Text.trim f) = .ok S ∧
      (S.alternatives.length = 1 ↔ Nesting.cut .roundAndSquare (· == ',') .top f = none) ∧
      (endsAlike f = true → S.alternatives.length = 1) ∧
      ((∀ c ∈ f, c ≠ '"' ∧ c ≠ '\'') → S.alternatives.length = 1) := by
  obtain ⟨a, ha⟩ := exists_readAll_of_occurs (Selector.ofText_eq_ok.mp h) hcs
  obtain ⟨S, hS⟩ := (((isComplete_of_readAll ha).2 ns hns).isAdmitted _ hf).exists_ofText
  obtain ⟨b, hwritten⟩ := (isWrittenBranch_of_readAll ha ns hns).isWritten_fragment hf
  have hsingle := length_alternatives_eq_one_iff hS
  have halike : endsAlike f = true → S.alternatives.length = 1 := fun halike =>
    hsingle.mpr (cut_eq_none_of_endsAlike hS hwritten.mark_not_mem_chunks halike)
  exact ⟨S, (Css.ofText_trim f).trans hS, hsingle, halike,
    fun hquotes => halike (endsAlike_of_no_quotes hwritten.closed hquotes)⟩

/-- A comma in a string, in the argument of `:has()`. -/
theorem exists_ofText_of_fragment_quoted :
    Selector.ofText "div:has(> p:lang(\"a,b\"))".toList =
        .ok ⟨[[.fragment "div".toList, .nested .has [[.fragment "> p:lang(\"a,b\")".toList]]]]⟩ ∧
      endsAlike "> p:lang(\"a,b\")".toList = true ∧
      ∃ S, Css.Selector.ofText (Text.trim "> p:lang(\"a,b\")".toList) = .ok S ∧
        S.alternatives.length = 1 := by
  have hread : Selector.ofText "div:has(> p:lang(\"a,b\"))".toList =
      .ok ⟨[[.fragment "div".toList, .nested .has [[.fragment "> p:lang(\"a,b\")".toList]]]]⟩ := by
    decide +kernel
  have halike : endsAlike "> p:lang(\"a,b\")".toList = true := by decide +kernel
  obtain ⟨S, hS, -, hsingle, -⟩ := exists_ofText_of_fragment hread
    (.argument .self (List.mem_singleton_self _)
      (List.mem_cons_of_mem _ (List.mem_singleton_self _)))
    (List.mem_singleton_self _) (List.mem_singleton_self _)
  exact ⟨hread, halike, S, hS, hsingle halike⟩

/-- The first reader sees one argument up to the last bracket, with a string from the blank on that
hides the comma. For the native reader a string that starts in front of the blank ends there. -/
theorem not_exists_ofText_of_fragment :
    ¬ ∀ (t : Text) (sel : Selector), Selector.ofText t = .ok sel →
      ∀ path cs ns f, Occurs sel.branches path cs → ns ∈ cs → .fragment f ∈ ns →
        ∃ x, Css.Selector.ofText (Text.trim f) = .ok ⟨[x]⟩ := by
  intro h
  have hread : Selector.ofText "x:lang(a' 'b),y:lang(c'd')".toList =
      .ok ⟨[[.fragment "x:lang(a' 'b),y:lang(c'd')".toList]]⟩ := by decide +kernel
  obtain ⟨x, hx⟩ := h _ _ hread _ _ _ _ .self (List.mem_singleton_self _)
    (List.mem_singleton_self _)
  have htwo : Css.Selector.ofText (Text.trim "x:lang(a' 'b),y:lang(c'd')".toList) =
      .ok ⟨[⟨[.tag "x".toList, .pseudo (.lang "a' 'b".toList)], []⟩,
        ⟨[.tag "y".toList, .pseudo (.lang "c'd".toList)], []⟩]⟩ := by decide +kernel
  rw [htwo] at hx
  exact absurd hx (by simp)

end Extended
end CosmeticFilter
