import CosmeticFilter.Proofs.Extended.WrittenBranch

/-!
# The characters of fragments

Reading adds two characters to what a text is made of: a space for a blank, and an asterisk where no
element is named. Every other character of a fragment stands in the text. So what holds of a space,
of an asterisk and of all characters of the text holds of all characters of its fragments; above all
a text without backslashes has fragments without backslashes.

* `forall_text_piecesFrom`: the characters of pieces;
* `Draft.IsMadeOf`: the characters of a branch, and what keeps them;
* `forall_mem_fragment_of_readAll`: the characters of all fragments outside arguments.
-/

namespace CosmeticFilter
namespace Extended

variable {inner : BranchReader} {s : Scope} {P : Char → Prop}

/-! ### Pieces -/

theorem forall_text_release {h : Held} (hh : ∀ c ∈ h.text, P c) :
    ∀ q ∈ h.release, ∀ c ∈ q.text, P c := by
  intro q hq c hc
  refine hh c ?_
  rw [← flatMap_text_release]
  exact List.mem_flatMap_of_mem hq hc

/-- A chunk that starts anew is made of its characters, but for a blank. -/
theorem forall_text_restart (hspace : P ' ') {k : Chunk} (hk : ∀ c ∈ k.text, P c) :
    (∀ q ∈ (Held.restart k).1, ∀ c ∈ q.text, P c) ∧ ∀ c ∈ (Held.restart k).2.text, P c := by
  cases k with
  | mark c =>
    have hc : P c := hk c (List.mem_singleton_self c)
    unfold Held.restart
    by_cases hcolon : c = ':'
    · simpa [hcolon, Held.text] using hcolon ▸ hc
    · simp only [hcolon, if_false, Held.text, List.not_mem_nil, false_imp_iff, implies_true,
        and_true, List.mem_singleton, forall_eq]
      unfold Piece.ofMark
      split
      · simp [Piece.text]
      · split
        · simp [Piece.text]
        · split <;> simpa [Piece.text]
  | word w => simpa [Held.restart, Held.text, Piece.text, Chunk.text] using hk
  | group g content closed =>
    cases closed with
    | false => cases g <;> simp [Held.restart, Held.text, Piece.ofGroup, Piece.text]
    | true =>
      cases g <;> simpa [Held.restart, Held.text, Piece.ofGroup, Piece.text, Chunk.text,
        Group.opening, Group.closing, or_imp, forall_and] using hk

/-- One chunk: what is complete and what is held back are made of what was held back and of the
chunk. -/
theorem forall_text_feed (hspace : P ' ') {h : Held} (hh : ∀ c ∈ h.text, P c) {k : Chunk}
    (hk : ∀ c ∈ k.text, P c) :
    (∀ q ∈ (h.feed k).1, ∀ c ∈ q.text, P c) ∧ ∀ c ∈ (h.feed k).2.text, P c := by
  rcases h.feed_cases k with heq | ⟨rfl, rfl, heq⟩ | ⟨name, rfl, rfl, heq⟩ | ⟨name, rfl, rfl, heq⟩ |
    ⟨name, content, closed, rfl, rfl, heq⟩ | ⟨name, content, closed, rfl, rfl, heq⟩
  · rw [heq]
    refine ⟨fun q hq => ?_, (forall_text_restart hspace hk).2⟩
    rcases List.mem_append.mp hq with hq | hq
    · exact forall_text_release hh q hq
    · exact (forall_text_restart hspace hk).1 q hq
  · simpa [heq, Held.text] using hh
  · simpa [heq, Held.text, Chunk.text] using And.intro (hh ':' (List.mem_cons_self ..)) hk
  · simpa [heq, Held.text, Chunk.text] using And.intro (hh ':' (List.mem_cons_self ..)) hk
  · cases closed <;>
      simp_all [Held.text, Piece.text, Argument.ofGroup, Argument.text, Chunk.text,
        Group.opening, Group.closing, or_imp, forall_and]
  · cases closed <;>
      simp_all [Held.text, Piece.text, Argument.ofGroup, Argument.text, Chunk.text,
        Group.opening, Group.closing, or_imp, forall_and]

/-- Pieces are made of the characters of their chunks, and of spaces. -/
theorem forall_text_piecesFrom (hspace : P ' ') {ks : List Chunk}
    (hks : ∀ k ∈ ks, ∀ c ∈ k.text, P c) {h : Held} (hh : ∀ c ∈ h.text, P c) :
    ∀ q ∈ piecesFrom h ks, ∀ c ∈ q.text, P c := by
  induction ks generalizing h with
  | nil => exact forall_text_release hh
  | cons k r ih =>
    obtain ⟨hk, hr⟩ := List.forall_mem_cons.mp hks
    obtain ⟨hcomplete, hheld⟩ := forall_text_feed hspace hh hk
    intro q hq
    rcases List.mem_append.mp hq with hq | hq
    · exact hcomplete q hq
    · exact ih hr hheld q hq

theorem forall_text_pieces (hspace : P ' ') {t : Text} (ht : ∀ c ∈ t, P c) :
    ∀ q ∈ piecesFrom .nothing (chunks (Text.trim t)), ∀ c ∈ q.text, P c := by
  refine forall_text_piecesFrom hspace (fun k hk c hc => ht c ?_) fun c hc =>
    absurd hc List.not_mem_nil
  have htrim : c ∈ Text.trim t := by
    rw [← flatMap_text_chunks (Text.trim t)]
    exact List.mem_flatMap_of_mem hk hc
  exact (Text.infix_trim t).mem htrim

/-! ### Branches -/

/-- The fragments of the nodes are made of these characters. -/
def AreMadeOf (P : Char → Prop) (ns : List Node) : Prop :=
  ∀ f, .fragment f ∈ ns → ∀ c ∈ f, P c

/-- So is what is pending. -/
structure Draft.IsMadeOf (P : Char → Prop) (d : Draft) : Prop where
  /-- The fragments. -/
  nodes : AreMadeOf P d.nodes
  /-- The text that is no fragment yet. -/
  pending : ∀ c ∈ d.pending, P c

theorem AreMadeOf.concat_fragment {ns : List Node} (h : AreMadeOf P ns) {f : Text}
    (hf : ∀ c ∈ f, P c) : AreMadeOf P (ns ++ [.fragment f]) := by
  intro g hg
  rcases List.mem_append.mp hg with hg | hg
  · exact h g hg
  · rw [Node.fragment.inj (List.mem_singleton.mp hg)]
    exact hf

theorem AreMadeOf.concat_named {ns : List Node} (h : AreMadeOf P ns) {n : Node} {name : Name}
    (hn : n.name? = some name) : AreMadeOf P (ns ++ [n]) := by
  intro g hg
  rcases List.mem_append.mp hg with hg | hg
  · exact h g hg
  · rw [← List.mem_singleton.mp hg] at hn
    exact absurd hn (by simp [Node.name?])

namespace Draft.IsMadeOf

variable {d d' : Draft}

theorem addText (h : d.IsMadeOf P) {q : Piece} (hq : ∀ c ∈ q.text, P c) :
    (d.addText q).IsMadeOf P := by
  have hwrite : ∀ t : Text, (∀ c ∈ t, P c) → ∀ c ∈ d.pending ++ t, P c := fun t ht c hc =>
    (List.mem_append.mp hc).elim (h.pending c) (ht c)
  refine ⟨by rw [addText_nodes]; exact h.nodes, ?_⟩
  unfold Draft.addText
  by_cases hspace : q = .space
  · rw [if_pos hspace]
    unfold writeSpace
    split
    · exact h.pending
    · subst hspace
      exact hwrite _ hq
  · rw [if_neg hspace]
    exact hwrite _ hq

theorem addExtended (hstar : P '*') (h : d.IsMadeOf P) {name : Name} {argument : Text}
    (hadd : d.addExtended inner s name argument = .ok d') : d'.IsMadeOf P := by
  obtain ⟨-, -, cut, n, hcut, hn, rfl⟩ := addExtended_eq_ok.mp hadd
  have htext : ∀ c ∈ d.cutText, P c := by
    rcases cutText_cases d with heq | ⟨heq, -⟩
    · rw [heq]
      intro c hc
      rcases List.mem_append.mp hc with hc | hc
      · exact h.pending c hc
      · rw [List.mem_singleton.mp hc]
        exact hstar
    · rw [heq]
      exact h.pending
  obtain rfl := cutBeforeExtended_eq_ok hcut
  refine ⟨AreMadeOf.concat_named ?_ (name?_of_nodeOf hn), fun c hc => absurd hc List.not_mem_nil⟩
  show AreMadeOf P (d.nodes ++ if d.cutText = [] then [] else [.fragment d.cutText])
  split
  · rw [List.append_nil]
    exact h.nodes
  · exact h.nodes.concat_fragment htext

theorem cutAtEnd (h : d.IsMadeOf P) (hcut : d.cutAtEnd s = .ok d') : AreMadeOf P d'.nodes := by
  rw [nodes_of_cutAtEnd hcut]
  split
  · rw [List.append_nil]
    exact h.nodes
  · obtain ⟨x, -, hx⟩ := Text.exists_append_trimEnd d.pending
    refine h.nodes.concat_fragment fun c hc => h.pending c ?_
    rw [hx]
    exact List.mem_append_left _ hc

end Draft.IsMadeOf

/-- The branch that is read and those before it are made of these characters. -/
structure Progress.IsMadeOf (P : Char → Prop) (p : Progress) : Prop where
  /-- The branch that is being read. -/
  draft : p.draft.IsMadeOf P
  /-- The branches before it. -/
  branches : ∀ ns ∈ p.branches, AreMadeOf P ns

namespace Progress.IsMadeOf

variable {p p' : Progress}

theorem start : Progress.start.IsMadeOf P :=
  ⟨⟨fun _ hf => absurd hf List.not_mem_nil, fun _ hc => absurd hc List.not_mem_nil⟩,
    fun _ hns => absurd hns List.not_mem_nil⟩

theorem endBranch (h : p.IsMadeOf P) {branches : List (List Node)}
    (hend : p.endBranch s = .ok branches) : ∀ ns ∈ branches, AreMadeOf P ns := by
  obtain ⟨d, hcut, -, rfl⟩ := endBranch_eq_ok.mp hend
  intro ns hns
  rcases List.mem_append.mp hns with hns | hns
  · exact h.branches ns hns
  · rw [List.mem_singleton.mp hns]
    exact h.draft.cutAtEnd hcut

theorem step (hstar : P '*') (h : p.IsMadeOf P) {q : Piece} (hq : ∀ c ∈ q.text, P c)
    (hstep : p.step inner s q = .ok p') : p'.IsMadeOf P := by
  rcases step_inversion hstep with ⟨-, rfl⟩ | ⟨-, branches, hend, rfl⟩ | ⟨_, _, d, hadd, rfl⟩
  · exact ⟨h.draft.addText hq, h.branches⟩
  · exact ⟨start.draft, h.endBranch hend⟩
  · exact ⟨h.draft.addExtended hstar hadd, h.branches⟩

theorem run (hstar : P '*') {qs : List Piece} (hqs : ∀ q ∈ qs, ∀ c ∈ q.text, P c)
    (h : p.IsMadeOf P) (hrun : qs.foldlM (Progress.step inner s) p = .ok p') :
    p'.IsMadeOf P := by
  induction qs generalizing p with
  | nil => exact Except.ok.inj hrun ▸ h
  | cons q r ih =>
    obtain ⟨hq, hr⟩ := List.forall_mem_cons.mp hqs
    obtain ⟨mid, hstep, hrest⟩ := foldlM_cons_eq_ok.mp hrun
    exact ih hr (h.step hstar hq hstep) hrest

end Progress.IsMadeOf

/-- **The fragments of a text** are made of its characters, of spaces and of asterisks. -/
theorem forall_mem_fragment_of_readAll {t : Text} {bs : List (List Node)}
    (hread : readAll s t = .ok bs) (hspace : P ' ') (hstar : P '*') (ht : ∀ c ∈ t, P c) :
    ∀ ns ∈ bs, ∀ f, .fragment f ∈ ns → ∀ c ∈ f, P c := by
  obtain ⟨p, hrun, hend⟩ := readAll_eq_ok.mp hread
  exact (Progress.IsMadeOf.start.run hstar (forall_text_pieces hspace ht) hrun).endBranch hend

end Extended
end CosmeticFilter
