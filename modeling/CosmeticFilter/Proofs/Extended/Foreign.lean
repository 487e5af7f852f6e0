import CosmeticFilter.Proofs.Css.Foreign
import CosmeticFilter.Proofs.Extended.WrittenBranch

/-!
# Characters that no extended selector goes on with

What holds of a native selector holds of an extended one: behind a complete selector, a character
that belongs to no name and is no mark is an error, whatever comes after it. The character goes on
with the last word of the selector, or it starts a word of its own. Either way it becomes pending
behind text that the branch could be completed with. Nothing that is read later takes it away, and
the fragment that is cut in the end would start with a native selector and a foreign character.

* `isIdentChar_of_step`: the names of pseudo-classes have no foreign characters;
* `IsRefused`, `IsRefused.run`: what is pending starts like no selector, and this stays so;
* `IsRefused.word`: a word goes on with a character that makes it so;
* `Progress.EndsLike`: blanks at the end of a branch do not count;
* `Stands`: a text has been read up to its end, and the branch could be completed there;
* `Stands.isRefused`: a foreign character behind such a text;
* `not_readAll_append`: a selector is none any more when a foreign character follows.
-/

namespace CosmeticFilter
namespace Extended

open Css (isForeign isIdentChar)

variable {inner : BranchReader} {s : Scope} {c : Char} {t : Text} {p p' : Progress}

/-! ### Names of pseudo-classes -/

theorem isIdentChar_of_lower (h : (Text.lower t).all isIdentChar = true) :
    ∀ c ∈ t, isIdentChar c = true := fun _ hc =>
  Css.isIdentChar_of_toLower (List.all_eq_true.mp h _ (List.mem_map_of_mem hc))

/-- An extended pseudo-class has a name of name characters that are no blanks. -/
theorem isIdentChar_of_ofText? {name : Text} {n : Name} (h : Name.ofText? name = some n) :
    ∀ c ∈ name, isIdentChar c = true ∧ Text.isBlank c = false := by
  have hlower := Name.lower_of_ofText? h
  refine fun c hc => ⟨isIdentChar_of_lower ?_ c hc, Text.not_blank_of_lower ?_ c hc⟩
  · rw [hlower]
    cases n <;> decide
  · rw [hlower]
    exact Text.not_blank_of_any (by cases n <;> decide)

/-- A pseudo-class that is read has a name of name characters. -/
theorem isIdentChar_of_step {name : Text} {argument : Argument}
    (h : p.step inner s (.pseudoClass name argument) = .ok p') :
    ∀ c ∈ name, isIdentChar c = true := by
  refine isIdentChar_of_lower ?_
  obtain ⟨d, hadd, -⟩ := Outcome.map_eq_ok.mp h
  unfold Draft.addPseudoClass at hadd
  cases hname : Name.ofText? name with
  | some n =>
    rw [Name.lower_of_ofText? hname]
    cases n <;> decide
  | none =>
    rw [hname] at hadd
    simp only at hadd
    split at hadd
    · rename_i hknown
      exact prop_of_isPseudoClass (P := fun n => n.all isIdentChar = true) hknown
        (by decide +kernel)
    · exact absurd hadd (by simp)

/-! ### Runs -/

theorem isClosed_of_run {h : Held} {ks : List Chunk} (hrun : run inner s h p ks = .ok p') :
    ∀ k ∈ ks, k.isClosed = true :=
  isClosed_of_piecesFrom fun _ hq =>
    let ⟨_, _, hstep⟩ := exists_step_of_mem hq hrun
    isClean_of_step hstep

/-- What the chunks of a text complete, something else being held back in the end. The colon stands
for a text that goes on with a mark; without it, a backslash could wait at the end. -/
theorem Progress.Reads.run_completed {h : Held} (hp : p.Reads inner s h (t ++ [':']))
    (hescape : endsInEscape t = false)
    (hrun : (completed h (chunks t)).foldlM (Progress.step inner s) p = .ok p') :
    p'.Reads inner s (heldAfter h (chunks t)) [':'] := by
  induction t using cut_induction generalizing h p with
  | nil =>
    rw [chunks_nil] at hrun ⊢
    obtain rfl := Except.ok.inj hrun
    exact hp
  | cons k r hchunks hcut ih =>
    rw [hchunks, completed] at hrun
    obtain ⟨mid, hstep, hrest⟩ := foldlM_append_eq_ok.mp hrun
    have hk : endsInEscape k.text = false := by
      by_cases hr : r = []
      · rwa [hr, List.append_nil] at hescape
      · exact hcut.escape hr
    have hcut' : k.IsCut (r ++ [':']) := by
      refine ⟨hcut.text_ne_nil, hcut.chunks_text, fun hword => ?_, fun _ => hk⟩
      cases r with
      | nil => rfl
      | cons c r => exact hcut.seam hword
    rw [List.append_assoc] at hp
    rw [endsInEscape_append hk] at hescape
    rw [hchunks]
    exact ih (hp.step hcut' hstep) hescape hrest

/-- If no backslash waits at the end of a text, then none waits at the end of what is pending. -/
theorem endsInEscape_pending (hescape : endsInEscape t = false)
    (hrun : (piecesIn t).foldlM (Progress.step inner s) .start = .ok p) :
    endsInEscape p.draft.pending = false := by
  rw [piecesIn_eq] at hrun
  obtain ⟨mid, hcompleted, hrelease⟩ := foldlM_append_eq_ok.mp hrun
  have hstart : Progress.start.Reads inner s .nothing (t ++ [':']) :=
    ⟨reads_empty _, fun _ hns => absurd hns List.not_mem_nil⟩
  have hmid := (hstart.run_completed hescape hcompleted).draft
  have hpending := hmid.escape (List.cons_ne_nil _ _)
  change endsInEscape (mid.draft.pending ++ (heldIn t).text) = false at hpending
  by_cases hne : heldIn t = .nothing
  · rw [hne] at hrelease hpending
    obtain rfl := Except.ok.inj hrelease
    rwa [Held.text, List.append_nil] at hpending
  · obtain ⟨-, -, hnil | ⟨htext, -⟩⟩ := hmid.release hne hrelease
    · rw [hnil]
      rfl
    · rw [htext]
      exact hpending

/-! ### Refused text -/

/-- No selector starts like the text. -/
def IsRefused (t : Text) : Prop := ∀ u S, Css.Selector.ofText (t ++ u) ≠ .ok S

namespace IsRefused

theorem append (h : IsRefused t) (u : Text) : IsRefused (t ++ u) := by
  intro v S
  rw [List.append_assoc]
  exact h _ S

theorem not_ofText (h : IsRefused t) (S : Css.Selector) :
    Css.Selector.ofText (Text.trim t) ≠ .ok S := by
  rw [Css.ofText_trim, ← List.append_nil t]
  exact h [] S

theorem trimEnd_ne_nil (h : IsRefused t) : Text.trimEnd t ≠ [] := by
  intro hnil
  -- blanks in front of a selector do not count
  have hblank : Text.trim (t ++ ['*']) = Text.trim ['*'] :=
    Text.trim_blank_append (Text.trimEnd_eq_nil_iff.mp hnil) ['*']
  have hread := Css.ofText_asterisk
  rw [← Css.ofText_trim, ← hblank, Css.ofText_trim] at hread
  exact h _ _ hread

theorem not_addFragment (h : IsRefused t) (d d' : Draft) : d.addFragment s t ≠ .ok d' := by
  intro hadd
  obtain ⟨⟨S, hread⟩, -⟩ := of_addFragment hadd
  exact h.not_ofText S hread

/-- The branch cannot be completed. -/
theorem not_endBranch (h : IsRefused p.draft.pending) (bs : List (List Node)) :
    p.endBranch s ≠ .ok bs := by
  intro hend
  obtain ⟨d, hcut, -⟩ := endBranch_eq_ok.mp hend
  rcases cutAtEnd_cases hcut with ⟨hnil, -⟩ | ⟨-, -, hadd⟩
  · exact h.trimEnd_ne_nil hnil
  · obtain ⟨⟨S, hread⟩, -⟩ := of_addFragment hadd
    rw [Text.trim_trimEnd] at hread
    exact h.not_ofText S hread

/-- No pseudo-class can stand behind refused text, so that native text is added to it at most. -/
theorem step (h : IsRefused p.draft.pending) {q : Piece} (hstep : p.step inner s q = .ok p') :
    IsRefused p'.draft.pending := by
  rcases step_inversion hstep with ⟨-, rfl⟩ | ⟨-, bs, hend, -⟩ | ⟨name, argument, d, hadd, -⟩
  · by_cases hq : q = .space
    · unfold Progress.addText Draft.addText
      rw [if_pos hq]
      unfold Draft.writeSpace
      split
      · exact h
      · exact h.append [' ']
    · rw [Progress.addText, addText_pending hq]
      exact h.append q.text
  · exact absurd hend (h.not_endBranch bs)
  · obtain ⟨-, -, cut, -, hcut, -⟩ := addExtended_eq_ok.mp hadd
    have htext : IsRefused p.draft.cutText := by
      rcases cutText_cases p.draft with hstar | ⟨hsame, -⟩
      · rw [hstar]
        exact h.append ['*']
      · rwa [hsame]
    have hne : p.draft.cutText ≠ [] := fun hnil => htext.trimEnd_ne_nil (by rw [hnil]; rfl)
    rw [cutBeforeExtended_eq, if_neg hne] at hcut
    exact absurd hcut (htext.not_addFragment _ _)

theorem run (h : IsRefused p.draft.pending) {qs : List Piece}
    (hrun : qs.foldlM (Progress.step inner s) p = .ok p') : IsRefused p'.draft.pending :=
  foldlM_keeps (P := fun p => IsRefused p.draft.pending) (fun hp hstep => hp.step hstep) h hrun

end IsRefused

/-! ### Words that go on -/

theorem pending_of_pseudoElement {name : Text} {argument : Argument}
    (h : p.step inner s (.pseudoElement name argument) = .ok p') :
    p'.draft.pending = p.draft.pending ++ (':' :: ':' :: name ++ argument.text) := by
  obtain ⟨d, hadd, rfl⟩ := Outcome.map_eq_ok.mp h
  unfold Draft.addPseudoElement at hadd
  cases argument with
  | absent =>
    rw [← Except.ok.inj hadd, Argument.text, List.append_nil]
    rfl
  | unclosed => exact absurd hadd (by simp [Draft.writeArgument])
  | given content =>
    simp only at hadd
    split at hadd
    · exact absurd hadd (by simp)
    · rw [← Except.ok.inj hadd]
      simp [Draft.write, Argument.text]

/-- Two texts have been read up to a word `w`, which ends the first one and goes on with `x` in the
second one. The name of a pseudo-class does not go on like this, so `x` becomes pending behind what
is pending of the first text; if that is refused, it stays so. -/
theorem IsRefused.word {h : Held} {last ls : List Chunk} {w x : Text} {p₁ p₂ : Progress}
    (hrefused : IsRefused (p₁.draft.pending ++ x)) (hx : ∃ c ∈ x, isIdentChar c = false)
    (hlast : last = [] ∧ w = [] ∨ last = [.word w])
    (hbefore : (piecesFrom h last).foldlM (Progress.step inner s) p = .ok p₁)
    (hrun : (piecesFrom h (.word (w ++ x) :: ls)).foldlM (Progress.step inner s) p = .ok p₂) :
    IsRefused p₂.draft.pending := by
  have hverbatim : (∀ v, h.feed (.word v) = (h.release ++ [.verbatim v], .nothing)) →
      IsRefused p₂.draft.pending := by
    intro hfeed
    rw [piecesFrom, hfeed, List.append_assoc] at hrun
    obtain ⟨mid, hmid, hrun⟩ := foldlM_append_eq_ok.mp hrun
    have hp₁ : p₁.draft.pending = mid.draft.pending ++ w := by
      rcases hlast with ⟨rfl, rfl⟩ | rfl
      · rw [List.append_nil, Except.ok.inj (hmid.symm.trans hbefore)]
      · rw [piecesFrom, hfeed, piecesFrom, Held.release, List.append_nil] at hbefore
        obtain ⟨mid', hmid', hstep⟩ := foldlM_append_eq_ok.mp hbefore
        obtain rfl := Except.ok.inj (hmid.symm.trans hmid')
        rw [← Except.ok.inj (foldlM_singleton_eq_ok.mp hstep)]
        rfl
    rw [hp₁, List.append_assoc] at hrefused
    obtain ⟨q, hq, hrest⟩ := foldlM_append_eq_ok.mp hrun
    obtain rfl := Except.ok.inj (foldlM_singleton_eq_ok.mp hq)
    exact IsRefused.run hrefused hrest
  cases h with
  | nothing => exact hverbatim fun v => rfl
  | pseudoClass name => exact hverbatim fun v => rfl
  | pseudoElement name => exact hverbatim fun v => rfl
  | colon =>
    change (piecesFrom (.pseudoClass (w ++ x)) ls).foldlM _ _ = _ at hrun
    rw [piecesFrom_pseudoClass] at hrun
    obtain ⟨mid, hstep, -⟩ := foldlM_cons_eq_ok.mp hrun
    obtain ⟨c, hc, hident⟩ := hx
    rw [isIdentChar_of_step hstep c (List.mem_append_right w hc)] at hident
    exact absurd hident (by simp)
  | colons =>
    change (piecesFrom (.pseudoElement (w ++ x)) ls).foldlM _ _ = _ at hrun
    rw [piecesFrom_pseudoElement] at hrun
    obtain ⟨q, hstep, hrest⟩ := foldlM_cons_eq_ok.mp hrun
    have hp₁ : p₁.draft.pending = p.draft.pending ++ (':' :: ':' :: w) := by
      rcases hlast with ⟨rfl, rfl⟩ | rfl
      · rw [← Except.ok.inj (foldlM_singleton_eq_ok.mp hbefore)]
        rfl
      · rw [pending_of_pseudoElement (foldlM_singleton_eq_ok.mp hbefore), Argument.text,
          List.append_nil]
    refine IsRefused.run (p := q) ?_ hrest
    have hq : q.draft.pending = p₁.draft.pending ++ x ++ (takeArgument ls).1.text := by
      rw [hp₁, pending_of_pseudoElement hstep]
      simp only [List.append_assoc, List.cons_append]
    rw [hq]
    exact hrefused.append _

/-! ### Where a branch could be completed -/

/-- The branch is completed in the same way: at most blanks have been added to what is pending. -/
structure Progress.EndsLike (p p' : Progress) : Prop where
  /-- The branches that are complete. -/
  branches : p'.branches = p.branches
  /-- The nodes of the branch. -/
  nodes : p'.draft.nodes = p.draft.nodes
  /-- What is pending. -/
  pending : Text.trimEnd p'.draft.pending = Text.trimEnd p.draft.pending

namespace Progress.EndsLike

theorem refl (p : Progress) : p.EndsLike p := ⟨rfl, rfl, rfl⟩

theorem trans {p'' : Progress} (h : p.EndsLike p') (h' : p'.EndsLike p'') : p.EndsLike p'' :=
  ⟨h'.branches.trans h.branches, h'.nodes.trans h.nodes, h'.pending.trans h.pending⟩

theorem trim_pending (h : p.EndsLike p') :
    Text.trim p'.draft.pending = Text.trim p.draft.pending := by
  rw [← Text.trim_trimEnd, h.pending, Text.trim_trimEnd]

theorem nodes_cutAtEnd (h : p.EndsLike p') :
    (p'.draft.cutAtEnd s).map Draft.nodes = (p.draft.cutAtEnd s).map Draft.nodes := by
  unfold Draft.cutAtEnd Draft.addFragment Draft.has
  simp only [h.pending, h.nodes]
  split_ifs
  · rfl
  · rfl
  · rfl
  · rfl
  · split <;> rfl

theorem endBranch_eq (h : p.EndsLike p') : p'.endBranch s = p.endBranch s := by
  have hnodes := h.nodes_cutAtEnd (s := s)
  unfold endBranch
  cases hcut : p.draft.cutAtEnd s <;> cases hcut' : p'.draft.cutAtEnd s <;>
    simp_all [Except.map, h.branches]

end Progress.EndsLike

theorem endsLike_writeSpace (p : Progress) : p.EndsLike ⟨p.branches, p.draft.writeSpace⟩ := by
  refine ⟨rfl, writeSpace_nodes p.draft, ?_⟩
  show Text.trimEnd p.draft.writeSpace.pending = _
  unfold Draft.writeSpace
  split
  · rfl
  · exact Text.trimEnd_append_of_blank (by decide) p.draft.pending

/-- The text is blank, or it is a list of native selectors. -/
def IsWhole (t : Text) : Prop := Text.trim t = [] ∨ ∃ S, Css.Selector.ofText t = .ok S

theorem IsWhole.of_trim {u : Text} (h : IsWhole t) (htrim : Text.trim u = Text.trim t) :
    IsWhole u := by
  rcases h with hnil | ⟨S, hS⟩
  · exact Or.inl (htrim.trans hnil)
  · refine Or.inr ⟨S, ?_⟩
    rw [← Css.ofText_trim, htrim, Css.ofText_trim, hS]

theorem isWhole_of_endBranch {bs : List (List Node)} (h : p.endBranch s = .ok bs) :
    IsWhole p.draft.pending := by
  obtain ⟨d, hcut, -⟩ := endBranch_eq_ok.mp h
  rcases cutAtEnd_cases hcut with ⟨hnil, -⟩ | ⟨-, -, hadd⟩
  · exact Or.inl (Text.trim_eq_nil_iff.mpr (Text.trimEnd_eq_nil_iff.mp hnil))
  · obtain ⟨⟨S, hread⟩, -⟩ := of_addFragment hadd
    rw [Text.trim_trimEnd, Css.ofText_trim] at hread
    exact Or.inr ⟨S, hread⟩

/-- The text has been read up to its end, no backslash waits there for a character, and the branch
could be completed. -/
structure Stands (inner : BranchReader) (s : Scope) (t : Text) (p : Progress) : Prop where
  /-- The pieces have been read. -/
  run : (piecesIn t).foldlM (Progress.step inner s) .start = .ok p
  /-- The end of the text. -/
  escape : endsInEscape t = false
  /-- The end of what is pending. -/
  seam : endsInEscape p.draft.pending = false
  /-- What is pending. -/
  whole : IsWhole p.draft.pending

namespace Stands

theorem nil : Stands inner s [] .start := by
  refine ⟨?_, rfl, rfl, Or.inl rfl⟩
  rw [piecesIn_nil]
  rfl

/-- A blank behind the text is read as a space. -/
theorem blank (h : Stands inner s t p) (hc : Text.isBlank c = true) :
    ∃ p', Stands inner s (t ++ [c]) p' ∧ p.EndsLike p' := by
  have hmark := isMark_of_blank hc
  have hpieces : piecesIn (t ++ [c]) = piecesIn t ++ [.space] := by
    rw [piecesIn_append_mark (isClosed_of_run h.run) h.escape hmark (ofMark?_of_blank hc) ?_,
      piecesIn_mark hmark (ofMark?_of_blank hc) ?_, piecesIn_nil, ofMark_of_blank hc]
    all_goals
      rintro rfl
      exact absurd hc (by decide)
  have hlike := endsLike_writeSpace p
  have hslash := ne_backslash_of_isMark hmark
  refine ⟨_, ⟨?_, endsInEscape_concat hslash t, ?_, h.whole.of_trim hlike.trim_pending⟩, hlike⟩
  · rw [hpieces]
    exact foldlM_append_eq_ok.mpr ⟨p, h.run, rfl⟩
  · show endsInEscape p.draft.writeSpace.pending = false
    unfold Draft.writeSpace
    split
    · exact h.seam
    · exact endsInEscape_concat (by decide) _

theorem blanks (h : Stands inner s t p) {u : Text} (hu : ∀ c ∈ u, Text.isBlank c = true) :
    ∃ p', Stands inner s (t ++ u) p' ∧ p.EndsLike p' := by
  induction u generalizing t p with
  | nil =>
    rw [List.append_nil]
    exact ⟨p, h, .refl p⟩
  | cons c u ih =>
    obtain ⟨hc, hu⟩ := List.forall_mem_cons.mp hu
    obtain ⟨mid, hmid, hlike⟩ := h.blank hc
    obtain ⟨p', h', hlike'⟩ := ih hmid hu
    rw [List.append_cons]
    exact ⟨p', h', hlike.trans hlike'⟩

/-- A foreign character goes on with what is pending, and no selector starts like that. -/
theorem isRefused (h : Stands inner s t p) (hc : isForeign c = true) (y : Text)
    (hrun : (piecesIn (t ++ c :: y)).foldlM (Progress.step inner s) .start = .ok p') :
    IsRefused p'.draft.pending := by
  obtain ⟨hident, hmark, hslash⟩ := Css.isForeign_iff.mp hc
  obtain ⟨ks, last, w, v, ls, hlast, ht, hboth⟩ :=
    exists_chunks_append_word (isClosed_of_run h.run) h.escape hmark hslash y
  have hbefore := h.run
  rw [piecesIn, ht, piecesFrom_append] at hbefore
  rw [piecesIn, hboth, piecesFrom_append] at hrun
  obtain ⟨mid, hmid, hbefore⟩ := foldlM_append_eq_ok.mp hbefore
  obtain ⟨mid', hmid', hrun⟩ := foldlM_append_eq_ok.mp hrun
  obtain rfl := Except.ok.inj (hmid.symm.trans hmid')
  refine IsRefused.word (fun u S => ?_) ⟨c, List.mem_cons_self .., hident⟩ hlast hbefore hrun
  rw [List.append_assoc, List.cons_append]
  refine Css.not_ofText_append ⟨.foreign _ hc, fun hescape => ?_⟩ h.whole S
  rw [h.seam] at hescape
  exact absurd hescape (by simp)

end Stands

/-! ### Escaped blanks -/

/-- A blank that is escaped goes on with the last word, and it is blank all the same. -/
theorem Stands.of_escape (hrun : (piecesIn t).foldlM (Progress.step inner s) .start = .ok p)
    (hwhole : IsWhole p.draft.pending) (hescape : endsInEscape t = true)
    (hc : Text.isBlank c = true) : ∃ p', Stands inner s (t ++ [c]) p' ∧ p.EndsLike p' := by
  have hclosed := isClosed_of_run hrun
  obtain ⟨ks, w, ht, hw⟩ := exists_word_of_escape hclosed hescape
  have hcolon : heldAfter .nothing ks ≠ .colon := by
    intro hcolon
    rw [piecesIn, ht, piecesFrom_append, hcolon] at hrun
    obtain ⟨mid, -, hlast⟩ := foldlM_append_eq_ok.mp hrun
    have hident := isIdentChar_of_step (foldlM_singleton_eq_ok.mp hlast) _
      (List.mem_of_getLast? (getLast?_of_escape hw))
    exact absurd hident (by decide)
  have hnext := chunks_append_escaped ht hclosed hw c
  obtain ⟨qs, make, hmake, hpieces⟩ := piecesIn_word hcolon
  rw [(hpieces t w ht).1] at hrun
  obtain ⟨mid, hmid, hstep⟩ := foldlM_append_eq_ok.mp hrun
  obtain rfl := Except.ok.inj ((foldlM_singleton_eq_ok.mp hstep).symm.trans (hmake.isNative w mid))
  have hpending : (mid.addText (make (w ++ [c]))).draft.pending =
      (mid.addText (make w)).draft.pending ++ [c] := by
    cases hmake <;> simp [Progress.addText, Draft.addText, Draft.write, Piece.text, Argument.text]
  have hlike : (mid.addText (make w)).EndsLike (mid.addText (make (w ++ [c]))) := by
    refine ⟨rfl, by cases hmake <;> rfl, ?_⟩
    rw [hpending]
    exact Text.trimEnd_append_of_blank (Text.trimEnd_eq_nil_iff.mpr (by simpa using hc)) _
  have hslash := ne_backslash_of_isMark (isMark_of_blank hc)
  refine ⟨mid.addText (make (w ++ [c])),
    ⟨?_, endsInEscape_concat hslash t, ?_, hwhole.of_trim hlike.trim_pending⟩, hlike⟩
  · rw [(hpieces _ _ hnext).1]
    exact foldlM_append_eq_ok.mpr
      ⟨mid, hmid, foldlM_singleton_eq_ok.mpr (hmake.isNative (w ++ [c]) mid)⟩
  · rw [hpending]
    exact endsInEscape_concat hslash _

/-! ### Selectors -/

/-- A text that has been read stands, up to its last blank, where its branch was completed. -/
theorem exists_stands_of_readAll {bs : List (List Node)} (h : readAll s t = .ok bs)
    (hescape : endsInEscape t = false) :
    ∃ p, Stands readAll s (Text.trimStart t) p ∧ p.endBranch s = .ok bs := by
  obtain ⟨b, hb, hstart⟩ := Text.exists_append_trimEnd (Text.trimStart t)
  have hstart : Text.trimStart t = Text.trim t ++ b := hstart
  have hrest := (Css.IsRest.trimStart t).escape hescape
  obtain ⟨p, hrun, hend⟩ := readAll_eq_ok.mp h
  have hwhole := isWhole_of_endBranch hend
  rw [hstart] at hrest ⊢
  cases htrim : endsInEscape (Text.trim t) with
  | false =>
    obtain ⟨p', h', hlike⟩ :=
      Stands.blanks ⟨hrun, htrim, endsInEscape_pending htrim hrun, hwhole⟩ hb
    exact ⟨p', h', hlike.endBranch_eq.trans hend⟩
  | true =>
    cases b with
    | nil =>
      rw [List.append_nil, htrim] at hrest
      exact absurd hrest (by simp)
    | cons c b =>
      obtain ⟨hc, hb⟩ := List.forall_mem_cons.mp hb
      obtain ⟨mid, hmid, hlike⟩ := Stands.of_escape hrun hwhole htrim hc
      obtain ⟨p', h', hlike'⟩ := hmid.blanks hb
      rw [List.append_cons]
      exact ⟨p', h', (hlike.trans hlike').endBranch_eq.trans hend⟩

/-- **A selector is none any more when a foreign character follows**, whatever comes after that. -/
theorem not_readAll_append {bs : List (List Node)} (h : readAll s t = .ok bs)
    (hescape : endsInEscape t = false) (hc : isForeign c = true) (x : Text)
    (bs' : List (List Node)) : readAll s (t ++ c :: x) ≠ .ok bs' := by
  intro h'
  obtain ⟨p, hstands, -⟩ := exists_stands_of_readAll h hescape
  obtain ⟨p', hrun, hend⟩ := readAll_eq_ok.mp h'
  rw [Text.trim_append_cons (Css.not_blank_of_isForeign hc)] at hrun
  exact (hstands.isRefused hc _ hrun).not_endBranch bs' hend

/-- A selector is not blank, and it does not start with a foreign character. -/
theorem exists_trim_of_readAll {bs : List (List Node)} (h : readAll s t = .ok bs) :
    ∃ c r, Text.trim t = c :: r ∧ isForeign c = false := by
  obtain ⟨p, hrun, hend⟩ := readAll_eq_ok.mp h
  cases htrim : Text.trim t with
  | nil =>
    rw [htrim, chunks_nil] at hrun
    obtain rfl := Except.ok.inj hrun
    exact absurd hend (by simp [Progress.endBranch, Progress.start, Draft.empty, Draft.cutAtEnd])
  | cons c r =>
    refine ⟨c, r, rfl, ?_⟩
    by_contra hc
    rw [htrim] at hrun
    exact (Stands.nil.isRefused (Bool.not_eq_false _ ▸ hc) r hrun).not_endBranch bs hend

end Extended
end CosmeticFilter
