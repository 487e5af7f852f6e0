import CosmeticFilter.Proofs.Extended.Foreign
import CosmeticFilter.Proofs.Extended.Squeezed

/-!
# Where native text is interrupted

A selector that is read starts with native text. It goes on to the end of the selector, or it is
interrupted by a comma, an extended pseudo-class or the attribute form of one. There the builder
cuts off what it has copied, with an asterisk behind it if no element has been named, and so that
is a native selector by itself.

* `Interrupts`: a text that starts with something that is not native;
* `split_at_interruption`: none starts within the opening of a pseudo-class;
* `IsCutOff`: a text whose copy is cut off as a fragment;
* `exists_interrupted_of_foldlM`: the first piece that does more than add its text;
* `exists_interruption`: where the native text at the start of a selector ends.
-/

namespace CosmeticFilter
namespace Extended

variable {inner : BranchReader} {s : Scope} {t u v : Text}

/-- The text starts with a comma or with an extended pseudo-class. -/
inductive Interrupts : Text → Prop where
  /-- A comma. -/
  | comma (r : Text) : Interrupts (',' :: r)
  /-- An extended pseudo-class, up to its argument. -/
  | pseudoClass {name r : Text} {n : Name} : Name.ofText? name = some n →
      startsWithMark r = true → Interrupts (':' :: (name ++ r))
  /-- The attribute form of one. -/
  | attributeTest {content body : Text} (r : Text) : Draft.extendedBody? content = some body →
      Interrupts ('[' :: (content ++ ']' :: r))

namespace Interrupts

/-- It still does when the text goes on with a mark. -/
theorem append (h : Interrupts v) {z : Text} (hz : startsWithMark z = true) :
    Interrupts (v ++ z) := by
  cases h with
  | comma r => exact .comma (r ++ z)
  | @pseudoClass name r n hname hr =>
    rw [List.cons_append, List.append_assoc]
    refine .pseudoClass hname ?_
    cases r with
    | nil => exact hz
    | cons c r => exact hr
  | attributeTest r hbody =>
    rw [List.cons_append, List.append_assoc, List.cons_append]
    exact .attributeTest (r ++ z) hbody

theorem head? (h : Interrupts v) : ∃ c ∈ v.head?, c = ',' ∨ c = ':' ∨ c = '[' := by
  cases h with
  | comma r => exact ⟨_, rfl, .inl rfl⟩
  | pseudoClass hname hr => exact ⟨_, rfl, .inr (.inl rfl)⟩
  | attributeTest r hbody => exact ⟨_, rfl, .inr (.inr rfl)⟩

end Interrupts

/-- What ends in front of an interruption takes all of a pseudo-class's opening, or nothing. -/
theorem split_at_interruption {name : Name} {z : Text} (hv : v ≠ [] → Interrupts v)
    (heq : t ++ ((':' :: name.text ++ ['(']) ++ z) = u ++ v) :
    (∃ w, t = u ++ w ∧ v = w ++ ((':' :: name.text ++ ['(']) ++ z)) ∨
      ∃ w, u = t ++ (':' :: name.text ++ ['(']) ++ w ∧ z = w ++ v := by
  have hmarks : ∀ c ∈ name.text ++ ['('], ¬ (c = ',' ∨ c = ':' ∨ c = '[') := by
    have hall : (name.text ++ ['(']).all (fun c => !(c == ',' || c == ':' || c == '[')) = true := by
      cases name <;> decide
    simpa only [List.all_eq_true, Bool.not_eq_true', Bool.or_eq_false_iff, beq_eq_false_iff_ne,
      not_or, and_assoc] using hall
  rcases List.append_eq_append_iff.mp heq with ⟨w, rfl, hw⟩ | ⟨w, rfl, rfl⟩
  swap
  · exact .inl ⟨w, rfl, rfl⟩
  rcases List.append_eq_append_iff.mp hw with ⟨y, rfl, rfl⟩ | ⟨y, hy, rfl⟩
  · exact .inr ⟨y, (List.append_assoc ..).symm, rfl⟩
  cases y with
  | nil => exact .inr ⟨[], by rw [hy, List.append_nil, List.append_nil], rfl⟩
  | cons c y =>
    cases w with
    | nil => exact .inl ⟨[], by rw [List.append_nil, List.append_nil], by rw [hy]; rfl⟩
    | cons d w =>
      -- no interruption starts within the name
      obtain ⟨c', hc', hmark⟩ := (hv (List.cons_ne_nil _ _)).head?
      rw [List.cons_append, List.head?_cons, Option.mem_some] at hc'
      obtain ⟨-, hname⟩ := List.cons.inj (show ':' :: (name.text ++ ['(']) = _ from hy)
      refine absurd (hc' ▸ hmark) (hmarks c ?_)
      rw [hname]
      exact List.mem_append_right _ (List.mem_cons_self ..)

/-! ### The chunks of the first piece that is not native -/

/-- The piece is a comma, or it spells an extended pseudo-class. -/
def Piece.IsInterruption (q : Piece) : Prop := q = .comma ∨ q.name? ≠ none

theorem Piece.not_isInterruption_ofMark {c : Char} (h : (Piece.ofMark c).IsInterruption) :
    c = ',' := by
  unfold Piece.ofMark at h
  split at h
  · assumption
  · split at h
    · exact absurd h (by simp [IsInterruption, name?])
    · split at h <;> exact absurd h (by simp [IsInterruption, name?])

/-- Pieces that start with an interruption have chunks that do. -/
theorem interrupts_of_piecesOf {ks : List Chunk} {q : Piece} {qs : List Piece}
    (h : piecesOf ks = q :: qs) (hq : q.IsInterruption)
    (hseam : ∀ fs ls, ks = fs ++ ls → ∀ k ∈ fs.getLast?, k.isWord = true →
      startsWithMark (ls.flatMap Chunk.text) = true) :
    Interrupts (ks.flatMap Chunk.text) := by
  unfold piecesOf at h
  split at h
  · exact absurd h.symm (List.cons_ne_nil _ _)
  · rw [← (List.cons.inj h).1] at hq
    exact absurd hq (by simp [Piece.IsInterruption, Piece.name?])
  · rw [← (List.cons.inj h).1] at hq
    exact absurd hq (by simp [Piece.IsInterruption, Piece.name?])
  · rename_i name r
    rw [← (List.cons.inj h).1] at hq
    obtain ⟨n, hn⟩ := Option.ne_none_iff_exists'.mp (hq.resolve_left (by simp))
    have hr := hseam [.mark ':', .word name] r rfl (.word name) rfl rfl
    exact @Interrupts.pseudoClass name _ n hn hr
  · rename_i c r _ _ _
    rw [← (List.cons.inj h).1] at hq
    rw [Piece.not_isInterruption_ofMark hq]
    exact .comma _
  · rw [← (List.cons.inj h).1] at hq
    exact absurd hq (by simp [Piece.IsInterruption, Piece.name?])
  · rename_i g content closed r
    rw [← (List.cons.inj h).1] at hq
    cases g <;> cases closed
    case square.true =>
      obtain ⟨n, hn⟩ := Option.ne_none_iff_exists'.mp (hq.resolve_left (by simp [Piece.ofGroup]))
      obtain ⟨body, hbody, -⟩ := Option.bind_eq_some_iff.mp hn
      rw [List.flatMap_cons, Chunk.text, if_pos rfl, List.append_assoc]
      exact .attributeTest (r.flatMap Chunk.text) hbody
    all_goals exact absurd hq (by simp [Piece.IsInterruption, Piece.ofGroup, Piece.name?])

/-! ### Runs -/

/-- What is read of pieces is native, or the first piece that is not is a comma or an extended
pseudo-class. -/
theorem exists_interrupted_of_foldlM {p p' : Progress} {qs : List Piece}
    (h : qs.foldlM (Progress.step inner s) p = .ok p') :
    (∀ q ∈ qs, q.IsNative inner s) ∨
      ∃ front q rest, qs = front ++ q :: rest ∧ (∀ q ∈ front, q.IsNative inner s) ∧
        q.IsInterruption ∧
        ((∃ bs, Progress.endBranch s ⟨p.branches, front.foldl Draft.addText p.draft⟩ = .ok bs) ∨
          ∃ name argument d,
            (front.foldl Draft.addText p.draft).addExtended inner s name argument = .ok d) := by
  induction qs generalizing p with
  | nil => exact Or.inl fun q hq => absurd hq List.not_mem_nil
  | cons q r ih =>
    obtain ⟨mid, hstep, hrest⟩ := foldlM_cons_eq_ok.mp h
    have hnone : ∀ q' ∈ ([] : List Piece), q'.IsNative inner s :=
      fun q' hq' => absurd hq' List.not_mem_nil
    rcases step_named hstep with ⟨-, hq, rfl⟩ | ⟨hq, bs, hend, -⟩ | ⟨name, argument, d, hq, hadd, -⟩
    · rcases ih hrest with hr | ⟨front, q', rest, rfl, hfront, hq', hcut⟩
      · exact Or.inl (List.forall_mem_cons.mpr ⟨hq, hr⟩)
      · exact Or.inr ⟨q :: front, q', rest, rfl, List.forall_mem_cons.mpr ⟨hq, hfront⟩, hq', hcut⟩
    · exact Or.inr ⟨[], q, r, rfl, hnone, .inl hq, .inl ⟨bs, hend⟩⟩
    · exact Or.inr ⟨[], q, r, rfl, hnone, .inr (by simp [hq]), .inr ⟨name, argument, d, hadd⟩⟩

/-! ### What is cut off -/

/-- The copy of the text, or an element that it calls for, is cut off as a fragment. -/
def IsCutOff (s : Scope) (u : Text) : Prop :=
  ∃ f, (f = squeeze true u ∨ f = squeeze true u ++ ['*'] ∧
      (squeeze true u = [] ∨ Draft.isOpenEnded (squeeze true u) = true)) ∧
    (∃ S, Css.Selector.ofText f = .ok S) ∧
    (s.mayLead = false → ∀ c ∈ (Text.trim f).head?, Css.isCombinator c = false)

theorem isCutOff_of_addExtended {d d' : Draft} (hnodes : d.nodes = [])
    (hpending : d.pending = squeeze true u) {name : Name} {argument : Text}
    (h : d.addExtended inner s name argument = .ok d') : IsCutOff s u := by
  obtain ⟨-, -, cut, -, hcut, -⟩ := addExtended_eq_ok.mp h
  have hne : d.cutText ≠ [] := by
    intro hnil
    have hempty := pending_eq_nil_of_cutText hnil
    rcases cutText_cases d with hstar | ⟨-, hclosed⟩
    · rw [hstar] at hnil
      exact absurd hnil (List.append_ne_nil_of_right_ne_nil _ (List.cons_ne_nil _ _))
    · rw [hnodes, hempty] at hclosed
      exact absurd hclosed (by simp)
  rw [cutBeforeExtended_eq, if_neg hne] at hcut
  obtain ⟨⟨S, hread⟩, hlead⟩ := of_addFragment hcut
  refine ⟨d.cutText, ?_, ⟨S, (Css.ofText_trim _).symm.trans hread⟩, hlead hnodes⟩
  rw [← hpending]
  unfold Draft.cutText
  split
  · rename_i hopen
    rw [hnodes, List.isEmpty_nil, Bool.true_and, Bool.or_eq_true, List.isEmpty_iff] at hopen
    exact Or.inr ⟨rfl, hopen⟩
  · exact Or.inl rfl

/-- At the end of a branch no element is added. -/
theorem isCutOff_of_endBranch {p : Progress} (hnodes : p.draft.nodes = [])
    (hpending : p.draft.pending = squeeze true u) {bs : List (List Node)}
    (h : p.endBranch s = .ok bs) :
    IsCutOff s u ∧ bs = p.branches ++ [[.fragment (Text.trimEnd (squeeze true u))]] := by
  obtain ⟨d, hcut, hne, rfl⟩ := endBranch_eq_ok.mp h
  rcases cutAtEnd_cases hcut with ⟨-, hd⟩ | ⟨-, -, hadd⟩
  · exact absurd (hd.trans hnodes) hne
  rw [hpending] at hadd
  obtain ⟨⟨S, hread⟩, hlead⟩ := of_addFragment hadd
  rw [Text.trim_trimEnd] at hread hlead
  refine ⟨⟨_, .inl rfl, ⟨S, (Css.ofText_trim _).symm.trans hread⟩, hlead hnodes⟩, ?_⟩
  rw [nodes_of_addFragment hadd, hnodes]
  rfl

/-- **Where the native text at the start of a selector ends.** It is all of the selector, which then
has no other branches and nodes, or what follows it is not native. -/
theorem exists_interruption {bs : List (List Node)} (h : readAll s t = .ok bs) :
    ∃ u v, Text.trim t = u ++ v ∧ (∀ q ∈ piecesIn u, q.IsNative readAll s) ∧ IsCutOff s u ∧
      (v = [] ∧ bs = [[.fragment (squeeze true u)]] ∨ Interrupts v) := by
  obtain ⟨p, hrun, hend⟩ := readAll_eq_ok.mp h
  have hpending : ∀ {u : Text} {qs : List Piece}, piecesIn u = qs →
      (∀ q ∈ qs, q.IsNative readAll s) →
      (qs.foldl Draft.addText .empty).pending = squeeze true u := by
    rintro u _ rfl hnative
    exact pending_piecesFrom fun q hq => isClean_of_isNative (hnative q hq)
  have hnodes : ∀ qs : List Piece, (qs.foldl Draft.addText .empty).nodes = [] :=
    fun qs => foldl_addText_nodes qs .empty
  rcases exists_interrupted_of_foldlM hrun with hnative | ⟨front, q, rest, hsplit, hfront, hq, hcut⟩
  · rw [run, foldlM_of_isNative hnative] at hrun
    obtain rfl := Except.ok.inj hrun
    obtain ⟨hcutoff, hbs⟩ := isCutOff_of_endBranch (hnodes _) (hpending rfl hnative) hend
    refine ⟨Text.trim t, [], (List.append_nil _).symm, hnative, hcutoff, .inl ⟨rfl, ?_⟩⟩
    rw [hbs, ← trim_squeeze (Text.trim_trim t), Text.trimEnd_trim]
    rfl
  · rw [← piecesOf_eq] at hsplit
    obtain ⟨fs, ls, hchunks, hfs, hls⟩ := exists_chunks_of_piecesOf hsplit
    have hclosed : ∀ k ∈ chunks (Text.trim t), k.isClosed = true := isClosed_of_run hrun
    have hclosed' : ∀ k ∈ fs, k.isClosed = true := fun k hk =>
      hclosed k (by rw [hchunks]; exact List.mem_append_left _ hk)
    have htext : piecesIn (fs.flatMap Chunk.text) = front := by
      rw [piecesIn, (chunks_take hchunks hclosed').1, ← piecesOf_eq, hfs]
    refine ⟨fs.flatMap Chunk.text, ls.flatMap Chunk.text, ?_, htext ▸ hfront, ?_, .inr ?_⟩
    · rw [← List.flatMap_append, ← hchunks, flatMap_text_chunks]
    · rcases hcut with ⟨bs', hend'⟩ | ⟨name, argument, d, hadd⟩
      · exact (isCutOff_of_endBranch (hnodes _) (hpending htext hfront) hend').1
      · exact isCutOff_of_addExtended (hnodes _) (hpending htext hfront) hadd
    · refine interrupts_of_piecesOf hls hq fun gs ms hgs k hk hword => ?_
      have hall : chunks (Text.trim t) = (fs ++ gs) ++ ms := by
        rw [hchunks, hgs, List.append_assoc]
      refine (chunks_take hall fun k' hk' => ?_).2.2 k ?_ hword
      · exact hclosed k' (by rw [hall]; exact List.mem_append_left _ hk')
      · rw [List.getLast?_append, Option.mem_def.mp hk]
        rfl

end Extended
end CosmeticFilter
