import CosmeticFilter.Proofs.Extended.NativePieces
import CosmeticFilter.Proofs.Query.NativePath

/-!
# Native selectors pass through unchanged

A list of native selectors is read as one fragment for each alternative, its blanks squeezed, and
the text of what has been read is the same list of native selectors. The reader cuts at the commas
outside groups, where the native list is cut too; in between, every piece only adds its text.

This holds for the lists that neither reader refuses or reads in a way of its own
(`isTransparent`). What the two disagree on is an apostrophe within an argument, a blank that is
part of a name or of an escape, an escape in the name of a pseudo-class, a scoped pseudo-class in
the argument of a pseudo-element, and a backslash in front of the comma that is put between two
fragments.

* `alternatives`: the alternatives of a list, as written;
* `isTransparent`: both readers read the list alike;
* `exists_progress_native`: the run over one alternative, and over those that follow it;
* `exists_ofText_native`: the list that is read is native and stands for the same selectors.
-/

namespace CosmeticFilter
namespace Extended

open Nesting (IsClosed)

variable {t : Text}

/-- The alternatives of a list, as written but for the blanks around them. -/
def alternatives (t : Text) : List Text := (Css.parts t).map Text.trim

/-- Both readers cut the alternatives of the list in the same way, none of the pieces is refused or
taken for something else, and no alternative ends in a backslash that would take the comma behind
it. -/
def isTransparent (t : Text) : Bool :=
  (alternatives t).all (fun a => Css.isReadAlike a && (piecesIn a).all Piece.isTransparent) &&
    (alternatives t).dropLast.all fun a => !endsInEscape a

/-! ### The alternatives of a list -/

theorem isClosed_of_ofText {s : Css.Selector} (h : Css.Selector.ofText t = .ok s) :
    (Nesting.top.after .roundAndSquare t).IsClosed := (Css.ofText_eq_ok.mp h).1

theorem splitList_trim (t : Text) : Css.splitList (Text.trim t) = Css.splitList t := by
  obtain ⟨a, b, ha, hb, heq⟩ := Text.exists_append_trim_append t
  conv_rhs => rw [heq, Css.splitList_blank_append ha, Css.splitList_append_blank hb]

/-- Blanks around a list do not count. -/
theorem alternatives_trim {s : Css.Selector} (h : Css.Selector.ofText t = .ok s) :
    alternatives (Text.trim t) = alternatives t := by
  have hsplit := Css.splitList_eq_ok.mpr ⟨isClosed_of_ofText h, rfl⟩
  rw [← splitList_trim] at hsplit
  exact (Css.splitList_eq_ok.mp hsplit).2.symm

/-- That no alternative starts with a combinator can be computed. -/
theorem not_isCombinator_of_all {ts : List Text}
    (h : (ts.all fun a => !a.head?.any Css.isCombinator) = true) :
    ∀ a ∈ ts, ∀ c ∈ a.head?, Css.isCombinator c = false := by
  intro a ha c hc
  have hall := List.all_eq_true.mp h a ha
  rw [Option.mem_def.mp hc] at hall
  simpa using hall

/-! ### One alternative -/

/-- An alternative, as written, with a selector that is read of it. -/
structure IsAlternative (a : Text) (x : Css.Complex) : Prop where
  /-- There are no blanks around it. -/
  trim_eq : Text.trim a = a
  /-- It starts with no combinator. -/
  lead : ∀ c ∈ a.head?, Css.isCombinator c = false
  /-- Both readers cut it in the same way. -/
  alike : Css.isReadAlike a = true
  /-- None of its pieces is refused. -/
  pieces : ∀ q ∈ piecesIn a, q.isTransparent = true
  /-- No attribute selector is an extended one. -/
  reserved : x.isReserved = false
  /-- The selector. -/
  read : Css.Selector.ofText a = .ok ⟨[x]⟩

namespace IsAlternative

variable {a : Text} {x : Css.Complex}

theorem not_blank_head? (h : IsAlternative a x) : ∀ c ∈ a.head?, Text.isBlank c = false :=
  fun c hc => Text.not_blank_of_head?_trim (t := a) (by rw [h.trim_eq]; exact hc)

theorem ne_nil (h : IsAlternative a x) : a ≠ [] :=
  ((Css.ofText_eq_single h.trim_eq h.lead).mp h.read).2.2.1

theorem isNative (h : IsAlternative a x) (inner : BranchReader) (s : Scope) :
    ∀ q ∈ piecesIn a, q.IsNative inner s :=
  isNative_of_readChain h.alike h.not_blank_head?
    ((Css.ofText_eq_single h.trim_eq h.lead).mp h.read).2.2.2 h.reserved h.pieces

/-- Its fragment is the same selector. -/
theorem read_squeeze (h : IsAlternative a x) :
    Css.Selector.ofText (squeeze true a) = .ok ⟨[x]⟩ :=
  Css.ofText_squeeze h.alike h.trim_eq h.lead h.read

end IsAlternative

/-- Spaces at the start of a branch add nothing. -/
theorem foldl_space_empty (n : Nat) :
    (List.replicate n Piece.space).foldl Draft.addText .empty = .empty := by
  induction n with
  | zero => rfl
  | succ n ih => exact ih

/-- Spaces at its end are trimmed. -/
theorem trimEnd_foldl_space (n : Nat) (d : Draft) :
    Text.trimEnd ((List.replicate n Piece.space).foldl Draft.addText d).pending =
      Text.trimEnd d.pending := by
  induction n generalizing d with
  | zero => rfl
  | succ n ih =>
    rw [List.replicate_succ, List.foldl_cons, ih]
    show Text.trimEnd d.writeSpace.pending = _
    unfold Draft.writeSpace
    split
    · rfl
    · exact Text.trimEnd_append_of_blank (by decide) d.pending

theorem piecesIn_blank_append {a : Text} (ha : ∀ c ∈ a, Text.isBlank c = true) (u : Text) :
    piecesIn (a ++ u) = List.replicate a.length .space ++ piecesIn u := by
  induction a with
  | nil => rfl
  | cons c a ih =>
    obtain ⟨hc, ha⟩ := List.forall_mem_cons.mp ha
    rw [List.cons_append, piecesIn_blank hc, ih ha, List.length_cons, List.replicate_succ,
      List.cons_append]

/-- The pieces of an alternative with spaces around them make up one branch. -/
theorem IsAlternative.exists_progress {a : Text} {x : Css.Complex} (h : IsAlternative a x)
    (inner : BranchReader) (n m : Nat) (branches : List (List Node)) :
    ∃ p, (List.replicate n Piece.space ++ (piecesIn a ++ List.replicate m Piece.space)).foldlM
        (Progress.step inner .top) ⟨branches, .empty⟩ = .ok p ∧
      p.endBranch .top = .ok (branches ++ [[Node.fragment (squeeze true a)]]) := by
  have hspace : ∀ k, ∀ q ∈ List.replicate k Piece.space, q.IsNative inner .top := fun k q hq => by
    rw [(List.mem_replicate.mp hq).2]
    exact isNative_space
  have hnative : ∀ q ∈ List.replicate n .space ++ (piecesIn a ++ List.replicate m .space),
      q.IsNative inner .top := by
    intro q hq
    rcases List.mem_append.mp hq with hq | hq
    · exact hspace n q hq
    rcases List.mem_append.mp hq with hq | hq
    · exact h.isNative inner .top q hq
    · exact hspace m q hq
  refine ⟨_, foldlM_of_isNative hnative _, ?_⟩
  have hhead := head?_squeeze h.not_blank_head? true
  have hne : squeeze true a ≠ [] := fun hnil => by
    rw [hnil] at hhead
    exact h.ne_nil (List.head?_eq_none_iff.mp hhead.symm)
  have htrim := trim_squeeze h.trim_eq true
  have hend : Text.trimEnd (squeeze true a) = squeeze true a := by
    rw [← htrim, Text.trimEnd_trim]
  have hpending := pending_piecesFrom fun q hq => isClean_of_isNative (h.isNative inner .top q hq)
  generalize hd : (List.replicate n Piece.space ++
    (piecesIn a ++ List.replicate m Piece.space)).foldl Draft.addText .empty = d
  have hnodes : d.nodes = [] := by rw [← hd, foldl_addText_nodes]; rfl
  have htext : Text.trimEnd d.pending = squeeze true a := by
    rw [← hd, List.foldl_append, List.foldl_append, foldl_space_empty, trimEnd_foldl_space]
    exact (congrArg Text.trimEnd hpending).trans hend
  have hcut : d.cutAtEnd .top =
      .ok { d with nodes := d.nodes ++ [.fragment (squeeze true a)], pending := [] } := by
    have hhas : ∀ name, d.has name = false := fun name => by
      rw [Draft.has, hnodes]
      rfl
    unfold Draft.cutAtEnd
    simp only [htext, if_neg hne, hhas, Bool.false_eq_true, if_false]
    refine addFragment_eq_ok.mpr ⟨?_, ⟨_, by rw [htrim]; exact h.read_squeeze⟩, rfl⟩
    rw [htrim, hhead]
    cases hfirst : a.head? with
    | none => simp
    | some c => simp [h.lead c hfirst]
  refine endBranch_eq_ok.mpr ⟨_, hcut, by simp, ?_⟩
  rw [hnodes]
  rfl

/-! ### Lists -/

/-- An alternative that ends outside groups, the blanks behind it, and a comma. -/
theorem IsAlternative.piecesIn_comma {a : Text} {x : Css.Complex} (h : IsAlternative a x)
    (hescape : endsInEscape a = false) {b : Text} (hb : ∀ c ∈ b, Text.isBlank c = true)
    (u : Text) :
    piecesIn (a ++ (b ++ ',' :: u)) =
      piecesIn a ++ (List.replicate b.length .space ++ .comma :: piecesIn u) := by
  have hclosed := isClosed_of_isClean fun q hq =>
    isClean_of_isNative (h.isNative readAll .top q hq)
  have hcomma : isMark ',' = true ∧ Group.ofMark? ',' = none := by decide
  have hrest : piecesIn (b ++ ',' :: u) =
      List.replicate b.length .space ++ .comma :: piecesIn u := by
    rw [piecesIn_blank_append hb, piecesIn_mark hcomma.1 hcomma.2 (by decide)]
    rfl
  rw [← hrest]
  cases b with
  | nil => exact piecesIn_append_mark hclosed hescape hcomma.1 hcomma.2 (by decide) u
  | cons c b =>
    have hc := hb c (List.mem_cons_self ..)
    exact piecesIn_append_mark hclosed hescape (isMark_of_blank hc) (ofMark?_of_blank hc)
      (ne_colon_of_blank hc) _

/-- The run over the alternatives of a list, one after the other. -/
theorem exists_progress_native (inner : BranchReader) {xs : List Css.Complex}
    (hlast : ∀ c ∈ t.getLast?, Text.isBlank c = false)
    (hall : List.Forall₂ IsAlternative (alternatives t) xs)
    (hcomma : ∀ a ∈ (alternatives t).dropLast, endsInEscape a = false)
    (branches : List (List Node)) :
    ∃ p, (piecesIn t).foldlM (Progress.step inner .top) ⟨branches, .empty⟩ = .ok p ∧
      p.endBranch .top =
        .ok (branches ++ Query.nativeBranches ((alternatives t).map (squeeze true))) := by
  induction hn : t.length using Nat.strong_induction_on generalizing t xs branches with
  | _ n ih =>
    subst hn
    cases hcut : Nesting.cut .roundAndSquare (· == ',') .top t with
    | none =>
      have hsingle : alternatives t = [Text.trim t] := by
        rw [alternatives, Css.parts, Css.split_eq_of_cut hcut]
        rfl
      rw [hsingle] at hall ⊢
      obtain ⟨x, xs', hx, -, -⟩ := List.forall₂_cons_left_iff.mp hall
      obtain ⟨a, ha, heq⟩ := Text.exists_trimStart_append t
      rw [← Text.trim_eq_trimStart hlast] at heq
      obtain ⟨p, hp, hend⟩ := hx.exists_progress inner a.length 0 branches
      refine ⟨p, ?_, hend⟩
      rw [heq, piecesIn_blank_append ha]
      simpa using hp
    | some found =>
      obtain ⟨y, d, z⟩ := found
      obtain ⟨heq, hparts, -⟩ := Css.parts_of_cut hcut
      have hcons : alternatives t = Text.trim y :: alternatives z := by
        rw [alternatives, hparts]
        rfl
      have hne : alternatives z ≠ [] := fun hnil =>
        Nesting.split_ne_nil _ _ _ _ (List.map_eq_nil_iff.mp hnil)
      rw [hcons] at hall hcomma ⊢
      rw [List.dropLast_cons_of_ne_nil hne] at hcomma
      obtain ⟨hescape, hcomma⟩ := List.forall_mem_cons.mp hcomma
      obtain ⟨x, xs', hx, hxs, rfl⟩ := List.forall₂_cons_left_iff.mp hall
      obtain ⟨a, b, ha, hb, hy⟩ := Text.exists_append_trim_append y
      have hlast' : ∀ c ∈ z.getLast?, Text.isBlank c = false := fun c hc => by
        refine hlast c ?_
        rw [heq, Option.mem_def, List.getLast?_append, List.getLast?_cons, Option.mem_def.mp hc]
        rfl
      have hlt : z.length < t.length := by
        rw [heq, List.length_append, List.length_cons]
        omega
      obtain ⟨p, hp, hend⟩ := hx.exists_progress inner a.length b.length branches
      generalize hdone : branches ++ [[.fragment (squeeze true (Text.trim y))]] = done at hend
      obtain ⟨p', hp', hend'⟩ := ih z.length hlt hlast' hxs hcomma done rfl
      refine ⟨p', ?_, ?_⟩
      · have hpieces : piecesIn t = (List.replicate a.length Piece.space ++
            (piecesIn (Text.trim y) ++ List.replicate b.length Piece.space)) ++
              .comma :: piecesIn z := by
          conv_lhs =>
            rw [heq, hy, List.append_assoc, List.append_assoc, piecesIn_blank_append ha,
              hx.piecesIn_comma hescape hb]
          simp only [List.append_assoc]
        have hstep : p.step inner .top .comma = .ok ⟨done, .empty⟩ := by
          rw [Progress.step, hend]
          rfl
        rw [hpieces, List.foldlM_append, hp]
        show (p.step inner .top .comma >>= fun p => (piecesIn z).foldlM _ p) = _
        rw [hstep]
        exact hp'
      · rw [hend', ← hdone, List.append_assoc]
        rfl

/-- The list is read as one fragment for each of its alternatives. -/
theorem ofText_native {xs : List Css.Complex} {s : Css.Selector}
    (h : Css.Selector.ofText t = .ok s) (hall : List.Forall₂ IsAlternative (alternatives t) xs)
    (hcomma : ∀ a ∈ (alternatives t).dropLast, endsInEscape a = false) :
    Selector.ofText t = .ok ⟨Query.nativeBranches ((alternatives t).map (squeeze true))⟩ := by
  rw [← alternatives_trim h] at hall hcomma ⊢
  have hlast : ∀ c ∈ (Text.trim t).getLast?, Text.isBlank c = false :=
    fun c hc => Text.not_blank_of_getLast?_trim hc
  obtain ⟨p, hp, hend⟩ := exists_progress_native readAll hlast hall hcomma []
  rw [Selector.ofText_eq_ok, readAll_eq, run]
  have hrun : (piecesFrom .nothing (chunks (Text.trim t))).foldlM (Progress.step readAll .top)
      .start = .ok p := hp
  rw [hrun]
  exact hend

/-- Each part of a list is a list of one selector. -/
theorem isSingle_of_mem_parts (h : (Nesting.top.after .roundAndSquare t).IsClosed) :
    ∀ part ∈ Css.parts t, (Nesting.top.after .roundAndSquare part).IsClosed ∧
      Nesting.cut .roundAndSquare (· == ',') .top part = none := by
  induction hn : t.length using Nat.strong_induction_on generalizing t with
  | _ n ih =>
    subst hn
    cases hcut : Nesting.cut .roundAndSquare (· == ',') .top t with
    | none =>
      rw [Css.parts, Css.split_eq_of_cut hcut]
      exact fun part hpart => by rw [List.mem_singleton.mp hpart]; exact ⟨h, hcut⟩
    | some found =>
      obtain ⟨y, d, z⟩ := found
      obtain ⟨heq, hparts, htop⟩ := Css.parts_of_cut hcut
      rw [heq, Nesting.after_append, htop] at h
      have hlt : z.length < t.length := by
        rw [heq, List.length_append, List.length_cons]
        omega
      rw [hparts]
      refine List.forall_mem_cons.mpr ⟨⟨?_, Nesting.cut_eq_none_of_cut hcut⟩, ih _ hlt h rfl⟩
      rw [htop]
      exact Nesting.isClosed_top

/-- The alternatives of a list, with what is read of them. -/
theorem forall₂_isAlternative {s : Css.Selector} (h : Css.Selector.ofText t = .ok s)
    (hlead : ∀ a ∈ alternatives t, ∀ c ∈ a.head?, Css.isCombinator c = false)
    (hreserved : ∀ x ∈ s.alternatives, x.isReserved = false)
    (htransparent : isTransparent t = true) :
    List.Forall₂ IsAlternative (alternatives t) s.alternatives := by
  obtain ⟨hclosed, hread⟩ := Css.ofText_eq_ok.mp h
  obtain ⟨hlength, hread⟩ := List.forall₂_iff_zip.mp hread
  rw [alternatives, List.forall₂_map_left_iff, List.forall₂_iff_zip]
  refine ⟨hlength, fun {part x} hmem => ?_⟩
  obtain ⟨hpart, hx⟩ := List.of_mem_zip hmem
  have ha : Text.trim part ∈ alternatives t := List.mem_map_of_mem hpart
  rw [isTransparent, Bool.and_eq_true, List.all_eq_true] at htransparent
  have hboth := htransparent.1 _ ha
  rw [Bool.and_eq_true, List.all_eq_true] at hboth
  obtain ⟨hend, hcut⟩ := isSingle_of_mem_parts hclosed part hpart
  have hsingle : Css.Selector.ofText part = .ok ⟨[x]⟩ := by
    rw [Css.ofText_eq_ok, Css.parts, Css.split_eq_of_cut hcut]
    exact ⟨hend, .cons (hread hmem) .nil⟩
  exact ⟨Text.trim_trim part, hlead _ ha, hboth.1, hboth.2, hreserved x hx,
    (Css.ofText_trim part).trans hsingle⟩

/-- A list with blanks of every kind around its commas and combinators, within strings and within
arguments, with an escaped blank and an escape that ends with one. -/
def spacedList : Text :=
  (" div\t>  p.a\\ b  ,\n[title = \"x,  y\" i]::part( a  'b)' )::before," ++
    "a\\62 c:lang(\"de\")   :nth-child( 2n + 1 ) ").toList

/-- The selectors that it stands for. -/
def spacedSelectors : Css.Selector :=
  ⟨[⟨[.tag "p".toList, .hasClass "a b".toList], [(.child, [.tag "div".toList])]⟩,
    ⟨[.attribute ⟨"title".toList, some (.equals, "x,  y".toList), true⟩, .never, .never], []⟩,
    ⟨[.pseudo (.nthChild ⟨2, 1⟩)],
      [(.descendant, [.tag "abc".toList, .pseudo (.lang "de".toList)])]⟩]⟩

end Extended
end CosmeticFilter
