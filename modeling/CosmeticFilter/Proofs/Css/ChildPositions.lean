import CosmeticFilter.Css.Matching
import CosmeticFilter.Proofs.Css.ReadAlike
import CosmeticFilter.Proofs.Css.StepNotation
import CosmeticFilter.Proofs.Document.Tree

/-!
# Positions among the children

The four positional conditions ask where an element stands among the children of its parent: among
all that are elements, or among those of its own type, counted from the first or from the last. The
position is found without the list of children, by a walk along the links on one side, in 32 bits;
and the question whether it is `a * n + b` is put in 64 bits, with division that rounds towards
zero. In a document with fewer than 2³¹ - 1 nodes nothing of this is ever out of bounds, and the
position is the one in the list.

* `Nth.matches_iff`: the positions that `An+B` stands for;
* `Nth.matchesInWords?`, `Nth.matchesInWords?_eq`: the same in 64 bits;
* `Counting`: the four conditions, as one with two parameters;
* `Counting.place`, `Counting.countP_side`: the position in the list of children, and the walk;
* `Counting.ofText_condition`: how the conditions are written;
* `Counting.selects_iff_place`: what they select.
-/

namespace CosmeticFilter

namespace Css

open Text (IsDigitOrSign IsInt32 isBlank)

/-- The result of a step of arithmetic, if it is at least `-bound` and less than `bound`. -/
def within? (bound n : Int) : Option Int := if -bound ≤ n ∧ n < bound then some n else none

theorem within?_of_lt {bound n : Int} (h : n.natAbs < bound) : within? bound n = some n :=
  if_pos (by omega)

namespace Nth

variable {nth : Nth} {index : Int}

/-! ### The positions of the notation -/

/-- **The positions that the notation stands for.** -/
theorem matches_iff : nth.matches index = true ↔ ∃ k : Nat, index = nth.step * k + nth.offset := by
  unfold Nth.matches
  split
  · rename_i hzero
    simp [hzero]
  · rename_i hstep
    simp only [Bool.and_eq_true, beq_iff_eq, decide_eq_true_eq]
    constructor
    · rintro ⟨hrest, htimes⟩
      refine ⟨((index - nth.offset) / nth.step).toNat, ?_⟩
      rw [Int.toNat_of_nonneg htimes, Int.mul_ediv_cancel' (Int.dvd_of_emod_eq_zero hrest)]
      omega
    · rintro ⟨k, rfl⟩
      rw [Int.add_sub_cancel, Int.mul_ediv_cancel_left _ hstep]
      exact ⟨Int.mul_emod_right _ _, Int.natCast_nonneg k⟩

/-- The test in 64 bits: nothing, as soon as a result does not fit. The remainder is asked for
behind the quotient, as there is none where the quotient does not fit. -/
def matchesInWords? (nth : Nth) (index : Int) : Option Bool :=
  if nth.step = 0 then some (index == nth.offset)
  else do
    let distance ← within? 9223372036854775808 (index - nth.offset)
    let times ← within? 9223372036854775808 (distance.tdiv nth.step)
    let rest ← within? 9223372036854775808 (distance.tmod nth.step)
    return rest == 0 && 0 ≤ times

/-- The distance from the offset fits by far, and division makes it no greater. -/
theorem matchesInWords?_eq (hoffset : IsInt32 nth.offset) (hindex : IsInt32 index) :
    nth.matchesInWords? index = some (nth.matches index) := by
  unfold matchesInWords? Nth.matches
  split
  · rfl
  · have hdistance : (index - nth.offset).natAbs < 9223372036854775808 := by
      unfold IsInt32 at hoffset hindex
      omega
    generalize index - nth.offset = distance at hdistance ⊢
    have hfits : ∀ m : Int, m.natAbs ≤ distance.natAbs →
        within? 9223372036854775808 m = some m := fun m hm => within?_of_lt (by omega)
    have htimes := Int.natAbs_tdiv_le_natAbs distance nth.step
    have hrest : (distance.tmod nth.step).natAbs ≤ distance.natAbs := by
      rw [Int.natAbs_tmod]
      exact Nat.mod_le _ _
    simp only [Option.bind_eq_bind, hfits _ le_rfl, hfits _ htimes, hfits _ hrest, Option.bind_some,
      Option.pure_def, Option.some_inj]
    -- the two kinds of division agree where there is no remainder
    have hzero : distance.tmod nth.step = 0 ↔ distance % nth.step = 0 := by
      rw [← Int.dvd_iff_tmod_eq_zero, ← Int.dvd_iff_emod_eq_zero]
    rw [Bool.eq_iff_iff, Bool.and_eq_true, Bool.and_eq_true, beq_iff_eq, beq_iff_eq, hzero]
    refine and_congr_right fun hdvd => ?_
    rw [Int.tdiv_eq_ediv_of_dvd (Int.dvd_of_emod_eq_zero hdvd)]

/-! ### Writing -/

/-- An offset with its sign. -/
def offsetText : Int → Text
  | .ofNat n => '+' :: Text.ofNat n
  | .negSucc n => '-' :: Text.ofNat (n + 1)

/-- The notation, as `An+B`. -/
def text (nth : Nth) : Text := Text.ofInt nth.step ++ 'n' :: offsetText nth.offset

/-- The characters of the notation without blanks. -/
theorem IsSpelled.isDigitOrSign_or_mem {t : Text} (ht : ∀ d ∈ t, isBlank d = false)
    (h : IsSpelled t nth) : ∀ c ∈ t, IsDigitOrSign c ∨ c ∈ "odevn".toList := by
  rcases h.cases_of_not_blank ht with ⟨rfl, -⟩ | ⟨rfl, -⟩ | ⟨b, hb, -⟩ |
    ⟨front, back, a, b, rfl, hfront, hback, -, -⟩
  · exact List.forall_iff_forall_mem.mp (by decide)
  · exact List.forall_iff_forall_mem.mp (by decide)
  · exact fun c hc => .inl (hb.1.isDigitOrSign c hc)
  · intro c hc
    rcases List.mem_append.mp hc with hc | hc
    · exact .inl (hfront.isDigitOrSign c hc)
    · rcases List.mem_cons.mp hc with rfl | hc
      · exact .inr (by decide)
      · exact .inl (hback c hc)

theorem isSpelled_text (hstep : IsInt32 nth.step) (hoffset : IsInt32 nth.offset) :
    IsSpelled nth.text nth := by
  have hsum : ∀ {c : Char} {σ : Int} {m : Nat}, (c = '+' ∨ c = '-') → Text.IsSign [c] σ →
      nth.offset = σ * m → IsSpelled (Text.ofInt nth.step ++ 'n' :: c :: Text.ofNat m) nth := by
    intro c σ m hc hsign hm
    have hwritten : Text.IsInteger (c :: Text.ofNat m) nth.offset :=
      ⟨[c], σ, _, hsign, Text.isDigits_ofNat m, rfl, by rw [Text.digitsValue_ofNat, hm]⟩
    exact .unspaced (.number ⟨Text.isInteger_ofInt _, hstep⟩) hc ⟨hwritten, hoffset⟩
  unfold text
  cases hb : nth.offset with
  | ofNat m => exact hsum (.inl rfl) .plus (by rw [hb, Int.one_mul]; rfl)
  | negSucc m => exact hsum (.inr rfl) .minus (by rw [hb]; omega)

/-- Letter case is no matter in the notation. -/
theorem IsSpelled.lower_eq {t : Text} (ht : ∀ d ∈ t, isBlank d = false) (h : IsSpelled t nth) :
    Text.lower t = t := by
  have hdigits : ∀ c ∈ "0123456789".toList, c.toLower = c :=
    List.forall_iff_forall_mem.mp (by decide)
  have hletters : ∀ c ∈ "odevn".toList, c.toLower = c := List.forall_iff_forall_mem.mp (by decide)
  refine (List.map_congr_left fun c hc => ?_).trans (List.map_id _)
  rcases h.isDigitOrSign_or_mem ht c hc with (hdigit | rfl | rfl) | hletter
  · exact hdigits c (mem_digits hdigit)
  · rfl
  · rfl
  · exact hletters c hletter

/-- The notation is read as it is written. -/
theorem ofText?_text (hstep : IsInt32 nth.step) (hoffset : IsInt32 nth.offset) :
    ofText? nth.text = some nth := by
  have hspelled := (isSpelled_text hstep hoffset).withoutBlanks.1
  refine ofText?_of_isSpelled ?_
  rwa [hspelled.lower_eq fun _ => Text.not_blank_of_mem_withoutBlanks]

/-- Nothing that is read has a quote, a bracket, an escape or a comma in it. -/
theorem not_isDelimiter_of_ofText? {t : Text} (h : ofText? t = some nth) :
    ∀ c ∈ t, Brackets.roundAndSquare.isDelimiter c = false ∧ c ≠ ',' := by
  have hmarks : ∀ c ∈ "\\\"'()[],".toList, isBlank c = false ∧ c.toLower = c ∧
      ¬ IsDigitOrSign c ∧ c ∉ "odevn".toList := List.forall_iff_forall_mem.mp (by decide)
  have hspelled := isSpelled_of_ofText? h
  rw [← Text.withoutBlanks_lower] at hspelled
  intro c hc
  by_contra hmark
  obtain ⟨hnot, hlower, hdigit, hletter⟩ := hmarks c (by
    simp only [Brackets.isDelimiter, Brackets.opens, Brackets.closes] at hmark
    simp
    grind)
  have hmem : c ∈ Text.withoutBlanks (Text.lower t) :=
    List.mem_filter.mpr ⟨List.mem_map.mpr ⟨c, hc, hlower⟩, by rw [hnot]; rfl⟩
  rcases hspelled.isDigitOrSign_or_mem (fun _ => Text.not_blank_of_mem_withoutBlanks) c hmem with
    h | h
  · exact hdigit h
  · exact hletter h

end Nth

/-! ### Names and arguments without marks -/

/-- The argument reaches up to the first closing bracket if there are no marks in it. -/
theorem takeArgument?_of_not_isDelimiter {t : Text}
    (ht : ∀ c ∈ t, Brackets.round.isDelimiter c = false) (u : Text) :
    takeArgument? .top (t ++ ')' :: u) = some (t, u) := by
  induction t with
  | nil => rfl
  | cons c r ih =>
    obtain ⟨hc, hr⟩ := List.forall_mem_cons.mp ht
    have hclose : c ≠ ')' := by
      rintro rfl
      exact absurd hc (by decide)
    have hstep : Nesting.top.step .round c = .top :=
      Nesting.after_of_not_isDelimiter (t := [c]) (List.forall_mem_singleton.mpr hc) 0
    rw [List.cons_append, takeArgument?, if_neg fun h => hclose h.2, hstep, ih hr]
    rfl

/-- A name is read up to the bracket behind it. -/
theorem readIdent_of_identChars {kind : NameKind} {name : Text} (hne : name ≠ [])
    (hname : ∀ c ∈ name, isIdentChar c = true) (u : Text) :
    readIdent kind (name ++ '(' :: u) = .ok (name, '(' :: u) := by
  have hopen : takeIdent ('(' :: u) = ([], '(' :: u) := takeIdent_of_head fun c hc => by
    obtain rfl := Option.some_inj.mp hc
    decide
  refine readIdent_eq_ok.mpr ⟨?_, hne⟩
  rw [takeIdent_append hname, hopen, List.append_nil]

/-! ### The four conditions -/

/-- Which of the siblings are counted, and from which end. -/
structure Counting where
  /-- Only the siblings of the element's own type count. -/
  ofType : Bool
  /-- They are counted from the last. -/
  fromEnd : Bool

namespace Counting

variable {d : Document} {n p : Nat} {e : Element} {nth : Nth} {t : Text} (k : Counting)

/-- The condition that counts so. -/
def pseudoClass : Counting → Nth → PseudoClass
  | ⟨false, false⟩ => .nthChild
  | ⟨false, true⟩ => .nthLastChild
  | ⟨true, false⟩ => .nthOfType
  | ⟨true, true⟩ => .nthLastOfType

/-- Its name. -/
def name : Counting → Text
  | ⟨false, false⟩ => "nth-child".toList
  | ⟨false, true⟩ => "nth-last-child".toList
  | ⟨true, false⟩ => "nth-of-type".toList
  | ⟨true, true⟩ => "nth-last-of-type".toList

/-- The condition with an argument. -/
def text (argument : Text) : Text := ':' :: (k.name ++ '(' :: (argument ++ [')']))

/-- The node counts as a sibling of the element. -/
def counts (d : Document) (e : Element) : Nat → Bool :=
  if k.ofType then isSameType d e else d.isElement

/-- The siblings that count and the node itself, in order, if `p` is its parent. -/
def line (d : Document) (e : Element) (p : Nat) : List Nat :=
  (d.children p).filter (k.counts d e)

/-- The position among them, counting from one. -/
def place (d : Document) (e : Element) (p n : Nat) : Int :=
  let i : Int := (k.line d e p).idxOf n + 1
  if k.fromEnd then (k.line d e p).length + 1 - i else i

/-- The siblings on the side that is counted. -/
def side (d : Document) (n : Nat) : List Nat := if k.fromEnd then d.following n else d.preceding n

/-- The condition in the arithmetic of words, 32 bits for the position and 64 for what is done with
it. -/
def holdsInWords? (d : Document) (e : Element) (nth : Nth) (n : Nat) : Option Bool := do
  let before ← within? 2147483648 ((k.side d n).countP (k.counts d e))
  let index ← within? 2147483648 (before + 1)
  nth.matchesInWords? index

theorem holdsAt_pseudoClass :
    (k.pseudoClass nth).holdsAt d n e = nth.matches (position (k.side d n) (k.counts d e)) := by
  obtain ⟨_ | _, _ | _⟩ := k <;> rfl

/-! ### Where an element stands -/

/-- An element is one of its own type. -/
theorem counts_self (he : d.element? n = some e) : k.counts d e n = true := by
  unfold counts
  split
  · rw [isSameType, he]
    exact beq_self_eq_true _
  · rw [Document.isElement, he]
    rfl

/-- **The position of an element.** The siblings that are passed on the way to one end of the list
are those that stand before the element, counted from that end. -/
theorem countP_side (hd : d.IsTree) (he : d.element? n = some e) (hn : n ∈ d.children p) :
    ((k.side d n).countP (k.counts d e) : Int) + 1 = k.place d e p n := by
  obtain ⟨before, after, hsplit⟩ := List.append_of_mem hn
  have hnodup := hd.nodup_children p
  rw [hsplit] at hnodup
  have hline : k.line d e p =
      before.filter (k.counts d e) ++ n :: after.filter (k.counts d e) := by
    rw [line, hsplit, List.filter_append, List.filter_cons_of_pos (k.counts_self he)]
  have hnot : n ∉ before.filter (k.counts d e) := fun hmem =>
    (List.nodup_append.mp hnodup).2.2 n (List.mem_filter.mp hmem).1 n List.mem_cons_self rfl
  have hindex : (k.line d e p).idxOf n = before.countP (k.counts d e) := by
    rw [hline, List.idxOf_append_of_notMem hnot, List.idxOf_cons_self, Nat.add_zero,
      List.countP_eq_length_filter]
  have hlength : (k.line d e p).length =
      before.countP (k.counts d e) + (after.countP (k.counts d e) + 1) := by
    rw [hline, List.length_append, List.length_cons, List.countP_eq_length_filter,
      List.countP_eq_length_filter]
  unfold place side
  dsimp only
  rw [hindex, hlength]
  split
  · rw [hd.following_eq hsplit]
    omega
  · rw [hd.preceding_eq hsplit, List.countP_reverse]

/-- A node has fewer children than the document has nodes. -/
theorem length_children_lt (hd : d.IsTree) (hn : n ∈ d.children p) :
    (d.children p).length < d.size := by
  have hsub : d.children p ⊆ (List.range d.size).erase p := fun m hm => by
    have := Document.child_gt hm
    exact (List.mem_erase_of_ne (by omega)).mpr (List.mem_range.mpr this.2)
  have hle := ((hd.nodup_children p).subperm hsub).length_le
  have hp : p ∈ List.range d.size := by
    have := Document.child_gt hn
    exact List.mem_range.mpr (by omega)
  have hpos := List.length_pos_of_mem hp
  rw [List.length_erase_of_mem hp, List.length_range] at hle
  rw [List.length_range] at hpos
  omega

theorem place_le (hn : n ∈ d.children p) (he : d.element? n = some e) :
    0 < k.place d e p n ∧ k.place d e p n ≤ (d.children p).length := by
  have hmem : n ∈ k.line d e p := List.mem_filter.mpr ⟨hn, k.counts_self he⟩
  have hlt := List.idxOf_lt_length_of_mem hmem
  have hle := List.length_filter_le (k.counts d e) (d.children p)
  unfold place
  unfold line at hlt ⊢
  dsimp only
  split <;> omega

/-! ### How the conditions are written -/

/-- The condition by itself, with any argument that is read. -/
theorem readPseudo_text (h : Nth.ofText? t = some nth) :
    readPseudo (k.name ++ '(' :: (t ++ [')'])) = .ok (.pseudo (k.pseudoClass nth), []) := by
  have hmarks := Nth.not_isDelimiter_of_ofText? h
  have hplain : ∀ c ∈ t, Brackets.round.isDelimiter c = false := fun c hc => by
    have hc := (hmarks c hc).1
    simp only [Brackets.isDelimiter, Brackets.opens, Brackets.closes, Bool.or_eq_false_iff] at hc ⊢
    exact ⟨⟨hc.1.1, hc.1.2.1⟩, hc.2.1⟩
  have hargument : readArgument ('(' :: (t ++ [')'])) = .ok (some t, []) := by
    rw [readArgument, if_pos rfl, takeArgument?_of_not_isDelimiter hplain]
  have hname : readIdent .pseudoClassName (k.name ++ '(' :: (t ++ [')'])) =
      .ok (k.name, '(' :: (t ++ [')'])) := by
    refine readIdent_of_identChars ?_ (List.forall_iff_forall_mem.mp ?_) _ <;>
      obtain ⟨_ | _, _ | _⟩ := k <;> decide
  have hcondition : conditionOf false k.name (some t) = .ok (.pseudo (k.pseudoClass nth)) := by
    have hpositional : positional? (Text.lower k.name) = some k.pseudoClass := by
      obtain ⟨_ | _, _ | _⟩ := k <;> rfl
    unfold conditionOf pseudoClassOf
    rw [hpositional, if_neg Bool.false_ne_true]
    simp only [Option.bind_some, h]
  have hcolon : (k.name ++ '(' :: (t ++ [')'])).head? ≠ some ':' := by
    obtain ⟨_ | _, _ | _⟩ := k <;> exact fun h => absurd (Option.some_inj.mp h) (by decide)
  rw [readPseudo_eq, if_neg hcolon]
  exact readNamed_eq_ok.mpr ⟨_, _, _, hname, hargument, hcondition⟩

/-- The text of the condition is one selector, as no comma stands outside its bracket. -/
theorem isSingle_text (h : Nth.ofText? t = some nth) : IsSingle (k.text t) := by
  have hmarks := Nth.not_isDelimiter_of_ofText? h
  have hopening : Nesting.top.after .roundAndSquare (':' :: (k.name ++ ['('])) = ⟨none, 1, false⟩ ∧
      Nesting.cut .roundAndSquare (· == ',') .top (':' :: (k.name ++ ['('])) = none := by
    obtain ⟨_ | _, _ | _⟩ := k <;> decide
  have hinside := Nesting.after_of_not_isDelimiter (fun c hc => (hmarks c hc).1) 1
  have hcut : Nesting.cut .roundAndSquare (· == ',') ⟨none, 1, false⟩ t = none :=
    Nesting.cut_eq_none_of_forall fun c hc => beq_eq_false_iff_ne.mpr (hmarks c hc).2
  have hsplit : k.text t = (':' :: (k.name ++ ['('])) ++ (t ++ [')']) := by simp [text]
  unfold IsSingle
  rw [hsplit, Nesting.after_append, Nesting.after_append, hopening.1, hinside,
    Nesting.cut_append_of_none hopening.2, hopening.1, Nesting.cut_append_of_none hcut, hinside]
  exact ⟨rfl, rfl⟩

/-- **The condition is read**, with every argument that is. -/
theorem ofText_condition (h : Nth.ofText? t = some nth) :
    Selector.ofText (k.text t) = .ok ⟨[⟨[.pseudo (k.pseudoClass nth)], []⟩]⟩ := by
  have hsingle := k.isSingle_text h
  have htrim : Text.trim (k.text t) = k.text t := by
    refine Text.trim_eq_self (fun c hc => ?_) fun c hc => ?_
    · obtain rfl := Option.some_inj.mp hc
      decide
    · rw [show k.text t = (':' :: (k.name ++ '(' :: t)) ++ [')'] by simp [text],
        List.getLast?_concat] at hc
      obtain rfl := Option.some_inj.mp hc
      decide
  refine (ofText_eq_single htrim fun c hc => ?_).mpr
    ⟨by rw [hsingle.1]; exact Nesting.isClosed_top, hsingle.2, List.cons_ne_nil _ _, ?_⟩
  · obtain rfl := Option.some_inj.mp hc
    decide
  · have hconditions : readConditions true (k.text t) =
        .ok ([.pseudo (k.pseudoClass nth)], []) := by
      unfold text
      rw [readConditions_of_some (ReadsSimple.pseudo (k.readPseudo_text h)).readSimple_eq,
        readConditions_of_none (by rfl)]
      rfl
    rw [readChain_eq, readCompound_eq_ok.mpr ⟨hconditions, List.cons_ne_nil _ _⟩]
    exact readOn_of_end (t := []) rfl

/-! ### What the conditions select -/

/-- One condition on an element, by itself. -/
theorem selects_pseudo (he : d.element? n = some e) {c : PseudoClass} (hc : c ≠ .scope)
    (scope : Option Nat) :
    Selector.selects d scope ⟨[⟨[.pseudo c], []⟩]⟩ n = c.holdsAt d n e := by
  have hsimple : Simple.holdsAt d scope n (.pseudo c) = c.holdsAt d n e := by
    unfold Simple.holdsAt
    split
    · rename_i hscope
      exact absurd (Simple.pseudo.inj hscope) hc
    · rename_i hsame
      obtain rfl := Simple.pseudo.inj hsame
      rw [he]
      rfl
    · rename_i hother
      exact absurd rfl (hother c)
  simp [Selector.selects, Complex.selects, Compound.holdsAt, chainHolds, Document.isElement, he,
    hsimple]

/-- In a document that is not too large, the position is not cut off. -/
theorem position_side (hd : d.IsTree) (hsize : d.size < 2147483647) (he : d.element? n = some e)
    (hn : n ∈ d.children p) :
    position (k.side d n) (k.counts d e) = k.place d e p n := by
  have hplace := k.place_le hn he
  have hchildren := length_children_lt hd hn
  rw [position, k.countP_side hd he hn, maxPosition]
  exact min_eq_left (by omega)

/-- In a document that is not too large, no result leaves its word. -/
theorem holdsInWords?_eq (hd : d.IsTree) (hsize : d.size < 2147483647)
    (he : d.element? n = some e) (hn : n ∈ d.children p) (hoffset : IsInt32 nth.offset) :
    k.holdsInWords? d e nth n = some (nth.matches (k.place d e p n)) := by
  have hplace := k.place_le hn he
  have hchildren := length_children_lt hd hn
  have hcount := k.countP_side hd he hn
  have hbefore : within? 2147483648 ((k.side d n).countP (k.counts d e)) =
      some ((k.side d n).countP (k.counts d e) : Int) := within?_of_lt (by omega)
  have hafter : within? 2147483648 (k.place d e p n) = some (k.place d e p n) :=
    within?_of_lt (by omega)
  unfold holdsInWords?
  rw [hbefore, Option.bind_eq_bind, Option.bind_some, hcount, hafter]
  exact Nth.matchesInWords?_eq hoffset ⟨by omega, by omega⟩

/-- **The positional conditions.** An element that is not the document stands in the list of
children of its parent. In a document with fewer than 2³¹ - 1 nodes, a condition `a * n + b`, in any
of its spellings, selects the element exactly if its position, counted from one end among all
elements or those of its type, is one of those that the notation stands for; and the arithmetic by
which this is found out does not leave its words, for any `a` and `b`. -/
theorem selects_iff_place (hd : d.Built) (hsize : d.size < 2147483647) (he : d.element? n = some e)
    {a b : Int} (ha : IsInt32 a) (hb : IsInt32 b) (k : Counting) :
    ∃ p, d.parent? n = some p ∧ n ∈ d.children p ∧ Nth.ofText? (Nth.text ⟨a, b⟩) = some ⟨a, b⟩ ∧
      (∀ t, Nth.ofText? t = some ⟨a, b⟩ → ∃ s, Selector.ofText (k.text t) = .ok s ∧
        ∀ scope, s.selects d scope n = true ↔ ∃ m : Nat, k.place d e p n = a * m + b) ∧
      ∃ answer, k.holdsInWords? d e ⟨a, b⟩ n = some answer ∧
        (answer = true ↔ ∃ m : Nat, k.place d e p n = a * m + b) := by
  have hne : n ≠ 0 := by
    rintro rfl
    have hzero := hd.not_isElement_zero
    rw [Document.isElement, he] at hzero
    cases hzero
  have hlt : n < d.size := Document.lt_size_of_isElement (by rw [Document.isElement, he]; rfl)
  obtain ⟨p, hp, hn⟩ := hd.exists_parent hlt hne
  refine ⟨p, hp, hn, Nth.ofText?_text ha hb,
    fun t ht => ⟨_, k.ofText_condition ht, fun scope => ?_⟩,
    _, k.holdsInWords?_eq hd.isTree hsize he hn hb, Nth.matches_iff⟩
  rw [selects_pseudo he (by obtain ⟨_ | _, _ | _⟩ := k <;> simp [pseudoClass]) scope,
    k.holdsAt_pseudoClass, k.position_side hd.isTree hsize he hn]
  exact Nth.matches_iff

/-- A list with a text between its two items, the names of which differ in letter case. -/
def mixedList : Document :=
  (((Document.empty.append 0 (.element ⟨"ul".toList, [], []⟩)).append 1
    (.element ⟨"li".toList, [], []⟩)).append 1 (.text "and".toList)).append 1
    (.element ⟨"LI".toList, [], []⟩)

/-- The second item, with the least step of all. -/
theorem selects_iff_place_mixedList :
    mixedList.Built ∧ mixedList.size < 2147483647 ∧
      mixedList.element? 4 = some ⟨"LI".toList, [], []⟩ ∧ IsInt32 (-2147483648) ∧ IsInt32 2 ∧
      ∃ s, Selector.ofText ":nth-of-type(-2147483648n+2)".toList = .ok s ∧
        ∀ scope, s.selects mixedList scope 4 = true := by
  have hbuilt : mixedList.Built :=
    (((Document.Built.empty.append 0 _).append 1 _).append 1 _).append 1 _
  have hsize : mixedList.size < 2147483647 := by decide
  have helement : mixedList.element? 4 = some ⟨"LI".toList, [], []⟩ := rfl
  refine ⟨hbuilt, hsize, helement, by decide, by decide, ?_⟩
  obtain ⟨p, hp, -, hread, hselects, -⟩ :=
    selects_iff_place hbuilt hsize helement (a := -2147483648) (b := 2) (by decide) (by decide)
      ⟨true, false⟩
  obtain ⟨s, hs, hiff⟩ := hselects _ hread
  obtain rfl : 1 = p := Option.some_inj.mp hp
  exact ⟨s, hs, fun scope => (hiff scope).mpr ⟨0, by decide⟩⟩

end Counting
end Css
end CosmeticFilter
