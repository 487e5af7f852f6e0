import CosmeticFilter.Proofs.Css.CompoundEnd
import CosmeticFilter.Proofs.Query.Continuation

/-!
# The first compound of a fragment

A fragment that starts within a compound is split in two: what the elements found so far have to
meet, and what leads on from there. The splitter looks for the first blank or combinator outside
quotes and brackets. The first part should be the first compound of the fragment, and the second one
should say of `:scope` what the fragment says of that compound. So it is where the splitter passes
over the names and the arguments of the compound. It does not if a name takes a blank, or if the
square brackets of an argument are not nested. And the parts are read by themselves: an escaped
blank at the end of the compound is lost then, and a blank outside ASCII at the start of the rest
becomes a part of the name of `:scope`.

* `Complex.leftmost`, `Complex.withLeftmost`: the compound furthest to the left, and another in its
  place;
* `SplitsOff`: the fragment is split behind its first compound;
* `IsSplittable`: what the splitter needs;
* `Opens`: the first compound of a fragment, and what is read of the rest;
* `splitsOff_of_isSplittable`, `not_splitsOff`: splitting works then, and not always;
* `isSplittable_of_isPlain`: without escapes and blanks outside ASCII, only the square brackets of
  arguments matter.
-/

namespace CosmeticFilter

namespace Css.Complex

/-- The compound furthest to the left. -/
def leftmost (x : Complex) : Compound := (x.chain.getLast?.map Prod.snd).getD x.subject

/-- The selector with another compound furthest to the left. -/
def withLeftmost (c : Compound) (x : Complex) : Complex :=
  match x.chain.getLast? with
  | none => ⟨c, []⟩
  | some (k, _) => ⟨x.subject, x.chain.dropLast ++ [(k, c)]⟩

@[simp] theorem leftmost_append (s c : Compound) (l : List (Combinator × Compound))
    (k : Combinator) : leftmost ⟨s, l ++ [(k, c)]⟩ = c := by
  simp [leftmost]

@[simp] theorem withLeftmost_append (s c c' : Compound) (l : List (Combinator × Compound))
    (k : Combinator) : withLeftmost c' ⟨s, l ++ [(k, c)]⟩ = ⟨s, l ++ [(k, c')]⟩ := by
  simp [withLeftmost]

end Css.Complex

namespace Continuation

open Css (Compound Scans IsPassed endsCompound readConditions readOn)
open Nesting (cut)

variable {t q u w : Text} {x : Css.Complex} {first : Compound}

/-- The fragment, which is read as the selector, is split behind its first compound. -/
structure SplitsOff (t : Text) (x : Css.Complex) : Prop where
  /-- Nothing is lost. -/
  append : (splitCompound t).1 ++ (splitCompound t).2 = t
  /-- The first part is the first compound. -/
  compound : Css.Selector.ofText (splitCompound t).1 = .ok ⟨[⟨x.leftmost, []⟩]⟩
  /-- The rest is blank if there are no other compounds, and otherwise it says of `:scope` what the
  fragment says of its first compound. -/
  rest : (Text.isAllBlank (splitCompound t).2 = true ∧ x.chain = []) ∨
    Css.Selector.ofText (":scope".toList ++ (splitCompound t).2) =
      .ok ⟨[x.withLeftmost [.pseudo .scope]]⟩

/-- Nothing in the first compound hides its end from the splitter or feigns another one, and both
parts can be read by themselves. -/
structure IsSplittable (t : Text) : Prop where
  /-- The names of the first compound, and the arguments behind them, are passed over. -/
  names : ∀ n ∈ Css.namesOfConditions true (Text.trim t), n.isPassed = true
  /-- If more than blanks follows, the first part does not end in a blank, as after a backslash. -/
  last : Text.isAllBlank (splitCompound t).2 = false →
    ∀ c ∈ (splitCompound t).1.getLast?, Text.isBlank c = false
  /-- If more than blanks follows, it does not start with a blank that may stand in a name. -/
  next : Text.isAllBlank (splitCompound t).2 = false →
    ∀ c ∈ (splitCompound t).2.head?, Css.isIdentChar c = false

/-! ### Where the fragment is split -/

theorem splitCompound_eq (t : Text) : splitCompound t =
    match cut .roundAndSquare endsCompound .top t with
    | some (q, c, r) => (q, c :: r)
    | none => (t, []) := rfl

theorem splitCompound_of_isPassed (hq : IsPassed q) (hne : w ≠ [])
    (hw : ∀ c ∈ w.head?, endsCompound c = true) : splitCompound (q ++ w) = (q, w) := by
  obtain ⟨c, r, rfl⟩ := List.exists_cons_of_ne_nil hne
  have hc := hw c rfl
  have hcut : cut .roundAndSquare endsCompound .top (q ++ c :: r) = some (q, c, r) := by
    refine Nesting.cut_eq_some_iff.mpr ⟨rfl, hq.cut_eq_none, ?_⟩
    rw [hq.after_eq, Nesting.cutsAt, hc, Css.not_isDelimiter_of_endsCompound hc]
    rfl
  rw [splitCompound_eq, hcut]

/-- Where nothing is cut, at most the end is cut off. -/
theorem exists_splitCompound_append (hcut : cut .roundAndSquare endsCompound .top u = none)
    (w : Text) : ∃ y z, w = y ++ z ∧ splitCompound (u ++ w) = (u ++ y, z) := by
  rw [splitCompound_eq, Nesting.cut_append_of_none hcut]
  cases hw : cut .roundAndSquare endsCompound (Nesting.top.after .roundAndSquare u) w with
  | none => exact ⟨w, [], (List.append_nil w).symm, rfl⟩
  | some parts =>
    obtain ⟨y, c, z⟩ := parts
    exact ⟨y, c :: z, Nesting.cut_eq_some hw, rfl⟩

/-! ### What the parts are -/

/-- A compound, read as a selector. -/
theorem ofText_of_readConditions (hclosed : (Nesting.top.after .roundAndSquare q).IsClosed)
    (hcomma : cut .roundAndSquare (· == ',') .top q = none) (htrim : Text.trim q = q)
    (hlead : ∀ c ∈ q.head?, Css.isCombinator c = false)
    (hread : readConditions true q = .ok (first, [])) (hne : first ≠ []) :
    Css.Selector.ofText q = .ok ⟨[⟨first, []⟩]⟩ := by
  have hcompound := Css.readCompound_eq_ok.mpr ⟨hread, hne⟩
  refine (Css.ofText_eq_single htrim hlead).mpr
    ⟨hclosed, hcomma, Css.ne_nil_of_readCompound hcompound, ?_⟩
  rw [Css.readChain_eq, hcompound]
  exact Css.readOn_of_end (t := []) rfl

/-- What follows `:scope`. -/
theorem ofText_scope_append (hclosed : (Nesting.top.after .roundAndSquare w).IsClosed)
    (hcomma : cut .roundAndSquare (· == ',') .top w = none)
    (hlast : ∀ c ∈ w.getLast?, Text.isBlank c = false)
    (hw : ∀ c ∈ w.head?, endsCompound c = true ∧ Css.isIdentChar c = false)
    (hread : readOn [] [.pseudo .scope] w = .ok x) :
    Css.Selector.ofText (":scope".toList ++ w) = .ok ⟨[x]⟩ := by
  have hdetached : Css.Detached w := by
    intro c hc
    obtain ⟨hend, hident⟩ := hw c hc
    refine ⟨hident, Css.ne_backslash_of_endsCompound hend, ?_⟩
    rintro rfl
    cases hend
  have hnone : readConditions false w = .ok ([], w) := by
    cases w with
    | nil => exact Css.readConditions_of_none rfl
    | cons c r =>
      exact Css.readConditions_of_none (Css.readSimple_cons_eq_none_iff.mpr
        ⟨(hw c rfl).1, fun hfirst => Bool.false_ne_true hfirst.1⟩)
  have hscope : Nesting.top.after .roundAndSquare ":scope".toList = .top := by decide
  have htrim : Text.trim (":scope".toList ++ w) = ":scope".toList ++ w := by
    refine Text.trim_eq_self (fun c hc => ?_) fun c hc => ?_
    · rw [← Option.some_inj.mp hc]
      decide
    · cases w with
      | nil =>
        rw [← Option.some_inj.mp hc]
        decide
      | cons d r =>
        rw [List.getLast?_append_of_ne_nil _ (List.cons_ne_nil d r)] at hc
        exact hlast c hc
  refine (Css.ofText_eq_single htrim fun c hc => ?_).mpr ⟨?_, ?_, by simp, ?_⟩
  · rw [← Option.some_inj.mp hc]
    decide
  · rwa [Nesting.after_append, hscope]
  · rw [Nesting.cut_append_eq_none_iff, hscope]
    exact ⟨by decide, hcomma⟩
  · rw [Css.readChain_scope_append hdetached hnone, hread]

/-- What follows the first compound, read from `:scope` on. -/
theorem readOn_scope {w : Text} (h : readOn [] first w = .ok x) (hne : Text.trimStart w ≠ []) :
    readOn [] [.pseudo .scope] w = .ok (x.withLeftmost [.pseudo .scope]) ∧ x.leftmost = first := by
  obtain ⟨k, y, hsubject, hchain, hall⟩ := Css.readOn_eq_ok h hne
  obtain ⟨subject, chain⟩ := x
  obtain rfl : subject = y.subject := hsubject
  obtain rfl : chain = y.chain ++ [(k, first)] := hchain
  rw [hall, Css.Complex.withLeftmost_append, Css.Complex.leftmost_append]
  exact ⟨rfl, rfl⟩

/-! ### The first compound and the rest -/

/-- A selector without blanks around it, of which the first compound has been read. -/
structure Opens (u q b rest : Text) (first : Compound) (x : Css.Complex) : Prop where
  /-- It ends outside quotes and brackets. -/
  isClosed : (Nesting.top.after .roundAndSquare u).IsClosed
  /-- It is no list of several. -/
  comma : cut .roundAndSquare (· == ',') .top u = none
  /-- No blanks stand around it. -/
  trim_eq : Text.trim u = u
  /-- No combinator stands in front of it. -/
  lead : ∀ c ∈ u.head?, Css.isCombinator c = false
  /-- The compound is passed over. -/
  scans : Scans u q b rest
  /-- It ends there. -/
  ends : ∀ c ∈ rest.head?, endsCompound c = true
  /-- It has conditions. -/
  ne_nil : first ≠ []
  /-- They are read of it alone. -/
  conditions : readConditions true q = .ok (first, [])
  /-- The other compounds are read of the rest. -/
  next : readOn [] first rest = .ok x

theorem exists_opens (ht : Css.Selector.ofText t = .ok ⟨[x]⟩) (hstart : isRelative t = false)
    (hnames : ∀ n ∈ Css.namesOfConditions true (Text.trim t), n.isPassed = true) :
    ∃ e q b rest first, (∀ c ∈ e, Text.isBlank c = true) ∧ t = Text.trim t ++ e ∧
      Opens (Text.trim t) q b rest first x := by
  have hhead : ∀ c ∈ t.head?, Text.isBlank c = false ∧ Css.isCombinator c = false := by
    intro c hc
    rw [isRelative, Option.mem_def.mp hc, Option.any_some, Bool.or_eq_false_iff] at hstart
    exact hstart
  obtain ⟨e, he, heq⟩ : ∃ e, (∀ c ∈ e, Text.isBlank c = true) ∧ t = Text.trim t ++ e := by
    rw [Text.trim, Text.trimStart_eq_self fun c hc => (hhead c hc).1]
    exact Text.exists_append_trimEnd t
  have hlead : ∀ c ∈ (Text.trim t).head?, Css.isCombinator c = false := by
    intro c hc
    obtain ⟨r, hr⟩ := List.head?_eq_some_iff.mp (Option.mem_def.mp hc)
    refine (hhead c ?_).2
    rw [heq, hr]
    rfl
  obtain ⟨hclosed, hcomma, hne, hread⟩ :=
    (Css.ofText_eq_single (Text.trim_trim t) hlead).mp ((Css.ofText_trim t).trans ht)
  rw [Css.readChain_eq] at hread
  obtain ⟨⟨first, rest⟩, hcompound, hon⟩ := Outcome.bind_eq_ok.mp hread
  obtain ⟨hconditions, hfirst⟩ := Css.readCompound_eq_ok.mp hcompound
  obtain ⟨q, b, hscans, hq⟩ := Css.scans_readConditions hconditions hnames
  exact ⟨e, q, b, rest, first, he, heq, hclosed, hcomma, Text.trim_trim t, hlead, hscans,
    Css.endsCompound_of_readConditions hconditions, hfirst, hq, hon⟩

namespace Opens

variable {b rest e : Text}

theorem getLast? (h : Opens u q b rest first x) : ∀ c ∈ u.getLast?, Text.isBlank c = false :=
  fun c hc => Text.not_blank_of_getLast?_trim (t := u) (by rwa [h.trim_eq])

theorem ne_nil_of_conditions (h : Opens u q b rest first x) : q ≠ [] := by
  rintro rfl
  have hread := h.conditions
  rw [Css.readConditions_of_none rfl] at hread
  exact h.ne_nil (Prod.mk.inj (Except.ok.inj hread)).1.symm

/-- A compound alone is split from nothing but blanks. -/
theorem splitsOff_of_nil (h : Opens u q b [] first x) (he : ∀ c ∈ e, Text.isBlank c = true) :
    SplitsOff (u ++ e) x := by
  obtain rfl : x = ⟨first, []⟩ := (Except.ok.inj h.next).symm
  have hb : b = [] := by
    refine h.scans.blank.resolve_right ?_
    rintro ⟨⟨c, hc, rfl⟩, -⟩
    have hlast := h.getLast? c (by rw [h.scans.eq, List.append_nil, List.getLast?_concat]; rfl)
    rw [hc] at hlast
    cases hlast
  have hu : u = q := by rw [h.scans.eq, hb, List.append_nil, List.append_nil]
  subst hu
  have hfirst := ofText_of_readConditions h.isClosed h.comma h.trim_eq h.lead h.conditions h.ne_nil
  obtain ⟨y, z, rfl, hsplit⟩ := exists_splitCompound_append h.scans.cut_eq_none e
  refine ⟨splitCompound_append _, ?_, .inl ⟨?_, rfl⟩⟩
  · rw [hsplit, ← Css.ofText_trim,
      Text.trim_append_of_blank fun c hc => he c (List.mem_append_left z hc), h.trim_eq]
    exact hfirst
  · rw [hsplit]
    exact List.all_eq_true.mpr fun c hc => he c (List.mem_append_right y hc)

variable (h : Opens u q b rest first x) (hne : rest ≠ [])
include h

/-- A blank or a combinator stands behind the compound, whether an escape takes the blank or not. -/
theorem endsCompound_of_head? : ∀ c ∈ (b ++ rest).head?, endsCompound c = true := by
  intro c hc
  rcases h.scans.blank with rfl | ⟨⟨d, hblank, rfl⟩, -⟩
  · exact h.ends c hc
  · rw [← Option.some_inj.mp hc, endsCompound, hblank, Bool.true_or]

include hne

theorem isPassed : IsPassed q := h.scans.isPassed (List.append_ne_nil_of_right_ne_nil b hne)

theorem splitCompound_eq (e : Text) : splitCompound (u ++ e) = (q, b ++ rest ++ e) := by
  rw [h.scans.eq, List.append_assoc]
  have hmore : b ++ rest ≠ [] := List.append_ne_nil_of_right_ne_nil b hne
  refine splitCompound_of_isPassed (h.isPassed hne) (List.append_ne_nil_of_left_ne_nil hmore e) ?_
  rw [List.head?_append_of_ne_nil _ hmore]
  exact h.endsCompound_of_head?

theorem not_blank_of_getLast? : ∀ c ∈ (b ++ rest).getLast?, Text.isBlank c = false := by
  intro c hc
  refine h.getLast? c ?_
  rw [h.scans.eq, List.getLast?_append_of_ne_nil q (List.append_ne_nil_of_right_ne_nil b hne)]
  exact hc

theorem trimStart_ne_nil : Text.trimStart (b ++ rest) ≠ [] := fun hblank =>
  hne (List.append_eq_nil_iff.mp (Css.eq_nil_of_trimStart (h.not_blank_of_getLast? hne) hblank)).2

/-- The compound of others that follow it. -/
theorem ofText_first (hlast : ∀ c ∈ q.getLast?, Text.isBlank c = false) :
    Css.Selector.ofText q = .ok ⟨[⟨first, []⟩]⟩ := by
  have hpassed := h.isPassed hne
  have hcomma := h.comma
  rw [h.scans.eq, Nesting.cut_append_eq_none_iff] at hcomma
  have hhead : q.head? = u.head? := by
    rw [h.scans.eq, List.head?_append_of_ne_nil q h.ne_nil_of_conditions]
  have htrim : Text.trim q = q := Text.trim_eq_self (fun c hc => by
    refine Text.not_blank_of_head?_trim (t := u) ?_
    rw [h.trim_eq, ← hhead, Option.mem_def.mp hc]) hlast
  refine ofText_of_readConditions ?_ hcomma.1 htrim (fun c hc => h.lead c (hhead ▸ hc))
    h.conditions h.ne_nil
  rw [hpassed.after_eq]
  exact Nesting.isClosed_top

/-- What follows the compound, from `:scope` on. -/
theorem ofText_scope (he : ∀ c ∈ e, Text.isBlank c = true)
    (hnext : ∀ c ∈ (b ++ rest).head?, Css.isIdentChar c = false) :
    Css.Selector.ofText (":scope".toList ++ (b ++ rest ++ e)) =
      .ok ⟨[x.withLeftmost [.pseudo .scope]]⟩ := by
  have hpassed := h.isPassed hne
  have hcomma := h.comma
  have hclosed := h.isClosed
  rw [h.scans.eq, Nesting.cut_append_eq_none_iff, hpassed.after_eq] at hcomma
  rw [h.scans.eq, Nesting.after_append, hpassed.after_eq] at hclosed
  have hon : readOn [] first (b ++ rest) = .ok x := h.scans.readOn_eq.trans h.next
  have hread := ofText_scope_append hclosed hcomma.2 (h.not_blank_of_getLast? hne)
    (fun c hc => ⟨h.endsCompound_of_head? c hc, hnext c hc⟩)
    (readOn_scope hon (h.trimStart_ne_nil hne)).1
  rwa [← Css.ofText_trim, ← List.append_assoc, Text.trim_append_of_blank he, Css.ofText_trim]

/-- A compound that others follow is split from these. -/
theorem splitsOff_of_ne_nil (he : ∀ c ∈ e, Text.isBlank c = true)
    (hsplittable : IsSplittable (u ++ e)) : SplitsOff (u ++ e) x := by
  have hon : readOn [] first (b ++ rest) = .ok x := h.scans.readOn_eq.trans h.next
  have hleftmost := (readOn_scope hon (h.trimStart_ne_nil hne)).2
  have hsplit := h.splitCompound_eq hne e
  have hblank : Text.isAllBlank (splitCompound (u ++ e)).2 = false := by
    rw [hsplit, ← Bool.not_eq_true]
    intro hall
    refine h.trimStart_ne_nil hne (Text.trimStart_eq_nil_iff.mpr fun c hc => ?_)
    exact List.all_eq_true.mp hall c (List.mem_append_left e hc)
  have hlast := hsplittable.last hblank
  have hnext := hsplittable.next hblank
  rw [hsplit] at hlast hnext
  refine ⟨splitCompound_append _, ?_, .inr ?_⟩
  · rw [hsplit, hleftmost]
    exact h.ofText_first hne hlast
  · rw [hsplit]
    refine h.ofText_scope hne he fun c hc => hnext c ?_
    obtain ⟨r, hr⟩ := List.head?_eq_some_iff.mp (Option.mem_def.mp hc)
    rw [hr]
    rfl

end Opens

/-! ### Texts that are split behind their first compound -/

/-- Without escapes and without blanks outside ASCII, only the square brackets of arguments
matter. -/
theorem isSplittable_of_isPlain {s : Css.Selector} (ht : Css.Selector.ofText t = .ok s)
    (hplain : Css.IsPlain t)
    (hascii : ∀ c ∈ t, Text.isBlank c = true → Css.isIdentChar c = false)
    (hargument : ∀ n ∈ Css.namesOfConditions true (Text.trim t),
      Css.isPassedArgument n.rest = true) : IsSplittable t := by
  obtain ⟨parts, hparts, -⟩ := Outcome.bind_eq_ok.mp ht
  refine ⟨fun n hn => ?_, fun _ => ?_, fun _ c hc => ?_⟩
  · have hpart := (Css.isNameIn_of_mem_namesOfConditions hn).infix_text.trans (Text.infix_trim t)
    have hname := Css.takesBlank_of_isPlain (fun c hc => hplain c (hpart.mem hc))
      fun c hc => hascii c (hpart.mem hc)
    rw [Css.NamePlace.isPassed, hname, hargument n hn]
    simp
  · exact not_blank_of_splitCompound hplain (Css.after_eq_top_of_splitList hplain hparts)
  · have hend := head?_splitCompound_snd t c hc
    rw [Bool.or_eq_true] at hend
    rcases hend with hblank | hcombinator
    · have hmem : c ∈ t := by
        rw [← splitCompound_append t]
        exact List.mem_append_right _ (List.mem_of_mem_head? hc)
      exact hascii c hmem hblank
    · rcases Css.isCombinator_cases hcombinator with rfl | rfl | rfl <;> rfl

/-- **The first compound.** A fragment that starts within a compound is split behind it. -/
theorem splitsOff_of_isSplittable (ht : Css.Selector.ofText t = .ok ⟨[x]⟩)
    (hstart : isRelative t = false) (h : IsSplittable t) : SplitsOff t x := by
  obtain ⟨e, q, b, rest, first, he, heq, hopens⟩ := exists_opens ht hstart h.names
  generalize Text.trim t = u at *
  subst heq
  by_cases hrest : rest = []
  · subst hrest
    exact hopens.splitsOff_of_nil he
  · exact hopens.splitsOff_of_ne_nil hrest he h

/-- Combinators in a value and in an argument with brackets, and an escape that takes a blank in
front of the combinator behind the compound. -/
theorem splitsOff_of_isSplittable_childOfDiv :
    splitCompound "div[title='x > y]' i]:lang((e) > \"f) g\").\\41  > p ~ .c b ".toList =
        ("div[title='x > y]' i]:lang((e) > \"f) g\").\\41".toList, "  > p ~ .c b ".toList) ∧
      SplitsOff "div[title='x > y]' i]:lang((e) > \"f) g\").\\41  > p ~ .c b ".toList
        ⟨[.tag "b".toList], [(.descendant, [.hasClass "c".toList]),
          (.subsequentSibling, [.tag "p".toList]),
          (.child, [.tag "div".toList,
            .attribute ⟨"title".toList, some (.equals, "x > y]".toList), true⟩,
            .pseudo (.lang "(e) > \"f) g".toList), .hasClass "A".toList])]⟩ := by
  have hsplit : splitCompound
      "div[title='x > y]' i]:lang((e) > \"f) g\").\\41  > p ~ .c b ".toList =
        ("div[title='x > y]' i]:lang((e) > \"f) g\").\\41".toList, "  > p ~ .c b ".toList) := by
    decide +kernel
  refine ⟨hsplit, splitsOff_of_isSplittable (by decide +kernel) (by decide +kernel)
    ⟨by decide +kernel, fun _ c hc => ?_, fun _ c hc => ?_⟩⟩
  · rw [hsplit] at hc
    obtain rfl : '1' = c := Option.some_inj.mp hc
    decide
  · rw [hsplit] at hc
    obtain rfl : ' ' = c := Option.some_inj.mp hc
    decide

/-- **A name that is cut in two.** The blank belongs to the escape, and the name goes on. -/
theorem not_splitsOff : ¬ ∀ (t : Text) (x : Css.Complex), Css.Selector.ofText t = .ok ⟨[x]⟩ →
    isRelative t = false → SplitsOff t x := by
  intro h
  have hread : Css.Selector.ofText ".\\41 b".toList = .ok ⟨[⟨[.hasClass "Ab".toList], []⟩]⟩ := by
    decide +kernel
  have hcompound := (h _ _ hread (by decide +kernel)).compound
  exact absurd hcompound (by decide +kernel)

end Continuation
end CosmeticFilter
