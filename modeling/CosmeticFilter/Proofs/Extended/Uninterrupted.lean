import CosmeticFilter.Proofs.Css.OuterColons
import CosmeticFilter.Proofs.Extended.Inserted
import CosmeticFilter.Proofs.Extended.Interruption
import CosmeticFilter.Proofs.Extended.NativeArgument
import CosmeticFilter.Proofs.Text.Integers

/-!
# Native selectors are not interrupted

A native selector without `-ext-` that stands at the start of a text, or is all of it, is read by
the builder as native text up to its end. For the reading stops at a comma or at the name of an
extended pseudo-class, in front of which a native selector has been cut off. That has closed all
that it opened, and so the comma would part the list, and the name would be one that the browser
knows (`Css.IsOrderly`).

* `IsUnextended`: one native selector, without escapes and `-ext-`;
* `IsUnextended.not_interrupts`: none of its parts that are cut off ends in front of an
  interruption;
* `IsUnextended.eq_of_readAll`: by itself it is one fragment;
* `IsUnextended.readAll_of_append`: in front of a pseudo-class too;
* `IsUnextended.fills`: it fills the brackets of a pseudo-class;
* `IsUnextended.eq_of_readAll_append`: one in the brackets of a pseudo-class behind another.
-/

namespace CosmeticFilter
namespace Extended

open Css (IsOrderly IsPlain IsSingle StartsKnown isIdentChar)
open Nesting (Settled settled_top)

variable {s : Scope} {t u v : Text} {x : Css.Complex}

/-! ### What is cut off -/

theorem isPlain_squeeze (ht : IsPlain t) (b : Bool) : IsPlain (squeeze b t) := by
  intro c hc
  rcases mem_of_mem_squeeze hc with rfl | hmem
  · decide
  · exact ht c hmem

theorem after_squeeze_top {k : Brackets} (b : Bool) (t : Text) :
    Nesting.top.after k (squeeze b t) = Nesting.top.after k t :=
  (after_squeeze (p := fun _ => false) settled_top (fun _ _ => rfl) b t).1

/-- An asterisk behind a text does not close anything. -/
theorem after_of_asterisk {k : Brackets} (ht : IsPlain t)
    (h : Nesting.top.after k (t ++ ['*']) = .top) : Nesting.top.after k t = .top := by
  rw [Nesting.after_append] at h
  have hsettled := settled_top.after (b := k) (Css.endsInEscape_of_plain ht)
  have hstep : Nesting.step k (Nesting.top.after k t) '*' = Nesting.top.after k t := by
    refine Nesting.step_of_not_isDelimiter hsettled.not_escaped (fun q hq => ?_)
      (by cases k <;> decide)
    rcases Nesting.quote_after t q hq with rfl | rfl <;> decide
  exact hstep.symm.trans h

/-- A native selector without escapes closes all that it opens. -/
theorem after_of_ofText {k : Brackets} (ht : IsPlain t) (h : ∃ S, Css.Selector.ofText t = .ok S) :
    Nesting.top.after k t = .top := by
  cases k with
  | round => exact (Css.isOrderly_of_ofText ht h).after_eq
  | roundAndSquare => exact Css.after_of_ofText h.choose_spec (Css.endsInEscape_of_plain ht)

namespace IsCutOff

/-- What is cut off closes all that it opens. -/
theorem after_eq {k : Brackets} (h : IsCutOff s u) (hu : IsPlain u) :
    Nesting.top.after k u = .top := by
  obtain ⟨f, hf, hread, -⟩ := h
  have hplain := isPlain_squeeze hu true
  rw [← after_squeeze_top true]
  rcases hf with rfl | ⟨rfl, -⟩
  · exact after_of_ofText hplain hread
  · refine after_of_asterisk hplain (after_of_ofText (fun c hc => ?_) hread)
    rcases List.mem_append.mp hc with hc | hc
    · exact hplain c hc
    · rw [List.mem_singleton.mp hc]
      decide

/-- It does not end in a colon, behind which a name is missing. -/
theorem getLast?_ne_colon (h : IsCutOff s u) (hu : IsPlain u) : u.getLast? ≠ some ':' := by
  intro hlast
  obtain ⟨w, rfl⟩ := List.getLast?_eq_some_iff.mp hlast
  obtain ⟨f, hf, ⟨S, hread⟩, -⟩ := h
  have hcolon := Text.not_blank_of_any (t := [':']) (by decide)
  rw [squeeze_append_of_not_blank hcolon] at hf
  rcases hf with rfl | ⟨-, hnil | hopen⟩
  · have hplain : IsPlain (squeeze true w) :=
      isPlain_squeeze (fun c hc => hu c (List.mem_append_left _ hc)) true
    rcases Css.isLast_or_escaped_of_ofText ⟨by decide, by decide⟩ (by decide) hread with
      hcolon | hescape
    · exact absurd hcolon (by decide)
    · rw [Css.endsInEscape_of_plain hplain] at hescape
      exact absurd hescape Bool.false_ne_true
  · exact absurd hnil (List.append_ne_nil_of_right_ne_nil _ (List.cons_ne_nil _ _))
  · rw [Draft.isOpenEnded, List.getLast?_concat] at hopen
    exact absurd hopen (by decide)

end IsCutOff

/-! ### Names that are not native -/

/-- A name is what a text starts with, up to the first mark, blank or foreign character. -/
theorem takeWhile_name {name r : Text}
    (hname : ∀ c ∈ name, isIdentChar c = true ∧ Text.isBlank c = false)
    (hr : ∀ c ∈ r.head?, isIdentChar c = false ∨ Text.isBlank c = true) :
    (name ++ r).takeWhile (fun c => isIdentChar c && !Text.isBlank c) = name := by
  rw [List.takeWhile_append_of_pos fun c hc => by simp [hname c hc]]
  cases r with
  | nil => rw [List.takeWhile_nil, List.append_nil]
  | cons c r =>
    rw [List.takeWhile_cons_of_neg, List.append_nil]
    rcases hr c rfl with hident | hblank
    · simp [hident]
    · simp [hblank]

/-- The name of an extended pseudo-class is none that the browser knows. -/
theorem not_startsKnown {name r : Text} {n : Name} (hname : Name.ofText? name = some n)
    (hr : startsWithMark r = true) : ¬ StartsKnown (name ++ r) := by
  rintro ⟨known, w, heq, hident, hknown, hw⟩
  have hmark : ∀ c ∈ r.head?, isIdentChar c = false ∨ Text.isBlank c = true := by
    intro c hc
    by_contra hnone
    rw [not_or, Bool.not_eq_false, Bool.not_eq_true] at hnone
    rw [startsWithMark, Option.mem_def.mp hc, Option.all_some,
      Css.not_isMark_of_isIdentChar hnone.1 hnone.2] at hr
    exact absurd hr Bool.false_ne_true
  have hblank := not_blank_of_isPseudoClass hknown
  have hsame := congrArg (List.takeWhile fun c => isIdentChar c && !Text.isBlank c) heq
  rw [takeWhile_name (isIdentChar_of_ofText? hname) hmark,
    takeWhile_name (fun c hc => ⟨hident c hc, hblank c hc⟩) hw] at hsame
  rw [hsame, Css.ofText?_eq_none_of_isPseudoClass hknown] at hname
  exact absurd hname (by simp)

/-- Behind a colon in native text, there is no name of an extended pseudo-class. -/
theorem ne_name_append {rest name r : Text} {n : Name} (h : IsOrderly t rest)
    (ht : t = u ++ ':' :: v) (htop : Nesting.top.after .round u = .top)
    (hlast : u.getLast? ≠ some ':') (hname : Name.ofText? name = some n)
    (hr : startsWithMark r = true) : v ++ rest ≠ name ++ r := by
  intro heq
  have hstarts := h.named u v ht htop hlast
  rw [heq] at hstarts
  refine not_startsKnown hname hr (hstarts fun hcolon => ?_)
  cases name with
  | nil => exact absurd (hname.symm.trans (by decide : Name.ofText? [] = none)) (by simp)
  | cons c name =>
    have hident := (isIdentChar_of_ofText? hname c (List.mem_cons_self ..)).1
    rw [Option.some_inj.mp hcolon] at hident
    exact absurd hident (by decide)

/-! ### A native selector at the start of a text -/

/-- The text is one native selector, without escapes and without the name of an extended attribute
selector. -/
structure IsUnextended (t : Text) (x : Css.Complex) : Prop where
  /-- There are no escapes. -/
  plain : IsPlain t
  /-- There is no `-ext-`, in any letter case. -/
  unreserved : ¬ Draft.attributeLead <:+: Text.lower t
  /-- The text is read as the selector. -/
  read : Css.Selector.ofText t = .ok ⟨[x]⟩

namespace IsUnextended

theorem isOrderly (h : IsUnextended t x) : IsOrderly t [] :=
  Css.isOrderly_of_ofText h.plain ⟨_, h.read⟩

theorem after_eq {k : Brackets} (h : IsUnextended t x) : Nesting.top.after k t = .top :=
  after_of_ofText h.plain ⟨_, h.read⟩

/-- **A native selector is not interrupted** behind a part that is cut off, whether it ends the text
or a colon follows. -/
theorem not_interrupts (h : IsUnextended t x) (ht : t = u ++ v) (hu : IsCutOff s u) (hv : v ≠ [])
    {z : Text} (hz : ∀ c ∈ z.head?, c = ':') : ¬ Interrupts (v ++ z) := by
  intro hinterrupts
  have hplain : IsPlain u := fun c hc => h.plain c (ht ▸ List.mem_append_left _ hc)
  obtain ⟨c, w, rfl⟩ := List.exists_cons_of_ne_nil hv
  rw [List.cons_append] at hinterrupts
  generalize hrest : c :: (w ++ z) = rest at hinterrupts
  cases hinterrupts with
  | comma r =>
    obtain rfl : c = ',' := (List.cons.inj hrest).1
    have hcut := ((Css.ofText_eq_single_iff h.plain).mp h.read).1.2
    rw [ht, Nesting.cut_append_eq_none_iff, hu.after_eq hplain,
      Nesting.cut_cons_eq_none_iff] at hcut
    exact absurd hcut.2.1 (by decide)
  | @pseudoClass name r n hname hr =>
    obtain ⟨rfl, hw⟩ := List.cons.inj hrest
    have horderly : IsOrderly t z := h.isOrderly.congr fun c hc => by
      rw [hz c hc]
      decide
    exact ne_name_append horderly ht (hu.after_eq hplain) (hu.getLast?_ne_colon hplain) hname hr hw
  | @attributeTest content body r hbody =>
    obtain ⟨a, lead, y, rfl, ha, hlead⟩ := Css.exists_lead_of_extendedBody? hbody
    have hno : ':' ∉ a ++ lead := fun hmem => by
      rcases List.mem_append.mp hmem with hmem | hmem
      · exact absurd (ha _ hmem) (by decide)
      · have hlower : ':' ∈ Text.lower lead := List.mem_map_of_mem (f := Char.toLower) hmem
        rw [hlead] at hlower
        exact absurd hlower (by decide)
    -- no colon stands in front of `-ext-` or in it, so all of it belongs to the text
    obtain ⟨w', rfl⟩ : ∃ w', w = (a ++ lead) ++ w' := by
      have hw : w ++ z = (a ++ lead) ++ (y ++ ']' :: r) := by simpa using (List.cons.inj hrest).2
      rcases List.append_eq_append_iff.mp hw with ⟨z', hlead', hz'⟩ | ⟨w', hw', -⟩
      · cases z' with
        | nil => exact ⟨[], by rw [hlead', List.append_nil, List.append_nil]⟩
        | cons d z' =>
          refine absurd ?_ hno
          rw [hlead', ← hz d (by rw [hz']; rfl)]
          exact List.mem_append_right _ (List.mem_cons_self ..)
      · exact ⟨w', hw'⟩
    refine h.unreserved ⟨Text.lower (u ++ c :: a), Text.lower w', ?_⟩
    rw [← hlead, ht]
    simp [Text.lower]

theorem exists_isLast (h : IsUnextended t x) (hlast : ∀ c ∈ t.getLast?, Text.isBlank c = false) :
    ∃ c ∈ t.getLast?, Css.isLast c = true := by
  obtain ⟨-, -, hcomplex⟩ := Css.ofText_eq_singleton_iff.mp h.read
  rcases List.eq_nil_or_concat t with rfl | ⟨w, c, rfl⟩
  · exact absurd (hcomplex.symm.trans (by decide : _ = .error Css.Error.empty)) (by simp)
  · have hmem : c ∈ (w.concat c).getLast? := by simp
    refine ⟨c, hmem, ?_⟩
    rw [List.concat_eq_append] at hcomplex
    have hplain := h.plain
    rw [List.concat_eq_append] at hplain
    have hend := Css.isLast_or_escaped_of_complex ⟨hlast c hmem, hplain c (by simp)⟩ hcomplex
    refine hend.resolve_right ?_
    rw [Css.endsInEscape_of_plain fun d hd => hplain d (List.mem_append_left _ hd)]
    exact Bool.false_ne_true

theorem trim (h : IsUnextended t x) : IsUnextended (Text.trim t) x := by
  have hpart := Text.infix_trim t
  refine ⟨fun c hc => h.plain c (hpart.subset hc), fun hlead => h.unreserved ?_,
    (Css.ofText_trim t).trans h.read⟩
  exact hlead.trans (hpart.map Char.toLower)

/-- **By itself, a native selector is read as one fragment**, if it is read. -/
theorem eq_of_readAll (h : IsUnextended t x) {bs : List (List Node)}
    (hread : readAll s t = .ok bs) : bs = [[.fragment (squeeze true (Text.trim t))]] := by
  obtain ⟨u, v, ht, -, hcut, ⟨rfl, hbs⟩ | hinterrupts⟩ := exists_interruption hread
  · rw [ht, List.append_nil, hbs]
  · obtain ⟨c, hc, -⟩ := hinterrupts.head?
    have hne : v ≠ [] := by
      rintro rfl
      exact absurd hc (by simp)
    refine absurd ?_ (h.trim.not_interrupts ht hcut hne (z := []) (by simp))
    rwa [List.append_nil]

/-! ### A pseudo-class behind it -/

/-- Behind a native selector, no name of an extended pseudo-class is native text. -/
theorem not_isCutOff (h : IsUnextended t x) (hlast : ∀ c ∈ t.getLast?, Text.isBlank c = false)
    (name : Name) {w : Text} (hw : IsPlain w) :
    ¬ IsCutOff s (t ++ (':' :: name.text ++ ['(']) ++ w) := by
  rintro ⟨f, hf, hread, -⟩
  have hname : IsPlain (':' :: name.text ++ ['(']) ∧
      ∀ c ∈ ':' :: name.text ++ ['('], Text.isBlank c = false :=
    ⟨by cases name <;> decide, Text.not_blank_of_any (by cases name <;> decide)⟩
  -- up to the bracket, the copy is that of the selector and the name
  obtain ⟨y, hy⟩ := prefix_squeeze_append true (t ++ (':' :: name.text ++ ['('])) w
  rw [squeeze_append_of_not_blank hname.2] at hy
  have hplain : IsPlain (squeeze true (t ++ (':' :: name.text ++ ['(']) ++ w)) := by
    refine isPlain_squeeze (fun c hc => ?_) true
    rcases List.mem_append.mp hc with hc | hc
    · exact (List.mem_append.mp hc).elim (h.plain c) (hname.1 c)
    · exact hw c hc
  obtain ⟨z, rfl, hz⟩ : ∃ z, f = squeeze true t ++ ':' :: (name.text ++ '(' :: z) ∧ IsPlain f := by
    rcases hf with rfl | ⟨rfl, -⟩
    · exact ⟨y, by rw [← hy]; simp, hplain⟩
    · refine ⟨y ++ ['*'], by rw [← hy]; simp, fun c hc => ?_⟩
      rcases List.mem_append.mp hc with hc | hc
      · exact hplain c hc
      · rw [List.mem_singleton.mp hc]
        decide
  have hcolon : (squeeze true t).getLast? ≠ some ':' := by
    rw [getLast?_squeeze hlast]
    intro hcolon
    obtain ⟨c, hc, hend⟩ := h.exists_isLast hlast
    rw [Option.mem_unique hc hcolon] at hend
    exact absurd hend (by decide)
  exact ne_name_append (Css.isOrderly_of_ofText hz hread) rfl
    ((after_squeeze_top true t).trans h.after_eq) hcolon (Name.ofText?_text name)
    (r := '(' :: z) rfl (List.append_nil _)

/-- Where all of it is cut off, it is read as its copy. -/
theorem readAll_eq (h : IsUnextended t x) (htrim : Text.trim t = t)
    (hnative : ∀ q ∈ piecesIn t, q.IsNative readAll s) (hcut : IsCutOff s t) :
    readAll s t = .ok [[.fragment (squeeze true t)]] := by
  have hlast : ∀ c ∈ t.getLast?, Text.isBlank c = false := fun c hc =>
    Text.not_blank_of_getLast?_trim (htrim.symm ▸ hc)
  have hend : ∃ c ∈ (squeeze true t).getLast?, Css.isLast c = true := by
    rw [getLast?_squeeze hlast]
    exact h.exists_isLast hlast
  have hne : squeeze true t ≠ [] := by
    obtain ⟨c, hc, -⟩ := hend
    rintro hnil
    rw [hnil] at hc
    exact absurd hc (by simp)
  have hpieces : pieces t = piecesIn t := by rw [pieces, piecesOf_eq, htrim, piecesIn]
  obtain ⟨f, rfl | ⟨-, hnil | hopen⟩, ⟨S, hread⟩, hlead⟩ := hcut
  · refine readAll_of_isNative (fun q hq => hnative q (hpieces ▸ hq)) ?_ hne
      ⟨S, (Css.ofText_trim _).trans hread⟩ hlead
    rw [hpieces, piecesIn, pending_piecesFrom fun q hq => isClean_of_isNative (hnative q hq)]
    rw [← trim_squeeze htrim, Text.trimEnd_trim]
  · exact absurd hnil hne
  · rw [not_isOpenEnded hend] at hopen
    exact absurd hopen Bool.false_ne_true

/-- **In front of an extended pseudo-class, a native selector is read as one fragment**, if the
whole is read. -/
theorem readAll_of_append (h : IsUnextended t x) (htrim : Text.trim t = t) {name : Name} {a : Text}
    (ha : IsPlain a) {bs : List (List Node)}
    (hread : readAll s (t ++ pseudosText [(name, a)]) = .ok bs) :
    readAll s t = .ok [[.fragment (squeeze true t)]] := by
  obtain ⟨u, v, heq, hnative, hcut, hv⟩ := exists_interruption hread
  have hne : t ≠ [] := by
    rintro rfl
    exact absurd h.exists_isLast (by simp)
  have hstart : Text.trimStart t = t := Text.trimStart_eq_self fun c hc =>
    Text.not_blank_of_head?_trim (htrim.symm ▸ hc)
  have hlast : ∀ c ∈ t.getLast?, Text.isBlank c = false := fun c hc =>
    Text.not_blank_of_getLast?_trim (htrim.symm ▸ hc)
  have htext : pseudosText [(name, a)] = (':' :: name.text ++ ['(']) ++ (a ++ [')']) := by
    simp [pseudosText, pseudoText]
  rw [trim_append_pseudosText, Text.trimStart_append (hstart.symm ▸ hne), hstart, htext] at heq
  have hinterrupts : v ≠ [] → Interrupts v := fun hv' => hv.resolve_left fun hnil => hv' hnil.1
  rcases split_at_interruption hinterrupts heq with ⟨w, ht, rfl⟩ | ⟨w, rfl, hw⟩
  · cases w with
    | nil =>
      rw [List.append_nil] at ht
      rw [← ht] at hnative hcut
      exact h.readAll_eq htrim hnative hcut
    | cons d w =>
      refine absurd (hinterrupts (List.cons_ne_nil _ _)) ?_
      exact h.not_interrupts ht hcut (List.cons_ne_nil _ _) fun c hc => (Option.some_inj.mp hc).symm
  · refine absurd hcut (h.not_isCutOff hlast name fun c hc => ?_)
    have hmem : c ∈ a ++ [')'] := hw ▸ List.mem_append_left _ hc
    rcases List.mem_append.mp hmem with hmem | hmem
    · exact ha c hmem
    · rw [List.mem_singleton.mp hmem]
      decide

/-! ### In the argument of a pseudo-class -/

/-- What is read of a native selector in front of a closing bracket closes all that it opens. -/
theorem after_of_readAll (h : IsUnextended t x) (htrim : Text.trim t = t) {content : Text}
    (ht : t = content ++ ')' :: v) {bs : List (List Node)} (hread : readAll s content = .ok bs) :
    Nesting.top.after .round content = .top := by
  obtain ⟨u, w, heq, -, hcut, hw⟩ := exists_interruption hread
  obtain ⟨a, b, ha, hb, hcontent⟩ := Text.exists_append_trim_append content
  have hnil : a = [] := by
    cases a with
    | nil => rfl
    | cons c a =>
      have hblank := ha c (List.mem_cons_self ..)
      rw [Text.not_blank_of_head?_trim (t := t) (c := c) (by rw [htrim, ht, hcontent]; rfl)]
        at hblank
      exact absurd hblank Bool.false_ne_true
  rw [hnil, heq, List.nil_append, List.append_assoc] at hcontent
  have hplain : IsPlain u := fun c hc => h.plain c (by
    rw [ht, hcontent]
    exact List.mem_append_left _ (List.mem_append_left _ hc))
  rcases hw with ⟨rfl, -⟩ | hinterrupts
  · rw [hcontent, Nesting.after_append, hcut.after_eq hplain]
    exact settled_top.after_of_blank hb
  · obtain ⟨c, hc, -⟩ := hinterrupts.head?
    have hmark : startsWithMark (b ++ ')' :: v) = true := by
      cases b with
      | nil => rfl
      | cons d b => exact isMark_of_blank (hb d (List.mem_cons_self ..))
    refine absurd (hinterrupts.append hmark) ?_
    rw [← List.append_nil (w ++ _)]
    refine h.not_interrupts ?_ hcut ?_ (by simp)
    · rw [ht, hcontent]
      simp
    · rintro hnil
      rw [(List.append_eq_nil_iff.mp hnil).1] at hc
      exact absurd hc (by simp)

end IsUnextended

/-- A digit or a sign is no mark. -/
theorem not_isDelimiter_of_isDigitOrSign {k : Brackets} {c : Char} (h : Text.IsDigitOrSign c) :
    k.isDelimiter c = false := by
  have hne : ∀ d : Char, ¬ Text.IsDigitOrSign d → c ≠ d := by
    rintro d hd rfl
    exact hd h
  cases k <;> simp [Brackets.isDelimiter, Brackets.opens, Brackets.closes, hne '\\' (by decide),
    hne '"' (by decide), hne '\'' (by decide), hne '(' (by decide), hne '[' (by decide),
    hne ')' (by decide), hne ']' (by decide)]

/-- A number, with blanks around it or not, has no brackets. -/
theorem after_of_readInt64? {k : Brackets} {n : Int} (h : Text.readInt64? (Text.trim t) = some n) :
    Nesting.top.after k t = .top := by
  rw [Text.readInt64?, Text.readIntWithin?, Option.filter_eq_some_iff,
    Text.readInt?_eq_some_iff] at h
  obtain ⟨a, b, ha, hb, heq⟩ := Text.exists_append_trim_append t
  rw [heq]
  refine Nesting.after_of_not_isDelimiter (fun c hc => ?_) 0
  rcases List.mem_append.mp hc with hc | hc
  · exact Nesting.not_isDelimiter_of_isBlank (ha c hc)
  rcases List.mem_append.mp hc with hc | hc
  · exact not_isDelimiter_of_isDigitOrSign (h.1.isDigitOrSign c hc)
  · exact Nesting.not_isDelimiter_of_isBlank (hb c hc)

/-- Only numbers are read in another way than other arguments. -/
theorem exists_readInt64?_of_argumentKind {name : Name} {a a' : Text}
    (h : name.argumentKind a = .relative) (h' : name.argumentKind a' = .absolute) :
    ∃ n, Text.readInt64? (Text.trim a') = some n := by
  cases name
  case upward =>
    unfold Name.argumentKind at h'
    simp only at h'
    split at h'
    · exact ⟨_, ‹_›⟩
    · exact absurd h' (by simp)
  all_goals exact absurd (h.symm.trans h') (by simp)

/-- A native selector fills the brackets of a pseudo-class behind a seed: a bracket in it that
closed them earlier would be one that it has not opened. -/
theorem IsUnextended.fills {S f A : Text} (h : IsUnextended A x) (htrim : Text.trim A = A)
    (hseed : IsSeed S f) {name : Name} (hkind : name.argumentKind A = .relative)
    {bs : List (List Node)} (hread : readAll .top (S ++ pseudosText [(name, A)]) = .ok bs) :
    Inside.start.Fills A := by
  rcases hseed.exists_fills hread with hfills | ⟨content, v, n, d, q, hA, hn, -⟩
  · exact hfills
  refine absurd ?_ (h.isOrderly.closing content v hA)
  cases hcontent : name.argumentKind content with
  | relative =>
    unfold Draft.nodeOf at hn
    rw [hcontent] at hn
    obtain ⟨as, has, -⟩ := Outcome.map_eq_ok.mp hn
    exact h.after_of_readAll htrim hA has
  | absolute =>
    obtain ⟨m, hm⟩ := exists_readInt64?_of_argumentKind hkind hcontent
    exact after_of_readInt64? hm

/-- A native selector that is read is no number, so `:upward()` reads it as branches. -/
theorem IsUnextended.argumentKind_upward (h : IsUnextended t x) (htrim : Text.trim t = t) {f : Text}
    (hread : readAll .top t = .ok [[.fragment f]]) : Name.upward.argumentKind t = .relative := by
  obtain ⟨-, -, -, -, hlead⟩ := native_of_readAll rfl hread
  rw [head?_of_readAll hread, htrim] at hlead
  have hkind := Extended.argumentKind_upward (w := []) h.read hlead (by rwa [List.append_nil])
  rwa [List.append_nil] at hkind

/-- **Two native selectors, one in the brackets of a pseudo-class behind the other**: each is read
as it is by itself. -/
theorem IsUnextended.eq_of_readAll_append {a f g : Text} {y : Css.Complex} (h : IsUnextended t x)
    (htrim : Text.trim t = t) (h' : IsUnextended a y) (htrim' : Text.trim a = a) {name : Name}
    (hkind : name.argumentKind a = .relative) (ht : readAll .top t = .ok [[.fragment f]])
    (ha : readAll .top a = .ok [[.fragment g]]) {bs : List (List Node)}
    (hread : readAll .top (t ++ pseudosText [(name, a)]) = .ok bs) :
    bs = [[.fragment f, .nested name [[.fragment g]]]] := by
  have hseed : IsSeed t f := by
    refine ⟨Selector.ofText_eq_ok.mpr ht, fun c hc => ?_, Css.endsInEscape_of_plain h.plain⟩
    exact Text.not_blank_of_getLast?_trim (htrim.symm ▸ hc)
  obtain ⟨as, has, rfl⟩ := hseed.readAll_pseudo hkind (h'.fills htrim' hseed hkind hread) hread
  rw [Except.ok.inj ((readAll_of_native rfl ha _).symm.trans has)]

end Extended
end CosmeticFilter
