import CosmeticFilter.Proofs.Css.CompoundEnd

/-!
# Colons outside brackets

Behind a colon that stands outside quotes and round brackets, a native selector has the name of a
pseudo-class that the browser knows, or a second colon. For in front of any other colon there is a
quote or a bracket that is still open: names and combinators have no colons, the value of an
attribute selector has them in quotes only, and an argument in its brackets. For the same reason no
bracket is closed that has not been opened. So a text that could go on with another name is no start
of a native selector at the colon, however the two readers cut what stands in front of it.

* `StartsKnown`: a name that the browser knows;
* `IsOrderly`: all colons and closing brackets are where they may be;
* `exists_isOrderly_of_readSimple`, `isOrderly_of_readChain`: what the readers take is orderly;
* `isOrderly_of_ofText`: so is every list of native selectors without escapes.
-/

namespace CosmeticFilter
namespace Css

open Nesting (Covers)

variable {p p' t u v rest : Text}

/-- The text starts with the name of a pseudo-class that the browser knows. -/
def StartsKnown (t : Text) : Prop :=
  ∃ name w, t = name ++ w ∧ (∀ c ∈ name, isIdentChar c = true) ∧ isPseudoClass name = true ∧
    ∀ c ∈ w.head?, isIdentChar c = false ∨ Text.isBlank c = true

/-- Quotes and round brackets are closed in the text, which `rest` follows, and what stands outside
of them is in order. -/
structure IsOrderly (p rest : Text) : Prop where
  /-- The text ends outside quotes and brackets. -/
  after_eq : Nesting.top.after .round p = .top
  /-- No bracket is closed that has not been opened. -/
  closing : ∀ u v, p = u ++ ')' :: v → Nesting.top.after .round u ≠ .top
  /-- A colon with no other one beside it has a name behind it. -/
  named : ∀ u v, p = u ++ ':' :: v → Nesting.top.after .round u = .top → u.getLast? ≠ some ':' →
    (v ++ rest).head? ≠ some ':' → StartsKnown (v ++ rest)

namespace IsOrderly

theorem of_covers (h : Covers .top p .top) : IsOrderly p rest where
  after_eq := h.after_eq
  closing u v hp htop := (h.covered u ')' v hp htop).2 rfl
  named u v hp htop := absurd rfl (h.covered u ':' v hp htop).1

theorem append (h : IsOrderly p (p' ++ rest)) (h' : IsOrderly p' rest) :
    IsOrderly (p ++ p') rest := by
  have htail : ∀ x, Nesting.top.after .round (p ++ x) = Nesting.top.after .round x := fun x => by
    rw [Nesting.after_append, h.after_eq]
  refine ⟨by rw [htail, h'.after_eq], fun u v heq htop => ?_, fun u v heq htop hlast hhead => ?_⟩
  · rcases Text.append_eq_append_cons heq with ⟨y, hp, -⟩ | ⟨x, rfl, hp'⟩
    · exact h.closing u y hp htop
    · exact h'.closing x v hp' (by rwa [htail] at htop)
  · rcases Text.append_eq_append_cons heq with ⟨y, hp, rfl⟩ | ⟨x, rfl, hp'⟩
    · rw [List.append_assoc] at hhead ⊢
      exact h.named u y hp htop hlast hhead
    · refine h'.named x v hp' (by rwa [htail] at htop) (fun hx => hlast ?_) hhead
      rw [List.getLast?_append, hx]
      rfl

/-- Something that does not go on with a name may follow. -/
theorem congr (h : IsOrderly p [])
    (hrest : ∀ c ∈ rest.head?, isIdentChar c = false ∨ Text.isBlank c = true) :
    IsOrderly p rest := by
  refine ⟨h.after_eq, h.closing, fun u v hp htop hlast hhead => ?_⟩
  obtain ⟨name, w, hv, hname, hknown, hw⟩ := h.named u v hp htop hlast (by
    rw [List.append_nil]
    intro hcolon
    rw [List.head?_append, hcolon] at hhead
    exact hhead rfl)
  rw [List.append_nil] at hv
  refine ⟨name, w ++ rest, by rw [hv, List.append_assoc], hname, hknown, fun c hc => ?_⟩
  cases w with
  | nil => exact hrest c hc
  | cons d w => exact hw c hc

theorem colon (h : rest.head? ≠ some ':' → StartsKnown rest) : IsOrderly [':'] rest := by
  have hone : ∀ {u v : Text} {c : Char}, [':'] = u ++ c :: v → c = ':' ∧ v = [] := by
    intro u v c heq
    cases u with
    | nil =>
      obtain ⟨hc, hv⟩ := List.cons.inj heq
      exact ⟨hc.symm, hv.symm⟩
    | cons d u =>
      exact absurd (List.cons.inj heq).2 (List.append_ne_nil_of_right_ne_nil _
        (List.cons_ne_nil _ _)).symm
  refine ⟨rfl, fun u v heq => absurd (hone heq).1 (by decide), fun u v heq _ _ hhead => ?_⟩
  rw [(hone heq).2, List.nil_append] at hhead ⊢
  exact h hhead

/-- Of two colons, the first one has the second one behind it, and that one has the first in
front. -/
theorem colons : IsOrderly "::".toList rest := by
  refine ⟨rfl, fun u v heq => ?_, fun u v heq _ hlast hhead => ?_⟩
  · have hmem : ')' ∈ "::".toList := by
      rw [heq]
      exact List.mem_append_right _ (List.mem_cons_self ..)
    exact absurd hmem (by decide)
  · cases u with
    | nil =>
      obtain ⟨-, rfl⟩ := List.cons.inj (show ':' :: [':'] = ':' :: v from heq)
      exact absurd rfl hhead
    | cons c u =>
      obtain ⟨rfl, htail⟩ := List.cons.inj (show ':' :: [':'] = c :: (u ++ ':' :: v) from heq)
      cases u with
      | nil => exact absurd rfl hlast
      | cons d u =>
        exact absurd (List.cons.inj htail).2 (List.append_ne_nil_of_right_ne_nil _
          (List.cons_ne_nil _ _)).symm

end IsOrderly

/-! ### What is covered -/

/-- Characters of names, blanks and the like. -/
theorem covers_of_plain (h : ∀ c ∈ p, Brackets.roundAndSquare.isDelimiter c = false ∧ c ≠ ':') :
    Covers .top p .top := by
  refine .of_forall fun c hc => ⟨?_, (h c hc).2⟩
  have hdelimiter := (h c hc).1
  simp only [Brackets.isDelimiter, Brackets.opens, Brackets.closes, Bool.or_eq_false_iff]
    at hdelimiter ⊢
  exact ⟨⟨hdelimiter.1.1, hdelimiter.1.2.1⟩, hdelimiter.2.1⟩

theorem covers_name (h : ∀ c ∈ p, isIdentChar c = true) : Covers .top p .top :=
  covers_of_plain fun c hc => plain_of_isNameChar (h c hc)

theorem covers_blank (h : ∀ c ∈ p, Text.isBlank c = true) : Covers .top p .top :=
  covers_of_plain fun c hc => plain_of_isBlank (h c hc)

theorem covers_combinator {c : Char} (h : isCombinator c = true) : Covers .top [c] .top := by
  refine covers_of_plain fun d hd => ?_
  rw [List.mem_singleton.mp hd]
  rcases isCombinator_cases h with rfl | rfl | rfl <;> decide

/-- Within its brackets, an argument covers what it holds. -/
theorem covers_of_takeArgument? {s : Nesting} {a : Text}
    (h : takeArgument? s (a ++ ')' :: rest) = some (a, rest)) :
    Covers ⟨s.quote, s.depth + 1, s.escaped⟩ a ⟨none, 1, false⟩ := by
  induction a generalizing s with
  | nil =>
    rw [List.nil_append, takeArgument?] at h
    split at h
    · rename_i hclose
      rw [Nesting.isTop_iff.mp hclose.1]
      exact .nil
    · obtain ⟨_, -, heq⟩ := Option.map_eq_some_iff.mp h
      cases heq
  | cons c a ih =>
    rw [List.cons_append, takeArgument?] at h
    split at h
    · cases h
    · rename_i hopen
      obtain ⟨⟨a', rest'⟩, htail, heq⟩ := Option.map_eq_some_iff.mp h
      obtain ⟨ha', rfl⟩ := Prod.mk.inj heq
      obtain rfl := (List.cons.inj ha').2
      have hstep := Covers.inside (c := c) (s := ⟨s.quote, s.depth + 1, s.escaped⟩)
        (by simp [Nesting.isTop])
      rw [step_ahead hopen] at hstep
      exact hstep.append (ih htail)

theorem covers_argument {a : Text} (h : takeArgument? .top (a ++ ')' :: rest) = some (a, rest)) :
    Covers .top ('(' :: (a ++ [')'])) .top :=
  (Covers.singleton (c := '(') fun _ => by decide).append (t := ['('])
    ((covers_of_takeArgument? h).append (.inside (c := ')') rfl))

theorem covers_attribute {content : Text} (h : Passes none none content) :
    Covers .top ('[' :: (content ++ [']'])) .top :=
  (Covers.singleton (c := '[') fun _ => by decide).append (t := ['['])
    (h.covers.append (.singleton (c := ']') fun _ => by decide))

/-! ### What the readers take -/

/-- A name without escapes is spelled as it is, as far as it goes. -/
theorem takeIdent_spec (ht : IsPlain t) :
    t = (takeIdent t).1 ++ (takeIdent t).2 ∧ (∀ c ∈ (takeIdent t).1, isIdentChar c = true) ∧
      ∀ c ∈ (takeIdent t).2.head?, isIdentChar c = false := by
  refine ⟨(takeIdent_eq_append ht).symm, ?_⟩
  induction t with
  | nil =>
    rw [takeIdent]
    exact ⟨fun c hc => absurd hc List.not_mem_nil, fun c hc => absurd hc (by simp)⟩
  | cons c r ih =>
    obtain ⟨hc, hr⟩ := List.forall_mem_cons.mp ht
    rw [takeIdent_cons hc]
    split
    · rename_i hident
      obtain ⟨hname, hrest⟩ := ih hr
      exact ⟨List.forall_mem_cons.mpr ⟨hident, hname⟩, hrest⟩
    · rename_i hident
      refine ⟨fun d hd => absurd hd List.not_mem_nil, fun d hd => ?_⟩
      rw [← Option.some_inj.mp hd]
      exact Bool.not_eq_true _ ▸ hident

theorem readIdent_spec {kind : NameKind} {name : Text} (ht : IsPlain t)
    (h : readIdent kind t = .ok (name, rest)) :
    t = name ++ rest ∧ (∀ c ∈ name, isIdentChar c = true) ∧
      ∀ c ∈ rest.head?, isIdentChar c = false := by
  have hspec := takeIdent_spec ht
  rwa [(readIdent_eq_ok.mp h).1] at hspec

/-- An argument, or nothing. -/
theorem exists_covers_of_readArgument {a : Option Text} (h : readArgument t = .ok (a, rest)) :
    ∃ p, t = p ++ rest ∧ Covers .top p .top := by
  rcases readArgument_cases h with ⟨-, rfl⟩ | ⟨x, -, rfl, htaken⟩
  · exact ⟨[], rfl, .nil⟩
  · exact ⟨'(' :: (x ++ [')']), by simp, covers_argument htaken⟩

/-- A pseudo-class or a pseudo-element, from its first colon on. -/
theorem exists_isOrderly_of_readPseudo {x : Simple} (ht : IsPlain t)
    (h : readPseudo t = .ok (x, rest)) : ∃ p, ':' :: t = p ++ rest ∧ IsOrderly p rest := by
  rw [readPseudo_eq] at h
  split at h
  · rename_i hcolon
    obtain ⟨r, rfl⟩ := List.head?_eq_some_iff.mp hcolon
    obtain ⟨name, mid, a, hname, hargument, -⟩ := readNamed_eq_ok.mp h
    obtain ⟨hr, hident, -⟩ := readIdent_spec (ht.suffix (List.suffix_cons ..)) hname
    obtain ⟨q, hmid, hcovers⟩ := exists_covers_of_readArgument hargument
    refine ⟨"::".toList ++ (name ++ q), ?_, .append .colons (.of_covers
      ((covers_name hident).append hcovers))⟩
    rw [show r = name ++ mid from hr, hmid]
    simp
  · obtain ⟨name, mid, a, hname, hargument, hcondition⟩ := readNamed_eq_ok.mp h
    obtain ⟨rfl, hident, hend⟩ := readIdent_spec ht hname
    obtain ⟨q, rfl, hcovers⟩ := exists_covers_of_readArgument hargument
    refine ⟨[':'] ++ (name ++ q), by simp, .append (.colon fun _ => ?_) (.of_covers
      ((covers_name hident).append hcovers))⟩
    refine ⟨name, q ++ rest, List.append_assoc .., hident,
      isPseudoClass_of_pseudoClassOf hcondition, fun c hc => Or.inl (hend c hc)⟩

theorem exists_isOrderly_of_readSimple {isFirst : Bool} {x : Simple} (ht : IsPlain t)
    (h : readSimple isFirst t = .ok (some (x, rest))) :
    ∃ p, t = p ++ rest ∧ IsOrderly p rest := by
  have hmark : ∀ {c : Char}, c = '*' ∨ c = '.' ∨ c = '#' → Covers .top [c] .top := by
    intro c hc
    refine covers_of_plain fun d hd => ?_
    rw [List.mem_singleton.mp hd]
    rcases hc with rfl | rfl | rfl <;> decide
  cases readsSimple_of_readSimple h with
  | universal => exact ⟨['*'], rfl, .of_covers (hmark (.inl rfl))⟩
  | hasClass hname =>
    obtain ⟨rfl, hident, -⟩ := readIdent_spec (ht.suffix (List.suffix_cons ..)) hname
    exact ⟨'.' :: _, rfl, .of_covers ((hmark (.inr (.inl rfl))).append (covers_name hident))⟩
  | hasId hname =>
    obtain ⟨rfl, hident, -⟩ := readIdent_spec (ht.suffix (List.suffix_cons ..)) hname
    exact ⟨'#' :: _, rfl, .of_covers ((hmark (.inr (.inr rfl))).append (covers_name hident))⟩
  | test hattribute =>
    obtain ⟨content, rfl, hpass, -⟩ := exists_passes_of_readAttribute hattribute
    exact ⟨'[' :: (content ++ [']']), by simp, .of_covers (covers_attribute hpass)⟩
  | pseudo hpseudo => exact exists_isOrderly_of_readPseudo (ht.suffix (List.suffix_cons ..)) hpseudo
  | tag _ hname =>
    obtain ⟨heq, hident, -⟩ := readIdent_spec ht hname
    exact ⟨_, heq, .of_covers (covers_name hident)⟩

theorem exists_isOrderly_of_readConditions {isFirst : Bool} {x : Compound} (ht : IsPlain t)
    (h : readConditions isFirst t = .ok (x, rest)) : ∃ p, t = p ++ rest ∧ IsOrderly p rest := by
  have hread := readsConditions_of_readConditions h
  clear h
  induction hread with
  | done => exact ⟨[], rfl, .of_covers .nil⟩
  | more hsimple _ ih =>
    obtain ⟨p, rfl, hp⟩ := exists_isOrderly_of_readSimple ht hsimple
    obtain ⟨p', rfl, hp'⟩ := ih (ht.suffix (List.suffix_append ..))
    exact ⟨p ++ p', (List.append_assoc ..).symm, hp.append hp'⟩

/-- Blanks, with a combinator among them or not. -/
theorem exists_covers_of_readCombinator {k : Combinator}
    (h : readCombinator t = .ok (some (k, u))) : ∃ p, t = p ++ u ∧ Covers .top p .top := by
  obtain ⟨b, hb, ht⟩ := Text.exists_trimStart_append t
  obtain ⟨c, r, heq, ⟨hchar, rfl, -⟩ | ⟨-, -, rfl, -⟩⟩ := readCombinator_eq_some h
  · obtain ⟨b', hb', hr⟩ := Text.exists_trimStart_append r
    have hc : Covers .top [c] .top := covers_combinator (by
      rw [← Combinator.ofChar?_isSome, hchar]
      rfl)
    refine ⟨b ++ ([c] ++ b'), ?_, (covers_blank hb).append (hc.append (covers_blank hb'))⟩
    rw [heq] at ht
    rw [ht]
    simpa using hr
  · exact ⟨b, by rw [← heq]; exact ht, covers_blank hb⟩

/-! ### Whole selectors -/

theorem isOrderly_of_readChain {left : List (Combinator × Compound)} {x : Complex} (ht : IsPlain t)
    (h : readChain left t = .ok x) : IsOrderly t [] := by
  have hread := readsChain_of_readChain h
  clear h
  induction hread with
  | last hcompound hend =>
    obtain ⟨p, rfl, hp⟩ := exists_isOrderly_of_readConditions ht (readCompound_eq_ok.mp hcompound).1
    refine .append (by rwa [List.append_nil]) (.of_covers (covers_blank ?_))
    exact Text.trimStart_eq_nil_iff.mp hend
  | more hcompound hcombinator _ ih =>
    obtain ⟨p, rfl, hp⟩ := exists_isOrderly_of_readConditions ht (readCompound_eq_ok.mp hcompound).1
    obtain ⟨q, rfl, hq⟩ := exists_covers_of_readCombinator hcombinator
    have hu := ih ((ht.suffix (List.suffix_append ..)).suffix (List.suffix_append ..))
    exact .append (by rwa [List.append_nil]) (.append (.of_covers hq) hu)

/-- One selector, with blanks around it or a combinator in front. -/
theorem isOrderly_of_complex {x : Complex} (ht : IsPlain t) (h : Complex.ofText t = .ok x) :
    IsOrderly t [] := by
  obtain ⟨a, b, ha, hb, heq⟩ := Text.exists_append_trim_append t
  suffices hinner : IsOrderly (Text.trim t) [] by
    rw [heq]
    refine .append (.of_covers (covers_blank ha)) (.append (hinner.congr fun c hc => ?_)
      (.of_covers (covers_blank hb)))
    rw [List.append_nil] at hc
    exact Or.inr (hb c (List.mem_of_mem_head? hc))
  have hplain : IsPlain (Text.trim t) := fun c hc => ht c ((Text.infix_trim t).subset hc)
  unfold Complex.ofText at h
  split at h
  · cases h
  · rename_i c r htrim
    rw [htrim] at hplain ⊢
    split at h
    · rename_i k hchar
      obtain ⟨b', hb', hr⟩ := Text.exists_trimStart_append r
      have hread := isOrderly_of_readChain (fun d hd => hplain d (List.mem_cons_of_mem _
        ((List.dropWhile_suffix _).subset hd))) h
      have hc : Covers .top [c] .top := covers_combinator (by
        rw [← Combinator.ofChar?_isSome, hchar]
        rfl)
      rw [hr, ← List.singleton_append]
      exact .append (.of_covers hc) (.append (.of_covers (covers_blank hb')) hread)
    · exact isOrderly_of_readChain hplain h

/-- Selectors with commas between them. -/
theorem isOrderly_of_parts (ht : IsPlain t)
    (h : ∀ part ∈ parts t, ∃ x, Complex.ofText part = .ok x) : IsOrderly t [] := by
  induction hn : t.length using Nat.strong_induction_on generalizing t with
  | _ n ih =>
    subst hn
    cases hcut : Nesting.cut .roundAndSquare (· == ',') .top t with
    | none =>
      rw [parts, split_eq_of_cut hcut] at h
      obtain ⟨x, hx⟩ := h t (List.mem_singleton_self t)
      exact isOrderly_of_complex ht hx
    | some cut =>
      obtain ⟨x, d, y⟩ := cut
      obtain ⟨rfl, hparts, -⟩ := parts_of_cut hcut
      rw [hparts] at h
      obtain ⟨⟨z, hz⟩, hrest⟩ := List.forall_mem_cons.mp h
      have hx := isOrderly_of_complex (fun c hc => ht c (List.mem_append_left _ hc)) hz
      have hy := ih y.length (by simp; omega)
        (fun c hc => ht c (List.mem_append_right _ (List.mem_cons_of_mem _ hc))) hrest rfl
      have hcomma : Covers .top [','] .top := covers_of_plain fun c hc => by
        rw [List.mem_singleton.mp hc]
        decide
      rw [show x ++ ',' :: y = x ++ ([','] ++ y) from rfl]
      refine .append (hx.congr fun c hc => ?_) (.append (.of_covers hcomma) hy)
      rw [← Option.some_inj.mp hc]
      exact Or.inl (by decide)

/-- Native selectors without escapes are in order. -/
theorem isOrderly_of_ofText (ht : IsPlain t) (h : ∃ s, Selector.ofText t = .ok s) :
    IsOrderly t [] := isOrderly_of_parts ht (exists_ofText_iff.mp h).2

end Css
end CosmeticFilter
