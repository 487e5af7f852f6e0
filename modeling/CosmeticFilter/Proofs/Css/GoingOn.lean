import CosmeticFilter.Proofs.Css.Unread
import CosmeticFilter.Proofs.Text.Cut

/-!
# Selectors that go on

The end of a selector is read without looking back: what is read of a selector up to the middle of a
compound, and the rest from there, are the two parts of what is read of the whole. The same text
read relative to `:scope` has the same compounds, and `:scope` in place of what stands before it.

* `readOn`: reads what follows a compound;
* `ReadsChain`: compounds that are joined by combinators, read one behind the other;
* `readChain_append`: a selector that goes on within its last compound or behind it;
* `IsSingle`, `ofText_eq_single_iff`: a list of one selector;
* `ofText_relative`: the same text relative to `:scope`.
-/

namespace CosmeticFilter

/-- Behind a text that does not end in an escape, the reader stands between two characters. -/
protected theorem Nesting.Settled.after {b : Brackets} {s : Nesting} (hs : Settled s) {t : Text}
    (ht : Extended.endsInEscape t = false) : Settled (Nesting.after b s t) := by
  induction t using Extended.escape_induction generalizing s with
  | nil => exact hs
  | lone => exact absurd ht (by decide)
  | escape e r ih =>
    rw [Extended.endsInEscape_escape] at ht
    rw [after_cons, after_cons, hs.step_escape]
    exact ih hs ht
  | plain c r hc ih =>
    rw [Extended.endsInEscape_cons hc] at ht
    rw [after_cons]
    exact ih (hs.step hc) ht

namespace Css

variable {left chain : List (Combinator × Compound)}

/-- Reads what follows a compound: the next compounds, or the end. -/
def readOn (left : List (Combinator × Compound)) (compound : Compound) (t : Text) :
    Except Error Complex :=
  match readCombinator t with
  | .error e => .error e
  | .ok none => .ok ⟨compound, left⟩
  | .ok (some (k, rest)) => readChain ((k, compound) :: left) rest

theorem readChain_eq (left : List (Combinator × Compound)) (t : Text) :
    readChain left t = readCompound t >>= fun taken => readOn left taken.1 taken.2 := by
  rw [readChain]
  split
  · rename_i hcompound
    rw [hcompound]
    rfl
  · rename_i compound rest hcompound
    rw [hcompound]
    show _ = readOn left compound rest
    unfold readOn
    split
    · rename_i hcombinator
      rw [hcombinator]
    · rename_i hcombinator
      rw [hcombinator]
    · rename_i hcombinator
      rw [hcombinator]

theorem readCompound_eq_ok {t rest : Text} {compound : Compound} :
    readCompound t = .ok (compound, rest) ↔
      readConditions true t = .ok (compound, rest) ∧ compound ≠ [] := by
  unfold readCompound
  constructor
  · intro h
    split at h
    · exact absurd h (by simp)
    · split at h <;> exact absurd h (by simp)
    · rename_i hread
      obtain ⟨rfl, rfl⟩ := Prod.mk.inj (Except.ok.inj h)
      exact ⟨hread, List.cons_ne_nil _ _⟩
  · rintro ⟨h, hne⟩
    rw [h]
    cases compound with
    | nil => exact absurd rfl hne
    | cons c r => rfl

theorem ne_nil_of_readCompound {t rest : Text} {compound : Compound}
    (h : readCompound t = .ok (compound, rest)) : t ≠ [] := by
  rintro rfl
  exact absurd (length_lt_of_readCompound h) (Nat.not_lt_zero _)

/-- The compounds that have been read already only stand at the end of the chain. -/
theorem readChain_left (l : List (Combinator × Compound)) (t : Text) :
    readChain (l ++ left) t =
      (readChain l t).map fun s => ⟨s.subject, s.chain ++ left⟩ := by
  induction hn : t.length using Nat.strong_induction_on generalizing l t with
  | _ n ih =>
    subst hn
    rw [readChain_eq, readChain_eq]
    cases hcompound : readCompound t with
    | error e => rfl
    | ok taken =>
      obtain ⟨compound, rest⟩ := taken
      show readOn (l ++ left) compound rest = (readOn l compound rest).map _
      unfold readOn
      cases hcombinator : readCombinator rest with
      | error e => rfl
      | ok next =>
        cases next with
        | none => rfl
        | some next =>
          obtain ⟨k, rest'⟩ := next
          have h₁ := length_lt_of_readCompound hcompound
          have h₂ := length_le_of_readCombinator hcombinator
          exact ih rest'.length (by omega) ((k, compound) :: l) rest' rfl

theorem readCombinator_append {t rest : Text} {k : Combinator}
    (h : readCombinator t = .ok (some (k, rest))) (w : Text) :
    readCombinator (t ++ w) = .ok (some (k, rest ++ w)) := by
  unfold readCombinator at h ⊢
  cases hstart : Text.trimStart t with
  | nil =>
    rw [hstart] at h
    exact absurd h (by simp)
  | cons c r =>
    rw [hstart] at h
    rw [Text.trimStart_append (by rw [hstart]; exact List.cons_ne_nil _ _), hstart,
      List.cons_append]
    simp only at h ⊢
    cases hchar : Combinator.ofChar? c with
    | some combinator =>
      rw [hchar] at h
      simp only at h ⊢
      cases hnext : Text.trimStart r with
      | nil =>
        rw [hnext] at h
        exact absurd h (by simp)
      | cons d u =>
        rw [hnext] at h
        rw [Text.trimStart_append (by rw [hnext]; exact List.cons_ne_nil _ _), hnext]
        obtain ⟨rfl, rfl⟩ := Prod.mk.inj (Option.some_inj.mp (Except.ok.inj h))
        rfl
    | none =>
      rw [hchar] at h
      simp only at h ⊢
      have hhead : (t ++ w).head? = t.head? := by
        cases t with
        | nil => exact absurd hstart (by simp)
        | cons d u => rfl
      rw [hhead]
      split at h
      · exact absurd h (by simp)
      · rename_i hne
        obtain ⟨rfl, rfl⟩ := Prod.mk.inj (Option.some_inj.mp (Except.ok.inj h))
        rw [if_neg hne]
        rfl

theorem readCombinator_eq_none_iff {t : Text} :
    readCombinator t = .ok none ↔ Text.trimStart t = [] := by
  unfold readCombinator
  constructor
  · intro h
    split at h
    · assumption
    · split at h
      · split at h <;> exact absurd h (by simp)
      · split at h <;> exact absurd h (by simp)
  · intro h
    rw [h]

/-- Compounds that are joined by combinators are read from the text, up to its end. -/
inductive ReadsChain : List (Combinator × Compound) → Text → Complex → Prop
  | last {left : List (Combinator × Compound)} {t rest : Text} {compound : Compound} :
      readCompound t = .ok (compound, rest) → Text.trimStart rest = [] →
      ReadsChain left t ⟨compound, left⟩
  | more {left : List (Combinator × Compound)} {t rest u : Text} {compound : Compound}
      {k : Combinator} {s : Complex} :
      readCompound t = .ok (compound, rest) → readCombinator rest = .ok (some (k, u)) →
      ReadsChain ((k, compound) :: left) u s → ReadsChain left t s

theorem readOn_of_end {compound : Compound} {t : Text} (h : Text.trimStart t = []) :
    readOn left compound t = .ok ⟨compound, left⟩ := by
  rw [readOn, readCombinator_eq_none_iff.mpr h]

theorem readOn_of_combinator {compound : Compound} {t u : Text} {k : Combinator}
    (h : readCombinator t = .ok (some (k, u))) :
    readOn left compound t = readChain ((k, compound) :: left) u := by
  rw [readOn, h]

/-- What follows a compound is the end, or a combinator and more compounds. -/
theorem readOn_cases {compound : Compound} {t : Text} {s : Complex}
    (h : readOn left compound t = .ok s) :
    (Text.trimStart t = [] ∧ s = ⟨compound, left⟩) ∨
      ∃ k u, readCombinator t = .ok (some (k, u)) ∧
        readChain ((k, compound) :: left) u = .ok s := by
  unfold readOn at h
  split at h
  · exact absurd h (by simp)
  · rename_i hnone
    exact .inl ⟨readCombinator_eq_none_iff.mp hnone, (Except.ok.inj h).symm⟩
  · rename_i k u hcombinator
    exact .inr ⟨k, u, hcombinator, h⟩

theorem readsChain_of_readChain {left : List (Combinator × Compound)} {t : Text} {s : Complex}
    (h : readChain left t = .ok s) : ReadsChain left t s := by
  rw [readChain_eq] at h
  obtain ⟨⟨compound, rest⟩, hcompound, hon⟩ := Outcome.bind_eq_ok.mp h
  rcases readOn_cases (t := rest) hon with ⟨hend, rfl⟩ | ⟨k, u, hcombinator, hmore⟩
  · exact .last hcompound hend
  · exact .more hcompound hcombinator (readsChain_of_readChain hmore)
termination_by t.length
decreasing_by
  have hlt := length_lt_of_readCompound hcompound
  have hle := length_le_of_readCombinator hcombinator
  omega

theorem ne_nil_of_readChain {t : Text} {s : Complex} (h : readChain left t = .ok s) : t ≠ [] := by
  cases readsChain_of_readChain h with
  | last hcompound => exact ne_nil_of_readCompound hcompound
  | more hcompound => exact ne_nil_of_readCompound hcompound

theorem ReadsChain.readChain_eq {t : Text} {s : Complex} (h : ReadsChain left t s) :
    readChain left t = .ok s := by
  induction h with
  | last hcompound hend =>
    rw [Css.readChain_eq, hcompound]
    exact readOn_of_end hend
  | more hcompound hcombinator _ ih =>
    rw [Css.readChain_eq, hcompound]
    exact (readOn_of_combinator hcombinator).trans ih

/-- A text whose last character is no blank is not all blank, but for the empty one. -/
theorem eq_nil_of_trimStart {t : Text} (hlast : ∀ c ∈ t.getLast?, Text.isBlank c = false)
    (h : Text.trimStart t = []) : t = [] := by
  by_contra hne
  have hblank := Text.trimStart_eq_nil_iff.mp h _ (List.getLast_mem hne)
  rw [hlast _ (List.getLast?_eq_some_getLast hne)] at hblank
  exact absurd hblank (by simp)

theorem getLast?_of_suffix {r t : Text} (h : r <:+ t) (hne : r ≠ []) :
    t.getLast? = r.getLast? := by
  obtain ⟨x, rfl⟩ := h
  exact List.getLast?_append_of_ne_nil x hne

/-- A compound behind blanks is a descendant. -/
theorem readCombinator_descendant {t r : Text} {c : Char} (hc : isCombinator c = false)
    (hstart : Text.trimStart t = c :: r) (hhead : t.head? ≠ some c) :
    readCombinator t = .ok (some (.descendant, c :: r)) := by
  have hnone : Combinator.ofChar? c = none := by
    have hsome := Combinator.ofChar?_isSome c
    rw [hc] at hsome
    exact Option.not_isSome_iff_eq_none.mp (by rw [hsome]; exact Bool.false_ne_true)
  unfold readCombinator
  rw [hstart]
  simp only [hnone]
  rw [if_neg hhead]

theorem readOn_descendant {compound : Compound} {t r : Text} {c : Char}
    (hc : isCombinator c = false) (hstart : Text.trimStart t = c :: r) (hhead : t.head? ≠ some c) :
    readOn left compound t = readChain ((.descendant, compound) :: left) (c :: r) :=
  readOn_of_combinator (readCombinator_descendant hc hstart hhead)

theorem suffix_of_readCombinator {t rest : Text} {k : Combinator}
    (h : readCombinator t = .ok (some (k, rest))) : rest <:+ t ∧ rest ≠ [] := by
  have hstart : ∀ u : Text, Text.trimStart u <:+ u := fun u => List.dropWhile_suffix _
  unfold readCombinator at h
  cases hfirst : Text.trimStart t with
  | nil =>
    rw [hfirst] at h
    exact absurd h (by simp)
  | cons c r =>
    have hsuffix := hstart t
    rw [hfirst] at h hsuffix
    simp only at h
    split at h
    · split at h
      · exact absurd h (by simp)
      · rename_i d u hnext
        obtain ⟨rfl, rfl⟩ := Prod.mk.inj (Option.some_inj.mp (Except.ok.inj h))
        rw [← hnext]
        refine ⟨((hstart r).trans (List.suffix_cons ..)).trans hsuffix, ?_⟩
        rw [hnext]
        exact List.cons_ne_nil _ _
    · split at h
      · exact absurd h (by simp)
      · obtain ⟨rfl, rfl⟩ := Prod.mk.inj (Option.some_inj.mp (Except.ok.inj h))
        exact ⟨hsuffix, List.cons_ne_nil _ _⟩

/-- A compound at the end of a text goes on, and one in front of the end is read as before. -/
theorem readConditions_append_of_readCompound {f w rest : Text} {compound : Compound}
    (hplain : IsPlain f) (hw : Detached w) (h : readCompound f = .ok (compound, rest)) :
    readConditions true (f ++ w) =
      if rest = [] then (readConditions false w).map fun more => (compound ++ more.1, more.2)
      else .ok (compound, rest ++ w) := by
  have hconditions := (readCompound_eq_ok.mp h).1
  rw [← List.append_nil f] at hconditions
  obtain ⟨r', -, hrest, hexchange⟩ :=
    readConditions_exchange (.inl hplain) hw hconditions (Nat.zero_le _)
  rw [List.append_nil] at hrest
  subst hrest
  rwa [List.isEmpty_eq_false_iff.mpr (ne_nil_of_readCompound h), Bool.and_false] at hexchange

/-- A selector that goes on: more conditions for its last compound, and then more compounds. -/
theorem readChain_append {f w : Text} {s : Complex} (hplain : IsPlain f)
    (hlast : ∀ c ∈ f.getLast?, Text.isBlank c = false) (hw : Detached w)
    (h : readChain left f = .ok s) :
    readChain left (f ++ w) =
      readConditions false w >>= fun more => readOn s.chain (s.subject ++ more.1) more.2 := by
  have hread := readsChain_of_readChain h
  clear h
  induction hread with
  | @last left f rest compound hcompound hend =>
    -- the selector ends with this compound, and the compound goes on
    obtain ⟨hconditions, hne⟩ := readCompound_eq_ok.mp hcompound
    have hnil : rest = [] := by
      by_contra hrest
      refine hrest (eq_nil_of_trimStart (fun c hc => hlast c ?_) hend)
      rwa [getLast?_of_suffix (isRest_of_readConditions hconditions).suffix hrest]
    have happend := readConditions_append_of_readCompound hplain hw hcompound
    rw [if_pos hnil] at happend
    rw [readChain_eq]
    cases hmore : readConditions false w with
    | error e =>
      rw [hmore] at happend
      unfold readCompound
      rw [happend]
      rfl
    | ok more =>
      rw [hmore] at happend
      rw [readCompound_eq_ok.mpr ⟨happend, fun hnil => hne (List.append_eq_nil_iff.mp hnil).1⟩]
      rfl
  | @more left f rest u compound k s hcompound hcombinator _ ih =>
    obtain ⟨hconditions, hne⟩ := readCompound_eq_ok.mp hcompound
    obtain ⟨hsuffix, hu⟩ := suffix_of_readCombinator hcombinator
    have hrest : rest ≠ [] := by
      rintro rfl
      exact hu (List.suffix_nil.mp hsuffix)
    have happend := readConditions_append_of_readCompound hplain hw hcompound
    rw [if_neg hrest] at happend
    have hsuffix := hsuffix.trans (isRest_of_readConditions hconditions).suffix
    rw [readChain_eq, readCompound_eq_ok.mpr ⟨happend, hne⟩]
    refine (readOn_of_combinator (readCombinator_append hcombinator w)).trans
      (ih (hplain.suffix hsuffix) ?_)
    rw [← getLast?_of_suffix hsuffix hu]
    exact hlast

/-! ### Lists of one selector -/

/-- The text is one selector and no list of several: it ends outside everything, and no comma in it
stands outside everything. -/
def IsSingle (t : Text) : Prop :=
  Nesting.top.after .roundAndSquare t = .top ∧
    Nesting.cut .roundAndSquare (· == ',') .top t = none

theorem IsSingle.append_iff {t : Text} (ht : Nesting.top.after .roundAndSquare t = .top)
    (u : Text) : IsSingle (t ++ u) ↔ IsSingle t ∧ IsSingle u := by
  unfold IsSingle
  rw [Nesting.after_append, ht]
  cases hcut : Nesting.cut .roundAndSquare (· == ',') .top t with
  | some parts =>
    obtain ⟨x, d, y⟩ := parts
    rw [Nesting.cut_append_of_some hcut]
    simp
  | none =>
    rw [Nesting.cut_append_of_none hcut, ht, Option.map_eq_none_iff]
    simp

theorem split_eq_of_cut {b : Brackets} {p : Char → Bool} {s : Nesting} {t : Text}
    (h : Nesting.cut b p s t = none) : Nesting.split b p s t = [t] := by
  induction t generalizing s with
  | nil => rfl
  | cons c r ih =>
    rw [Nesting.cut] at h
    rw [Nesting.split]
    split at h
    · exact absurd h (by simp)
    · rename_i hc
      rw [if_neg hc, ih (Option.map_eq_none_iff.mp h)]

theorem cut_eq_none_of_split {p : Char → Bool} {s : Nesting} {t : Text}
    (h : (Nesting.split .roundAndSquare p s t).length = 1) :
    Nesting.cut .roundAndSquare p s t = none := by
  induction t generalizing s with
  | nil => rfl
  | cons c r ih =>
    rw [Nesting.split] at h
    rw [Nesting.cut]
    split at h
    · have hne := List.length_pos_iff.mpr (Nesting.split_ne_nil .roundAndSquare p s r)
      rw [List.length_cons] at h
      omega
    · rename_i hc
      rw [if_neg hc, Option.map_eq_none_iff]
      refine ih ?_
      split at h
      · rename_i hnil
        exact (Nesting.split_ne_nil _ _ _ _ hnil).elim
      · rename_i hcons
        rw [hcons]
        exact h

/-- Blanks do not count for how deep a text without escapes is nested. -/
theorem after_withoutBlanks {b : Brackets} {s : Nesting} {t : Text} (ht : IsPlain t)
    (hs : Nesting.Settled s) : s.after b (Text.withoutBlanks t) = s.after b t := by
  induction t generalizing s with
  | nil => rfl
  | cons c r ih =>
    have ih' := ih (fun d hd => ht d (List.mem_cons_of_mem _ hd))
      (hs.step (b := b) (ht c (List.mem_cons_self ..)))
    by_cases hblank : Text.isBlank c = true
    · rw [Text.withoutBlanks_cons_of_blank hblank, Nesting.after_cons, ← ih',
        hs.step_of_blank hblank]
    · rw [Text.withoutBlanks_cons_of_not_blank hblank, Nesting.after_cons, Nesting.after_cons, ih']

/-- Nor do they count for where it is cut. -/
theorem cut_withoutBlanks_eq_none_iff {b : Brackets} {p : Char → Bool}
    (hp : ∀ c, Text.isBlank c = true → p c = false) {s : Nesting} {t : Text} (ht : IsPlain t)
    (hs : Nesting.Settled s) :
    Nesting.cut b p s (Text.withoutBlanks t) = none ↔ Nesting.cut b p s t = none := by
  induction t generalizing s with
  | nil => exact Iff.rfl
  | cons c r ih =>
    have ih' := ih (fun d hd => ht d (List.mem_cons_of_mem _ hd))
      (hs.step (b := b) (ht c (List.mem_cons_self ..)))
    by_cases hblank : Text.isBlank c = true
    · have hcut : Nesting.cutsAt b p s c = false := by
        unfold Nesting.cutsAt
        rw [hp c hblank, Bool.and_false]
      rw [hs.step_of_blank hblank] at ih'
      rw [Text.withoutBlanks_cons_of_blank hblank, Nesting.cut,
        if_neg (by rw [hcut]; exact Bool.false_ne_true), hs.step_of_blank hblank,
        Option.map_eq_none_iff]
      exact ih'
    · rw [Text.withoutBlanks_cons_of_not_blank hblank, Nesting.cut, Nesting.cut]
      split
      · simp
      · rw [Option.map_eq_none_iff, Option.map_eq_none_iff]
        exact ih'

theorem isSingle_withoutBlanks_iff {t : Text} (ht : IsPlain t) :
    IsSingle (Text.withoutBlanks t) ↔ IsSingle t := by
  unfold IsSingle
  rw [after_withoutBlanks ht Nesting.settled_top,
    cut_withoutBlanks_eq_none_iff (fun c hc => ?_) ht Nesting.settled_top]
  rw [beq_eq_false_iff_ne]
  rintro rfl
  exact absurd hc (by decide)

theorem IsPlain.trim {t : Text} (ht : IsPlain t) : IsPlain (Text.trim t) :=
  fun c hc => ht c ((Text.infix_trim t).mem hc)

theorem isSingle_trim_iff {t : Text} (ht : IsPlain t) : IsSingle (Text.trim t) ↔ IsSingle t := by
  rw [← isSingle_withoutBlanks_iff ht, ← isSingle_withoutBlanks_iff ht.trim, Text.withoutBlanks_trim]

theorem after_eq_top_of_splitList {t : Text} {parts : List Text} (ht : IsPlain t)
    (h : splitList t = .ok parts) : Nesting.top.after .roundAndSquare t = .top := by
  have hsettled := Nesting.settled_top.after (b := .roundAndSquare) (endsInEscape_of_plain ht)
  unfold splitList at h
  simp only at h
  split at h
  · exact absurd h (by simp)
  · rename_i hquote
    split at h
    · rename_i hdepth
      obtain ⟨hescaped, -⟩ := hsettled
      generalize Nesting.top.after .roundAndSquare t = s at *
      obtain ⟨quote, depth, escaped⟩ := s
      subst hquote hdepth hescaped
      rfl
    · exact absurd h (by simp)

theorem mapM_eq_single {ε α β : Type} {f : α → Except ε β} {l : List α} {y : β}
    (h : l.mapM f = .ok [y]) : ∃ x, l = [x] ∧ f x = .ok y := by
  cases l with
  | nil => exact absurd (Except.ok.inj h) (List.cons_ne_nil _ _).symm
  | cons x r =>
    rw [List.mapM_cons] at h
    obtain ⟨y', hy, h⟩ := Outcome.bind_eq_ok.mp h
    obtain ⟨ys, hys, h⟩ := Outcome.bind_eq_ok.mp h
    obtain ⟨rfl, rfl⟩ := List.cons.inj (Except.ok.inj h)
    cases r with
    | nil => exact ⟨x, rfl, hy⟩
    | cons x' r =>
      rw [List.mapM_cons] at hys
      obtain ⟨z, -, hys⟩ := Outcome.bind_eq_ok.mp hys
      obtain ⟨zs, -, hys⟩ := Outcome.bind_eq_ok.mp hys
      exact absurd (Except.ok.inj hys) (List.cons_ne_nil _ _)

theorem ofText_of_isSingle {t : Text} (ht : IsSingle t) :
    Selector.ofText t = (Complex.ofText (Text.trim t)).map fun s => ⟨[s]⟩ := by
  obtain ⟨hafter, hcut⟩ := ht
  have hparts : splitList t = .ok [Text.trim t] := by
    unfold splitList
    rw [hafter, split_eq_of_cut hcut]
    rfl
  unfold Selector.ofText
  rw [hparts]
  show ([Text.trim t].mapM Complex.ofText >>= _) = _
  rw [List.mapM_cons]
  cases Complex.ofText (Text.trim t) <;> rfl

/-- A text without escapes is a list of one selector exactly if it is one selector. -/
theorem ofText_eq_single_iff {t : Text} {s : Complex} (ht : IsPlain t) :
    Selector.ofText t = .ok ⟨[s]⟩ ↔ IsSingle t ∧ Complex.ofText (Text.trim t) = .ok s := by
  unfold Selector.ofText
  constructor
  · intro h
    obtain ⟨parts, hparts, h⟩ := Outcome.bind_eq_ok.mp h
    obtain ⟨alternatives, hmap, h⟩ := Outcome.bind_eq_ok.mp h
    obtain rfl : alternatives = [s] := congrArg Selector.alternatives (Except.ok.inj h)
    have hafter := after_eq_top_of_splitList ht hparts
    obtain ⟨part, rfl, hpart⟩ := mapM_eq_single hmap
    unfold splitList at hparts
    rw [hafter] at hparts
    have hsplit : (Nesting.top.split .roundAndSquare (· == ',') t).map Text.trim = [part] :=
      Except.ok.inj hparts
    have hcut := cut_eq_none_of_split (by rw [← List.length_map Text.trim, hsplit]; rfl)
    rw [split_eq_of_cut hcut] at hsplit
    refine ⟨⟨hafter, hcut⟩, ?_⟩
    rw [(List.cons.inj hsplit).1]
    exact hpart
  · rintro ⟨hsingle, h⟩
    show Selector.ofText t = _
    rw [ofText_of_isSingle hsingle, h]
    rfl

/-! ### Relative selectors -/

theorem ofText_eq_readChain {t : Text} (hne : t ≠ []) (htrim : Text.trim t = t)
    (hhead : ∀ c ∈ t.head?, isCombinator c = false) :
    Complex.ofText t = readChain [] t := by
  unfold Complex.ofText
  rw [htrim]
  cases t with
  | nil => exact absurd rfl hne
  | cons c r =>
    have hnone : Combinator.ofChar? c = none := by
      have hsome := Combinator.ofChar?_isSome c
      rw [hhead c rfl] at hsome
      exact Option.not_isSome_iff_eq_none.mp (by rw [hsome]; exact Bool.false_ne_true)
    simp only [hnone]

theorem readConditions_blank (t : Text) : readConditions false (' ' :: t) = .ok ([], ' ' :: t) :=
  readConditions_of_none rfl

/-- `:scope`, and what follows it. -/
theorem readChain_scope_append {w : Text} (hw : Detached w)
    (hread : readConditions false w = .ok ([], w)) :
    readChain [] (":scope".toList ++ w) = readOn [] [.pseudo .scope] w := by
  have hscope : readChain [] ":scope".toList = .ok ⟨[.pseudo .scope], []⟩ := by decide +kernel
  have happend := readChain_append (by decide)
    (by rintro c hc; obtain rfl := Option.some_inj.mp hc; decide) hw hscope
  rw [hread] at happend
  exact happend

/-- A selector below `:scope`. -/
theorem readChain_scope (t : Text) :
    readChain [] (":scope ".toList ++ t) = readOn [] [.pseudo .scope] (' ' :: t) :=
  readChain_scope_append (w := ' ' :: t)
    (by rintro c hc; obtain rfl := Option.some_inj.mp hc; decide) (readConditions_blank t)

/-- The first compound of what follows a compound, and its combinator, do not depend on the
compound. -/
theorem readOn_eq_ok {compound : Compound} {t : Text} {s : Complex}
    (h : readOn left compound t = .ok s) (hne : Text.trimStart t ≠ []) :
    ∃ (k : Combinator) (s' : Complex), s.subject = s'.subject ∧
      s.chain = s'.chain ++ (k, compound) :: left ∧
      ∀ (left' : List (Combinator × Compound)) (compound' : Compound),
        readOn left' compound' t = .ok ⟨s'.subject, s'.chain ++ (k, compound') :: left'⟩ := by
  rcases readOn_cases h with ⟨hend, -⟩ | ⟨k, rest, hcombinator, hmore⟩
  · exact absurd hend hne
  · rw [← List.nil_append ((k, compound) :: left), readChain_left] at hmore
    obtain ⟨s', hs', rfl⟩ := Outcome.map_eq_ok.mp hmore
    refine ⟨k, s', rfl, rfl, fun left' compound' => ?_⟩
    rw [readOn_of_combinator hcombinator, ← List.nil_append ((k, compound') :: left'),
      readChain_left, hs']
    rfl

/-- A selector that starts with a combinator is relative to `:scope`. -/
theorem ofText_combinator {t r : Text} {c : Char} {s : Complex}
    (hlast : ∀ d ∈ t.getLast?, Text.isBlank d = false) (ht : Text.trimStart t = c :: r)
    (hc : isCombinator c = true) (h : readOn [] [.pseudo .scope] t = .ok s) :
    Complex.ofText (Text.trim t) = .ok s := by
  obtain ⟨k, hk⟩ := Option.isSome_iff_exists.mp ((Combinator.ofChar?_isSome c).trans hc)
  have htrim : Text.trim t = c :: r := (Text.trim_eq_trimStart hlast).trans ht
  unfold readOn readCombinator at h
  rw [ht] at h
  simp only [hk] at h
  unfold Complex.ofText
  rw [Text.trim_trim, htrim]
  simp only [hk]
  cases hrest : Text.trimStart r with
  | nil =>
    rw [hrest] at h
    exact absurd h (by simp)
  | cons d u =>
    rw [hrest] at h
    exact h

end Css
end CosmeticFilter
