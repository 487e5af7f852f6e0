import CosmeticFilter.Proofs.Css.LastCharacter
import CosmeticFilter.Text.Number
import Mathlib.Data.List.Forall2
import Mathlib.Tactic.IntervalCases

/-!
# The alternatives of a list

A list of selectors is cut at its commas, and its parts are read one by one. A text that ends
outside quotes and brackets is cut by itself when another one follows, so what a list that is put
together stands for is seen from its parts.

* `Nesting.split_append`: the parts of a concatenation;
* `mapM_eq_ok_iff`, `ofText_eq_ok`, `exists_ofText_iff`: a list is read if each of its parts is;
* `mapM_eq_error_iff`: the first part that is not is to blame;
* `ofText_trim`: blanks around a list do not count;
* `ofText_append_comma`: two lists with a comma between them;
* `isLast_or_escaped_of_ofText`: the last character of a list;
* `exists_ofText_scope`: the list below `:scope`;
* `readInt?_of_ofText`: a list is no number.
-/

namespace CosmeticFilter
namespace Nesting

variable {b : Brackets} {p : Char → Bool} {s : Nesting}

/-- The reader stands outside quotes and brackets; it may stand behind a backslash. -/
def IsClosed (s : Nesting) : Prop := s.quote = none ∧ s.depth = 0

theorem isClosed_top : top.IsClosed := ⟨rfl, rfl⟩

/-- A character at which a text is cut changes nothing. -/
theorem step_of_cutsAt {c : Char} (h : cutsAt b p s c = true) : step b s c = s := by
  rw [cutsAt, Bool.and_eq_true, Bool.and_eq_true, Bool.not_eq_true'] at h
  obtain ⟨⟨htop, hdelimiter⟩, -⟩ := h
  rw [isTop_iff] at htop
  subst htop
  simp only [Brackets.isDelimiter, Bool.or_eq_false_iff, beq_eq_false_iff_ne] at hdelimiter
  obtain ⟨⟨⟨⟨hescape, hdouble⟩, hsingle⟩, hopens⟩, hcloses⟩ := hdelimiter
  simp [step, top, hescape, hdouble, hsingle, hopens, hcloses]

/-- The last part of a text goes on with the first part of the next. -/
theorem split_append (t u : Text) :
    ∃ front last x xs, split b p s t = front ++ [last] ∧ split b p (after b s t) u = x :: xs ∧
      split b p s (t ++ u) = front ++ (last ++ x) :: xs := by
  induction t generalizing s with
  | nil =>
    obtain ⟨x, xs, hx⟩ := List.exists_cons_of_ne_nil (split_ne_nil b p s u)
    exact ⟨[], [], x, xs, rfl, hx, hx⟩
  | cons c r ih =>
    obtain ⟨front, last, x, xs, hr, hu, hboth⟩ := ih (s := step b s c)
    rw [List.cons_append, split, split, after_cons]
    by_cases hc : cutsAt b p s c = true
    · rw [if_pos hc, if_pos hc]
      rw [step_of_cutsAt hc] at hr hu hboth ⊢
      exact ⟨[] :: front, last, x, xs, by rw [hr]; rfl, hu, by rw [hboth]; rfl⟩
    · rw [if_neg hc, if_neg hc, hr, hboth]
      cases front with
      | nil => exact ⟨[], c :: last, x, xs, rfl, hu, rfl⟩
      | cons w ws => exact ⟨(c :: w) :: ws, last, x, xs, rfl, hu, rfl⟩

/-- A text that is cut nowhere goes on with the first part of the next. -/
theorem split_append_of_none {t : Text} (h : split b p s t = [t]) (u : Text) :
    ∃ x xs, split b p (after b s t) u = x :: xs ∧ split b p s (t ++ u) = (t ++ x) :: xs := by
  obtain ⟨front, last, x, xs, ht, hu, hboth⟩ := split_append (b := b) (p := p) (s := s) t u
  obtain ⟨rfl, hlast⟩ := List.append_inj' ((List.nil_append _).trans (h.symm.trans ht)) rfl
  rw [← (List.cons.inj hlast).1] at hboth
  exact ⟨x, xs, hu, hboth⟩

/-- The first part reaches up to the first cut. -/
theorem split_of_cut {t x y : Text} {d : Char} (h : cut b p s t = some (x, d, y)) :
    ∃ xs, split b p s t = x :: xs := by
  induction t generalizing s x with
  | nil => exact absurd h (by simp [cut])
  | cons c r ih =>
    rw [cut] at h
    rw [split]
    by_cases hc : cutsAt b p s c = true
    · rw [if_pos hc] at h ⊢
      obtain ⟨rfl, -, -⟩ := h
      exact ⟨_, rfl⟩
    · rw [if_neg hc] at h ⊢
      obtain ⟨⟨x', d', y'⟩, hcut, heq⟩ := Option.map_eq_some_iff.mp h
      obtain ⟨rfl, -, -⟩ := heq
      obtain ⟨xs, hxs⟩ := ih hcut
      rw [hxs]
      exact ⟨xs, rfl⟩

/-- A text is cut at a comma that follows a closed part. -/
theorem split_append_cut {c : Char} {t : Text} (h : cutsAt b p (after b s t) c = true) (u : Text) :
    split b p s (t ++ c :: u) = split b p s t ++ split b p (after b s t) u := by
  obtain ⟨front, last, x, xs, ht, hu, hboth⟩ := split_append (b := b) (p := p) (s := s) t (c :: u)
  rw [split, if_pos h] at hu
  obtain ⟨rfl, rfl⟩ := List.cons.inj hu
  rw [hboth, ht, List.append_nil, List.append_assoc, List.singleton_append]

/-- A backslash waits for its character if it does wherever a text is read. -/
theorem Settled.escaped_after (hs : Settled s) (t : Text) :
    (after b s t).escaped = Extended.endsInEscape t := by
  fun_induction Extended.endsInEscape t generalizing s with
  | case1 => exact hs.not_escaped
  | case2 c =>
    rw [after_cons, after_nil]
    by_cases hc : c = '\\'
    · subst hc
      rw [Nesting.step, if_neg (by rw [hs.not_escaped]; exact Bool.false_ne_true), if_pos rfl]
      rfl
    · rw [(hs.step hc).not_escaped, beq_eq_false_iff_ne.mpr hc]
  | case3 e r ih =>
    rw [after_cons, after_cons, hs.step_escape]
    exact ih hs
  | case4 c e r hc ih =>
    rw [after_cons]
    exact ih (hs.step hc)

/-- Outside everything, no backslash waits. -/
theorem endsInEscape_of_isTop {t : Text} (h : (top.after b t).isTop = true) :
    Extended.endsInEscape t = false := by
  rw [← settled_top.escaped_after (b := b)]
  rw [isTop, Bool.and_eq_true, Bool.not_eq_true'] at h
  exact h.2

/-- The last part is all of the text, or it is read as from the start. -/
theorem after_last_of_split {t last : Text} {front : List Text}
    (h : split b p s t = front ++ [last]) :
    (front = [] → last = t) ∧ (front ≠ [] → after b s t = after b .top last) := by
  induction t generalizing s front last with
  | nil =>
    rw [split] at h
    obtain ⟨rfl, hlast⟩ := List.append_inj' ((List.nil_append _).trans h) rfl
    exact ⟨fun _ => (List.cons.inj hlast).1.symm, fun hne => absurd rfl hne⟩
  | cons c r ih =>
    rw [split] at h
    by_cases hc : cutsAt b p s c = true
    · rw [if_pos hc] at h
      have htop : s = .top := by
        rw [cutsAt, Bool.and_eq_true, Bool.and_eq_true] at hc
        exact isTop_iff.mp hc.1.1
      cases front with
      | nil =>
        exact absurd (List.cons.inj h).2 (split_ne_nil b p s r)
      | cons x front =>
        obtain ⟨-, hr⟩ := List.cons.inj h
        refine ⟨fun hnil => absurd hnil (List.cons_ne_nil _ _), fun _ => ?_⟩
        rw [after_cons, step_of_cutsAt hc]
        by_cases hfront : front = []
        · rw [(ih hr).1 hfront, htop]
        · exact (ih hr).2 hfront
    · rw [if_neg hc] at h
      obtain ⟨w, ws, hw⟩ := List.exists_cons_of_ne_nil (split_ne_nil b p (step b s c) r)
      rw [hw] at h
      cases front with
      | nil =>
        obtain ⟨rfl, rfl⟩ := List.cons.inj h
        exact ⟨fun _ => by rw [(ih (show _ = [] ++ [w] from hw)).1 rfl], fun hne => absurd rfl hne⟩
      | cons x front =>
        obtain ⟨rfl, rfl⟩ := List.cons.inj h
        exact ⟨fun hnil => absurd hnil (List.cons_ne_nil _ _),
          fun _ => (ih (show _ = (w :: front) ++ [last] from hw)).2 (List.cons_ne_nil _ _)⟩

/-- A backslash that waits at the end of the last part does so at the end of the text. -/
theorem endsInEscape_of_split {t last : Text} {front : List Text}
    (h : split b p .top t = front ++ [last]) :
    Extended.endsInEscape last = Extended.endsInEscape t := by
  by_cases hfront : front = []
  · rw [(after_last_of_split h).1 hfront]
  · rw [← settled_top.escaped_after (b := b), ← settled_top.escaped_after (b := b),
      (after_last_of_split h).2 hfront]

/-- The first part starts the text, and the others stand in it. -/
theorem prefix_of_split {t x : Text} {xs : List Text} (h : split b p s t = x :: xs) :
    x <+: t ∧ ∀ y ∈ xs, y <:+: t := by
  induction t generalizing s x xs with
  | nil =>
    obtain ⟨rfl, rfl⟩ := List.cons.inj h
    exact ⟨List.prefix_rfl, fun y hy => absurd hy List.not_mem_nil⟩
  | cons c r ih =>
    obtain ⟨w, ws, hw⟩ := List.exists_cons_of_ne_nil (split_ne_nil b p (step b s c) r)
    obtain ⟨hfirst, hothers⟩ := ih hw
    have htail : r <:+: c :: r := (List.suffix_cons c r).isInfix
    rw [split] at h
    split at h
    · rename_i hcut
      rw [step_of_cutsAt hcut] at hw
      obtain ⟨rfl, rfl⟩ := List.cons.inj h
      rw [hw]
      exact ⟨List.nil_prefix, List.forall_mem_cons.mpr
        ⟨hfirst.isInfix.trans htail, fun y hy => (hothers y hy).trans htail⟩⟩
    · rw [hw] at h
      obtain ⟨rfl, rfl⟩ := List.cons.inj h
      exact ⟨(List.prefix_cons_inj c).mpr hfirst, fun y hy => (hothers y hy).trans htail⟩

theorem infix_of_mem_split {t x : Text} (h : x ∈ split b p s t) : x <:+: t := by
  obtain ⟨y, ys, hsplit⟩ := List.exists_cons_of_ne_nil (split_ne_nil b p s t)
  obtain ⟨hfirst, hothers⟩ := prefix_of_split hsplit
  rw [hsplit] at h
  rcases List.mem_cons.mp h with rfl | h
  · exact hfirst.isInfix
  · exact hothers x h

/-- The first part starts the text. -/
theorem head?_of_split {t x : Text} {xs : List Text} (h : split b p s t = x :: xs)
    (hne : x ≠ []) : x.head? = t.head? := by
  cases t with
  | nil => exact absurd (List.cons.inj h).1.symm hne
  | cons c r =>
    rw [split] at h
    split at h
    · exact absurd (List.cons.inj h).1.symm hne
    · split at h <;> rw [← (List.cons.inj h).1] <;> rfl

end Nesting

namespace Css

/-! ### Reading the parts -/

/-- A sequence of readings succeeds if each of them does. -/
theorem mapM_eq_ok_iff {ε α β : Type} {f : α → Except ε β} {l : List α} {ys : List β} :
    l.mapM f = .ok ys ↔ List.Forall₂ (fun x y => f x = .ok y) l ys := by
  induction l generalizing ys with
  | nil =>
    rw [List.mapM_nil, List.forall₂_nil_left_iff]
    exact ⟨fun h => (Except.ok.inj h).symm, fun h => by rw [h]; rfl⟩
  | cons x r ih =>
    rw [List.mapM_cons]
    constructor
    · intro h
      obtain ⟨y, hy, h⟩ := Outcome.bind_eq_ok.mp h
      obtain ⟨more, hmore, h⟩ := Outcome.bind_eq_ok.mp h
      obtain rfl := Except.ok.inj h
      exact .cons hy (ih.mp hmore)
    · rintro (_ | ⟨hy, hmore⟩)
      exact Outcome.bind_eq_ok.mpr ⟨_, hy, Outcome.bind_eq_ok.mpr ⟨_, ih.mpr hmore, rfl⟩⟩

/-- A sequence of readings fails at the first of them that does. -/
theorem mapM_eq_error_iff {ε α β : Type} {f : α → Except ε β} {l : List α} {e : ε} :
    l.mapM f = .error e ↔
      ∃ front x back, l = front ++ x :: back ∧ (∀ w ∈ front, ∃ y, f w = .ok y) ∧
        f x = .error e := by
  induction l with
  | nil =>
    rw [List.mapM_nil]
    constructor
    · exact fun h => by cases h
    · rintro ⟨front, x, back, hnil, -⟩
      exact absurd hnil.symm (List.append_ne_nil_of_right_ne_nil _ (List.cons_ne_nil _ _))
  | cons w r ih =>
    rw [List.mapM_cons]
    constructor
    · intro h
      rcases Outcome.bind_eq_error.mp h with hw | ⟨y, hy, h⟩
      · exact ⟨[], w, r, rfl, List.forall_mem_nil _, hw⟩
      rcases Outcome.bind_eq_error.mp h with hr | ⟨ys, -, h⟩
      · obtain ⟨front, x, back, rfl, hfront, hx⟩ := ih.mp hr
        exact ⟨w :: front, x, back, rfl, List.forall_mem_cons.mpr ⟨⟨y, hy⟩, hfront⟩, hx⟩
      · cases h
    · rintro ⟨_ | ⟨w', front⟩, x, back, heq, hfront, hx⟩
      · obtain ⟨rfl, rfl⟩ := List.cons.inj heq
        exact Outcome.bind_eq_error.mpr (.inl hx)
      · obtain ⟨rfl, rfl⟩ := List.cons.inj heq
        obtain ⟨⟨y, hy⟩, hfront⟩ := List.forall_mem_cons.mp hfront
        have hr := ih.mpr ⟨front, x, back, rfl, hfront, hx⟩
        exact Outcome.bind_eq_error.mpr (.inr ⟨y, hy, Outcome.bind_eq_error.mpr (.inl hr)⟩)

theorem exists_forall₂ {ε α β : Type} {f : α → Except ε β} {l : List α}
    (h : ∀ x ∈ l, ∃ y, f x = .ok y) : ∃ ys, List.Forall₂ (fun x y => f x = .ok y) l ys := by
  induction l with
  | nil => exact ⟨[], .nil⟩
  | cons x r ih =>
    obtain ⟨y, hy⟩ := h x (List.mem_cons_self ..)
    obtain ⟨ys, hys⟩ := ih fun x' hx' => h x' (List.mem_cons_of_mem _ hx')
    exact ⟨y :: ys, .cons hy hys⟩

theorem exists_of_forall₂ {ε α β : Type} {f : α → Except ε β} {l : List α} {ys : List β}
    (h : List.Forall₂ (fun x y => f x = .ok y) l ys) : ∀ x ∈ l, ∃ y, f x = .ok y := by
  induction h with
  | nil => exact fun x hx => absurd hx List.not_mem_nil
  | cons hy _ ih =>
    intro x hx
    rcases List.mem_cons.mp hx with rfl | hx
    · exact ⟨_, hy⟩
    · exact ih x hx

theorem complex_ofText_trim (t : Text) : Complex.ofText (Text.trim t) = Complex.ofText t := by
  unfold Complex.ofText
  rw [Text.trim_trim]

/-- The parts of a list between its commas, as written. -/
def parts (t : Text) : List Text := Nesting.top.split .roundAndSquare (· == ',') t

theorem splitList_eq_ok {t : Text} {ts : List Text} :
    splitList t = .ok ts ↔
      (Nesting.top.after .roundAndSquare t).IsClosed ∧ ts = (parts t).map Text.trim := by
  unfold splitList Nesting.IsClosed parts
  simp only
  cases hquote : (Nesting.top.after .roundAndSquare t).quote with
  | some q => simp
  | none =>
    by_cases hdepth : (Nesting.top.after .roundAndSquare t).depth = 0
    · rw [if_pos hdepth, Except.ok.injEq]
      exact ⟨fun h => ⟨⟨rfl, hdepth⟩, h.symm⟩, fun h => h.2.symm⟩
    · simp [hdepth]

/-- A list is read if it ends outside quotes and brackets and each of its parts is read. -/
theorem ofText_eq_ok {t : Text} {s : Selector} :
    Selector.ofText t = .ok s ↔
      (Nesting.top.after .roundAndSquare t).IsClosed ∧
        List.Forall₂ (fun part x => Complex.ofText part = .ok x) (parts t) s.alternatives := by
  have hmap : ∀ xs, ((parts t).map Text.trim).mapM Complex.ofText = .ok xs ↔
      List.Forall₂ (fun part x => Complex.ofText part = .ok x) (parts t) xs := by
    intro xs
    rw [mapM_eq_ok_iff, List.forall₂_map_left_iff]
    simp only [complex_ofText_trim]
  unfold Selector.ofText
  constructor
  · intro h
    obtain ⟨ts, hts, hread⟩ := Outcome.bind_eq_ok.mp h
    obtain ⟨xs, hxs, hs⟩ := Outcome.bind_eq_ok.mp hread
    obtain ⟨hclosed, heq⟩ := splitList_eq_ok.mp hts
    rw [heq] at hxs
    rw [← Except.ok.inj hs]
    exact ⟨hclosed, (hmap xs).mp hxs⟩
  · rintro ⟨hclosed, hxs⟩
    exact Outcome.bind_eq_ok.mpr ⟨_, splitList_eq_ok.mpr ⟨hclosed, rfl⟩,
      Outcome.bind_eq_ok.mpr ⟨_, (hmap _).mpr hxs, rfl⟩⟩

theorem exists_ofText_iff {t : Text} :
    (∃ s, Selector.ofText t = .ok s) ↔
      (Nesting.top.after .roundAndSquare t).IsClosed ∧
        ∀ part ∈ parts t, ∃ x, Complex.ofText part = .ok x := by
  constructor
  · rintro ⟨s, hs⟩
    obtain ⟨hclosed, hparts⟩ := ofText_eq_ok.mp hs
    exact ⟨hclosed, exists_of_forall₂ hparts⟩
  · rintro ⟨hclosed, hparts⟩
    obtain ⟨xs, hxs⟩ := exists_forall₂ hparts
    exact ⟨⟨xs⟩, ofText_eq_ok.mpr ⟨hclosed, hxs⟩⟩

/-- The alternatives of a list are what its parts are read as. -/
theorem mem_alternatives_iff {t : Text} {s : Selector} (h : Selector.ofText t = .ok s)
    {b : Complex} :
    b ∈ s.alternatives ↔ ∃ part ∈ parts t, Complex.ofText part = .ok b := by
  obtain ⟨-, hparts⟩ := ofText_eq_ok.mp h
  constructor
  · intro hb
    obtain ⟨i, hi, rfl⟩ := List.mem_iff_getElem.mp hb
    have hi' : i < (parts t).length := hparts.length_eq ▸ hi
    exact ⟨_, List.getElem_mem hi', hparts.get hi' hi⟩
  · rintro ⟨part, hpart, hread⟩
    obtain ⟨i, hi, rfl⟩ := List.mem_iff_getElem.mp hpart
    have hi' : i < s.alternatives.length := hparts.length_eq ▸ hi
    rw [Except.ok.inj (hread.symm.trans (hparts.get hi hi'))]
    exact List.getElem_mem hi'

/-- The asterisk is read as the selector of every element. -/
theorem ofText_asterisk : Selector.ofText ['*'] = .ok ⟨[⟨[.universal], []⟩]⟩ := by
  decide +kernel

/-! ### Blanks around a list -/

theorem comma_not_blank (c : Char) (hc : Text.isBlank c = true) : (c == ',') = false := by
  rw [beq_eq_false_iff_ne]
  rintro rfl
  exact absurd hc (by decide)

theorem parts_of_blank {s : Nesting} {a : Text} (ha : ∀ c ∈ a, Text.isBlank c = true) :
    s.split .roundAndSquare (· == ',') a = [a] :=
  split_eq_of_cut (Nesting.cut_eq_none_of_forall fun c hc => comma_not_blank c (ha c hc))

theorem splitList_blank_append {a : Text} (ha : ∀ c ∈ a, Text.isBlank c = true) (t : Text) :
    splitList (a ++ t) = splitList t := by
  have hafter :
      Nesting.top.after .roundAndSquare (a ++ t) = Nesting.top.after .roundAndSquare t := by
    rw [Nesting.after_append, Nesting.settled_top.after_of_blank ha]
  have hmap : (parts (a ++ t)).map Text.trim = (parts t).map Text.trim := by
    obtain ⟨x, xs, hx, hboth⟩ := Nesting.split_append_of_none (parts_of_blank ha) t
    rw [Nesting.settled_top.after_of_blank ha] at hx
    unfold parts
    rw [hboth, hx, List.map_cons, List.map_cons, Text.trim_blank_append ha]
  unfold splitList
  rw [hafter]
  unfold parts at hmap
  rw [hmap]

theorem isClosed_of_blank {s : Nesting} {a : Text} (ha : ∀ c ∈ a, Text.isBlank c = true)
    (hquote : ∀ q ∈ s.quote, Text.isBlank q = false) :
    (s.after .roundAndSquare a).quote = s.quote ∧ (s.after .roundAndSquare a).depth = s.depth := by
  cases a with
  | nil => exact ⟨rfl, rfl⟩
  | cons c r =>
    rw [Nesting.after_cons]
    obtain ⟨quote, depth, escaped⟩ := s
    have hr : ∀ d ∈ r, Text.isBlank d = true := fun d hd => ha d (List.mem_cons_of_mem _ hd)
    have hsettled : Nesting.Settled ⟨quote, depth, false⟩ := ⟨rfl, hquote⟩
    cases escaped with
    | true =>
      rw [Nesting.step, if_pos rfl, hsettled.after_of_blank hr]
      exact ⟨rfl, rfl⟩
    | false =>
      rw [hsettled.step_of_blank (ha c (List.mem_cons_self ..)), hsettled.after_of_blank hr]
      exact ⟨rfl, rfl⟩

theorem splitList_append_blank {a : Text} (ha : ∀ c ∈ a, Text.isBlank c = true) (t : Text) :
    splitList (t ++ a) = splitList t := by
  obtain ⟨hquote, hdepth⟩ := isClosed_of_blank (s := Nesting.top.after .roundAndSquare t) ha
    fun q hq => by rcases Nesting.quote_after t q hq with rfl | rfl <;> decide
  rw [← Nesting.after_append] at hquote hdepth
  have hmap : (parts (t ++ a)).map Text.trim = (parts t).map Text.trim := by
    obtain ⟨front, last, x, xs, ht, hx, hboth⟩ :=
      Nesting.split_append (b := .roundAndSquare) (p := (· == ',')) (s := .top) t a
    rw [parts_of_blank ha] at hx
    obtain ⟨rfl, rfl⟩ := List.cons.inj hx
    unfold parts
    rw [hboth, ht, List.map_append, List.map_append]
    rw [List.map_cons, List.map_cons, Text.trim_append_of_blank ha]
  unfold parts at hmap
  unfold splitList
  simp only
  rw [hquote, hdepth, hmap]

/-- Blanks around a list do not count. -/
theorem ofText_trim (t : Text) : Selector.ofText (Text.trim t) = Selector.ofText t := by
  obtain ⟨a, b, ha, hb, heq⟩ := Text.exists_append_trim_append t
  have hlist : splitList t = splitList (Text.trim t) := by
    conv_lhs => rw [heq]
    rw [splitList_blank_append ha, splitList_append_blank hb]
  unfold Selector.ofText
  rw [hlist]

/-! ### Lists behind one another -/

/-- A list that does not end in an open backslash ends where a comma cuts. -/
theorem after_of_ofText {t : Text} {s : Selector} (ht : Selector.ofText t = .ok s)
    (hescape : Extended.endsInEscape t = false) : Nesting.top.after .roundAndSquare t = .top := by
  obtain ⟨⟨hquote, hdepth⟩, -⟩ := ofText_eq_ok.mp ht
  have hescaped := Nesting.settled_top.escaped_after (b := .roundAndSquare) t
  rw [hescape] at hescaped
  exact Nesting.isTop_iff.mp (by simp [Nesting.isTop, hquote, hdepth, hescaped])

/-- Two lists with a comma between them are read as one list, unless a backslash takes the comma. -/
theorem ofText_append_comma {t u : Text} {s s' : Selector} (ht : Selector.ofText t = .ok s)
    (hescape : Extended.endsInEscape t = false) (hu : Selector.ofText u = .ok s') :
    Selector.ofText (t ++ ", ".toList ++ u) = .ok ⟨s.alternatives ++ s'.alternatives⟩ := by
  have hafter := after_of_ofText ht hescape
  have hspace : Selector.ofText (' ' :: u) = .ok s' := by
    have hspace : ∀ c ∈ [' '], Text.isBlank c = true :=
      List.forall_mem_singleton.mpr (by decide)
    rw [← ofText_trim, ← List.singleton_append, Text.trim_blank_append hspace, ofText_trim, hu]
  obtain ⟨hclosed, hparts⟩ := ofText_eq_ok.mp hspace
  have htop : Nesting.top.after .roundAndSquare (t ++ ',' :: ' ' :: u) =
      Nesting.top.after .roundAndSquare (' ' :: u) := by
    rw [Nesting.after_append, hafter, Nesting.after_cons]
    rfl
  have hcut : Nesting.cutsAt .roundAndSquare (· == ',') .top ',' = true := by decide
  rw [List.append_assoc]
  show Selector.ofText (t ++ ',' :: ' ' :: u) = _
  refine ofText_eq_ok.mpr ⟨by rw [htop]; exact hclosed, ?_⟩
  unfold parts
  rw [Nesting.split_append_cut (by rw [hafter]; exact hcut), hafter]
  exact List.rel_append (ofText_eq_ok.mp ht).2 hparts

/-! ### The last character -/

theorem isLast_or_escaped_of_complex {u : Text} {c : Char} {x : Complex} (hc : Stands c)
    (h : Complex.ofText (u ++ [c]) = .ok x) :
    isLast c = true ∨ Extended.endsInEscape u = true := by
  have htrim : Text.trim (u ++ [c]) = Text.trimStart u ++ [c] := by
    rw [Text.trim_eq_trimStart, trimStart_append_last hc]
    intro d hd
    rw [List.getLast?_concat] at hd
    rw [← Option.some_inj.mp hd, hc.not_blank]
  have hstart := IsRest.trimStart u
  unfold Complex.ofText at h
  rw [htrim] at h
  cases hfirst : Text.trimStart u with
  | nil =>
    rw [hfirst] at h
    simp only [List.nil_append] at h
    split at h
    · exact absurd Text.trimStart_nil (ne_nil_of_readChain h)
    · exact (isLast_or_escaped_of_readChain (t := []) hc h).imp_right
        fun hescape => absurd hescape Bool.false_ne_true
  | cons d r =>
    rw [hfirst] at h hstart
    simp only [List.cons_append] at h
    split at h
    · rename_i combinator hchar
      have hd : d ≠ '\\' := by
        rintro rfl
        rw [show Combinator.ofChar? '\\' = none from by decide] at hchar
        exact absurd hchar (by simp)
      rw [trimStart_append_last hc] at h
      exact (((IsRest.trimStart r).trans (.cons hd r)).trans hstart).last
        (isLast_or_escaped_of_readChain hc h)
    · exact hstart.last (isLast_or_escaped_of_readChain (t := d :: r) hc h)

/-- The last character of a list belongs to its last alternative. -/
theorem isLast_or_escaped_of_ofText {u : Text} {c : Char} {s : Selector} (hc : Stands c)
    (hcomma : c ≠ ',') (h : Selector.ofText (u ++ [c]) = .ok s) :
    isLast c = true ∨ Extended.endsInEscape u = true := by
  obtain ⟨-, hparts⟩ := exists_ofText_iff.mp ⟨s, h⟩
  obtain ⟨front, last, y, ys, hu, hy, hboth⟩ :=
    Nesting.split_append (b := .roundAndSquare) (p := (· == ',')) (s := .top) u [c]
  rw [Nesting.split, if_neg] at hy
  · obtain ⟨rfl, rfl⟩ := List.cons.inj hy
    unfold parts at hparts
    rw [hboth] at hparts
    obtain ⟨x, hx⟩ := hparts _ (List.mem_append_right _ (List.mem_singleton_self _))
    rw [← Nesting.endsInEscape_of_split hu]
    exact isLast_or_escaped_of_complex hc hx
  · rw [Nesting.cutsAt, beq_eq_false_iff_ne.mpr hcomma, Bool.and_false]
    exact Bool.false_ne_true

/-! ### Below `:scope` -/

theorem exists_complex_ofText_scope {c : Char} {r : Text}
    (hc : Text.isBlank c = false ∧ isCombinator c = false)
    (h : ∃ x, Complex.ofText (c :: r) = .ok x) :
    ∃ x, Complex.ofText (":scope ".toList ++ c :: r) = .ok x := by
  obtain ⟨x, hx⟩ := h
  have hend : Text.trimEnd (c :: r) ≠ [] := by
    intro hnil
    have hblank := Text.trimEnd_eq_nil_iff.mp hnil c (List.mem_cons_self ..)
    rw [hc.1] at hblank
    exact absurd hblank (by simp)
  have htrim : Text.trim (c :: r) = Text.trimEnd (c :: r) := by
    rw [Text.trim, Text.trimStart_cons_of_not_blank hc.1]
  have hhead := Text.head?_trimEnd hend
  obtain ⟨d, u, hd⟩ := List.exists_cons_of_ne_nil hend
  rw [hd, List.head?_cons, List.head?_cons, Option.some_inj] at hhead
  subst hhead
  have hscope : Text.trim (":scope ".toList ++ d :: r) = ":scope ".toList ++ d :: u := by
    rw [Text.trim, Text.trimStart_eq_self (fun e he => by rw [← Option.some_inj.mp he]; decide),
      Text.trimEnd_append hend, hd]
  rw [← complex_ofText_trim, htrim, hd, ofText_eq_readChain (List.cons_ne_nil _ _)
    (by rw [← hd, ← htrim, Text.trim_trim])
    fun e he => by rw [← Option.some_inj.mp he]; exact hc.2] at hx
  have hstart : Text.trimStart (' ' :: d :: u) = d :: u := by
    rw [Text.trimStart_cons_of_blank (by decide), Text.trimStart_cons_of_not_blank hc.1]
  have hspace : (' ' :: d :: u).head? ≠ some d := by
    intro heq
    rw [← Option.some_inj.mp heq] at hc
    exact absurd hc.1 (by decide)
  rw [← complex_ofText_trim, hscope, ofText_eq_readChain (by simp)
    (by rw [← hscope, Text.trim_trim]) (fun e he => by rw [← Option.some_inj.mp he]; decide),
    readChain_scope]
  unfold readOn
  rw [readCombinator_descendant hc.2 hstart hspace]
  simp only
  rw [← List.nil_append [_], readChain_left, hx]
  exact ⟨_, rfl⟩

/-- The text is a list of selectors of which the first one may be left out. -/
structure IsOpenList (t : Text) : Prop where
  /-- It ends outside quotes and brackets. -/
  closed : (Nesting.top.after .roundAndSquare t).IsClosed
  /-- The first part is a selector, or there is none. -/
  first : ∀ part ∈ (parts t).head?, Text.trim part = [] ∨ ∃ x, Complex.ofText part = .ok x
  /-- The other parts are selectors. -/
  others : ∀ part ∈ (parts t).tail, ∃ x, Complex.ofText part = .ok x

theorem isOpenList_of_ofText {t : Text} (h : ∃ s, Selector.ofText t = .ok s) : IsOpenList t := by
  obtain ⟨hclosed, hparts⟩ := exists_ofText_iff.mp h
  exact ⟨hclosed, fun part hpart => Or.inr (hparts part (List.mem_of_mem_head? hpart)),
    fun part hpart => hparts part (List.mem_of_mem_tail hpart)⟩

theorem IsOpenList.trimStart {t : Text} (h : IsOpenList t) : IsOpenList (Text.trimStart t) := by
  obtain ⟨a, ha, heq⟩ := Text.exists_trimStart_append t
  obtain ⟨x, xs, hx, hboth⟩ :=
    Nesting.split_append_of_none (parts_of_blank (s := .top) ha) (Text.trimStart t)
  rw [Nesting.settled_top.after_of_blank ha] at hx
  rw [← heq] at hboth
  have htrim : Text.trim (a ++ x) = Text.trim x := Text.trim_blank_append ha x
  obtain ⟨hclosed, hfirst, hothers⟩ := h
  unfold parts at hfirst hothers
  rw [hboth] at hfirst hothers
  refine ⟨by rw [Nesting.after_trimStart]; exact hclosed, fun part hpart => ?_,
    fun part hpart => hothers part ?_⟩
  · unfold parts at hpart
    rw [hx] at hpart
    obtain rfl := Option.some_inj.mp hpart
    have hread := hfirst _ rfl
    rwa [htrim, ← complex_ofText_trim, htrim, complex_ofText_trim] at hread
  · unfold parts at hpart
    rwa [hx] at hpart

/-- A list is read below `:scope`, where its first alternative stands below it. -/
theorem exists_ofText_scope {t : Text}
    (hhead : ∀ c ∈ t.head?, Text.isBlank c = false ∧ isCombinator c = false) (h : IsOpenList t) :
    ∃ s, Selector.ofText (":scope ".toList ++ t) = .ok s := by
  have hscope : Nesting.top.after .roundAndSquare ":scope ".toList = .top := by decide
  obtain ⟨x, xs, hx, hboth⟩ := Nesting.split_append_of_none (b := .roundAndSquare)
    (p := (· == ',')) (s := .top) (t := ":scope ".toList) (by decide) t
  rw [hscope] at hx
  obtain ⟨hclosed, hfirst, hothers⟩ := h
  unfold parts at hfirst hothers
  rw [hx] at hfirst hothers
  refine exists_ofText_iff.mpr ⟨by rw [Nesting.after_append, hscope]; exact hclosed, ?_⟩
  unfold parts
  rw [hboth]
  intro part hpart
  rcases List.mem_cons.mp hpart with rfl | hpart
  · cases x with
    | nil => exact ⟨⟨[.pseudo .scope], []⟩, by decide +kernel⟩
    | cons c r =>
      have hc := hhead c (Nesting.head?_of_split hx (List.cons_ne_nil _ _)).symm
      refine exists_complex_ofText_scope hc ((hfirst _ rfl).resolve_left fun hnil => ?_)
      have hblank := Text.trim_eq_nil_iff.mp hnil c (List.mem_cons_self ..)
      rw [hc.1] at hblank
      exact absurd hblank (by simp)
  · exact hothers part hpart

/-! ### Numbers -/

theorem mem_digits {c : Char} (h : c.isDigit = true) : c ∈ "0123456789".toList := by
  obtain ⟨hlow, hhigh⟩ := Bool.and_eq_true_iff.mp h
  have hlow : 48 ≤ c.toNat := of_decide_eq_true hlow
  have hhigh : c.toNat ≤ 57 := of_decide_eq_true hhigh
  rw [← Char.ofNat_toNat c]
  generalize c.toNat = n at hlow hhigh
  interval_cases n <;> decide

/-- Neither a digit nor a minus sign with digits behind it starts a condition. -/
theorem readSimple_numeral {c : Char} {r : Text} (hc : c.isDigit = true ∨ c = '-')
    (hr : ∀ d ∈ r.head?, d.isDigit = true) :
    readSimple true (c :: r) = .error (.unexpected c) := by
  have hmem : c ∈ "-0123456789".toList := by
    rcases hc with hc | rfl
    · exact List.mem_cons_of_mem _ (mem_digits hc)
    · decide
  have hchar : ∀ d ∈ "-0123456789".toList, (isIdentStart d || d == '\\' || d == '*' || d == '.' ||
      d == '#' || d == '[' || d == ':' || Text.isBlank d || isCombinator d) = false :=
    Text.eq_false_of_any (by decide)
  have hnext : ∀ d ∈ "0123456789".toList, (isIdentStart d || d == '-' || d == '\\') = false :=
    Text.eq_false_of_any (by decide)
  have hstart : startsIdent (c :: r) = false := by
    have hfirst := hchar c hmem
    simp only [Bool.or_eq_false_iff] at hfirst
    cases r with
    | nil => rw [startsIdent, hfirst.1.1.1.1.1.1.1.1]
    | cons d r =>
      rw [startsIdent]
      split
      · exact hnext d (mem_digits (hr d rfl))
      · rw [hfirst.1.1.1.1.1.1.1.1, hfirst.1.1.1.1.1.1.1.2]
        rfl
  have hfirst := hchar c hmem
  simp only [Bool.or_eq_false_iff, beq_eq_false_iff_ne] at hfirst
  obtain ⟨⟨⟨⟨⟨⟨⟨-, hstar⟩, hdot⟩, hhash⟩, hbracket⟩, hcolon⟩, hblank⟩, hcombinator⟩ := hfirst
  rw [readSimple, if_neg fun h => hstar h.1, if_neg hdot, if_neg hhash, if_neg hbracket,
    if_neg hcolon, if_neg fun h => absurd h.2 (by rw [hstart]; simp), hblank, hcombinator]
  rfl

/-- Digits are no selector, with a minus sign or without. -/
theorem ofText_numeral {c : Char} {r : Text} (hc : c.isDigit = true ∨ c = '-')
    (hr : ∀ d ∈ r, d.isDigit = true) (S : Selector) : Selector.ofText (c :: r) ≠ .ok S := by
  intro h
  have hmem : ∀ d ∈ c :: r, d ∈ "-0123456789".toList := by
    intro d hd
    rcases List.mem_cons.mp hd with rfl | hd
    · rcases hc with hc | rfl
      · exact List.mem_cons_of_mem _ (mem_digits hc)
      · decide
    · exact List.mem_cons_of_mem _ (mem_digits (hr d hd))
  have hchar : ∀ d ∈ "-0123456789".toList, (Text.isBlank d || isCombinator d || d == ',') = false :=
    Text.eq_false_of_any (by decide)
  have hblank : ∀ d ∈ c :: r, Text.isBlank d = false := fun d hd =>
    (Bool.or_eq_false_iff.mp (Bool.or_eq_false_iff.mp (hchar d (hmem d hd))).1).1
  obtain ⟨-, hparts⟩ := exists_ofText_iff.mp ⟨S, h⟩
  have hsingle : parts (c :: r) = [c :: r] :=
    split_eq_of_cut (Nesting.cut_eq_none_of_forall fun d hd =>
      (Bool.or_eq_false_iff.mp (hchar d (hmem d hd))).2)
  rw [hsingle] at hparts
  obtain ⟨x, hx⟩ := hparts _ (List.mem_singleton_self _)
  rw [ofText_eq_readChain (List.cons_ne_nil c r)
    (Text.trim_eq_self (fun d hd => hblank d (List.mem_of_head? hd))
      fun d hd => hblank d (List.mem_of_getLast? hd)), readChain_eq] at hx
  · obtain ⟨⟨compound, rest⟩, hcompound, -⟩ := Outcome.bind_eq_ok.mp hx
    have hsimple := readSimple_numeral hc fun d hd => hr d (List.mem_of_head? hd)
    rcases readConditions_eq_ok (readCompound_eq_ok.mp hcompound).1 with
      ⟨hnone, -⟩ | ⟨_, _, _, hsome, -⟩
    · rw [hsimple] at hnone
      exact absurd hnone (by simp)
    · rw [hsimple] at hsome
      exact absurd hsome (by simp)
  · intro d hd
    have hd' := hchar d (hmem d (List.mem_of_head? hd))
    exact (Bool.or_eq_false_iff.mp (Bool.or_eq_false_iff.mp hd').1).2

/-- What starts with a selector is no number, unless the selector starts with a combinator. -/
theorem readInt?_of_ofText {f : Text} {S : Selector} (h : Selector.ofText f = .ok S) (hne : f ≠ [])
    (hlead : ∀ c ∈ f.head?, isCombinator c = false) (w : Text) : Text.readInt? (f ++ w) = none := by
  obtain ⟨c, r, rfl⟩ := List.exists_cons_of_ne_nil hne
  have hplus : c ≠ '+' := by
    rintro rfl
    exact absurd (hlead '+' rfl) (by decide)
  have hdigits : ∀ {t : Text} {n : Nat}, Text.readNat? t = some n → ∀ d ∈ t, d.isDigit = true := by
    intro t n hread
    unfold Text.readNat? at hread
    split at hread
    · rename_i hall
      exact List.all_eq_true.mp (Bool.and_eq_true_iff.mp hall).2
    · exact absurd hread (by simp)
  rw [List.cons_append, Text.readInt?, if_neg hplus]
  by_cases hminus : c = '-'
  · rw [if_pos hminus, Option.map_eq_none_iff, Option.eq_none_iff_forall_ne_some]
    intro n hread
    obtain ⟨m, hm, -⟩ := Option.bind_eq_some_iff.mp hread
    exact ofText_numeral (Or.inr hminus)
      (fun d hd => hdigits hm d (List.mem_append_left w hd)) S h
  · rw [if_neg hminus, Option.map_eq_none_iff, Option.eq_none_iff_forall_ne_some]
    intro n hread
    have hall := hdigits hread
    exact ofText_numeral (Or.inl (hall c (List.mem_cons_self ..)))
      (fun d hd => hall d (List.mem_cons_of_mem c (List.mem_append_left w hd))) S h

end Css
end CosmeticFilter
