import CosmeticFilter.Proofs.Css.Unread
import CosmeticFilter.Proofs.Text.Cut

/-!
# Where an attribute selector ends

An attribute selector is read twice: as a group, whose reader looks for the bracket that closes it
and knows nothing but quotes and backslashes, and as a name, a comparison and a value. Both find the
same bracket. A backslash takes one character for the first reader and up to six digits and a blank
for the second one, but none of these could open a quote or close the group.

* `insideSquare`, `Passes`: the content of a group in square brackets, and a text that its reader
  passes over, and with it a reader that counts brackets;
* `Spans`: what a reader takes is passed over, and is all that it depends on, but for the next
  character;
* `exists_passes_of_readAttribute`, `exists_group_of_readAttribute`: the bracket of an attribute
  selector closes the group.
-/

namespace CosmeticFilter
namespace Css

open Extended (groupContent Inside)

variable {ε α β : Type} {q q' q'' : Option Char} {p p' t : Text}

/-! ### Groups in square brackets -/

/-- Cuts what is left of the content of a group in square brackets, where the quote may be open,
from what follows it. -/
def insideSquare (quote : Option Char) (t : Text) : Text × Text :=
  groupContent .square ⟨0, quote, '['⟩ t

/-- Within square brackets, nothing counts but the quote that is open. -/
theorem groupContent_square (i : Inside) (t : Text) :
    groupContent .square i t = insideSquare i.quote t := by
  have hsame : ∀ t (i j : Inside), i.quote = j.quote →
      groupContent .square i t = groupContent .square j t := by
    intro t
    induction t using Extended.escape_induction with
    | nil => intros; rfl
    | lone => intros; rfl
    | escape e r ih =>
      intro i j hij
      rw [Extended.groupContent_escape, Extended.groupContent_escape]
      exact congrArg (fun x => Text.onto '\\' (Text.onto e x)) (ih _ _ hij)
    | plain c r hc ih =>
      intro i j hij
      rw [Extended.groupContent_cons hc, Extended.groupContent_cons hc]
      unfold Inside.step
      rw [hij]
      cases j.quote with
      | some q => exact congrArg (Text.onto c) (ih _ _ rfl)
      | none =>
        simp only
        split_ifs
        · exact congrArg (Text.onto c) (ih _ _ rfl)
        · rfl
        · exact congrArg (Text.onto c) (ih _ _ rfl)
  exact hsame t _ _ rfl

theorem insideSquare_escape (q : Option Char) (e : Char) (r : Text) :
    insideSquare q ('\\' :: e :: r) = Text.onto '\\' (Text.onto e (insideSquare q r)) := by
  rw [insideSquare, Extended.groupContent_escape, groupContent_square]

theorem insideSquare_cons {c : Char} (hc : c ≠ '\\') (q : Option Char) (r : Text) :
    insideSquare q (c :: r) =
      match q with
      | some d => Text.onto c (insideSquare (if c = d then none else some d) r)
      | none =>
        if c = '"' ∨ c = '\'' then Text.onto c (insideSquare (some c) r)
        else if c = ']' then ([], c :: r)
        else Text.onto c (insideSquare none r) := by
  rw [insideSquare, Extended.groupContent_cons hc, Inside.step]
  cases q with
  | some d => simp only [groupContent_square]
  | none =>
    simp only
    split_ifs <;> simp only [groupContent_square]

/-- The reader of the group passes over the text, with the first quote open in front of it and the
second one behind it, and so does a reader that counts brackets. One that counts round brackets
alone finds neither any nor a colon outside quotes. -/
structure Passes (q q' : Option Char) (p : Text) : Prop where
  /-- The text belongs to the content of the group. -/
  group : ∀ z : Text, insideSquare q (p ++ z) = (p ++ (insideSquare q' z).1, (insideSquare q' z).2)
  /-- As many brackets are open behind the text as in front of it, and the group is one of them all
  along. -/
  nesting : ∀ f : Char → Bool,
    Nesting.Uncut .roundAndSquare f ⟨q, 1, false⟩ p ⟨q', 1, false⟩
  /-- Colons and closing brackets stand in quotes. -/
  covers : Nesting.Covers ⟨q, 0, false⟩ p ⟨q', 0, false⟩

theorem Passes.nil : Passes q q [] := ⟨fun _ => rfl, fun _ => .nil, .nil⟩

theorem Passes.append (h : Passes q q' p) (h' : Passes q' q'' p') : Passes q q'' (p ++ p') := by
  refine ⟨fun z => ?_, fun f => (h.nesting f).append (h'.nesting f), h.covers.append h'.covers⟩
  rw [List.append_assoc, h.group, h'.group, List.append_assoc]

/-- A character in the group, from what the readers do with it. -/
theorem Passes.singleton {c : Char} (hgroup : ∀ z, insideSquare q (c :: z) =
      Text.onto c (insideSquare q' z))
    (hstep : Nesting.step .roundAndSquare ⟨q, 1, false⟩ c = ⟨q', 1, false⟩)
    (hround : Nesting.step .round ⟨q, 0, false⟩ c = ⟨q', 0, false⟩)
    (hcovered : q = none → c ≠ ':' ∧ c ≠ ')') : Passes q q' [c] :=
  ⟨hgroup, fun _ => hstep ▸ .inside (by simp [Nesting.isTop]),
    hround ▸ .singleton fun htop => hcovered (congrArg Nesting.quote htop)⟩

/-- A character that is neither a mark nor a colon. -/
theorem Passes.plain {c : Char}
    (hc : Brackets.roundAndSquare.isDelimiter c = false ∧ c ≠ ':')
    (hq : ∀ d ∈ q, d = '"' ∨ d = '\'') : Passes q q [c] := by
  obtain ⟨hc, hcolon⟩ := hc
  have hne : ∀ d, Brackets.roundAndSquare.isDelimiter d = true → c ≠ d := by
    rintro d hd rfl
    rw [hd] at hc
    cases hc
  have hslash := hne '\\' (by decide)
  -- within quotes, no reader does anything with the character
  have hquoted : ∀ (b : Brackets) (d : Char) (depth : Nat), d ∈ q →
      Nesting.step b ⟨some d, depth, false⟩ c = ⟨some d, depth, false⟩ := by
    intro b d depth hd
    have hd : c ≠ d := hne d (by rcases hq d hd with rfl | rfl <;> decide)
    simp [Nesting.step, hslash, hd]
  have hopen : ∀ (b : Brackets) (depth : Nat), b.opens c = false → b.closes c = false →
      Nesting.step b ⟨none, depth, false⟩ c = ⟨none, depth, false⟩ := by
    intro b depth hopens hcloses
    simp [Nesting.step, hslash, hne '"' (by decide), hne '\'' (by decide), hopens, hcloses]
  refine .singleton (fun z => ?_) ?_ ?_ fun _ => ⟨hcolon, hne ')' (by decide)⟩
  · rw [insideSquare_cons hslash]
    cases q with
    | some d =>
      have hd : c ≠ d := hne d (by rcases hq d rfl with rfl | rfl <;> decide)
      simp only [if_neg hd]
    | none =>
      simp only [hne '"' (by decide), hne '\'' (by decide), or_self, if_false,
        if_neg (hne ']' (by decide))]
  · cases q with
    | some d => exact hquoted _ d 1 rfl
    | none =>
      simp only [Brackets.isDelimiter, Bool.or_eq_false_iff] at hc
      exact hopen _ 1 hc.1.2 hc.2
  · cases q with
    | some d => exact hquoted _ d 0 rfl
    | none =>
      exact hopen _ 0 (beq_eq_false_iff_ne.mpr (hne '(' (by decide)))
        (beq_eq_false_iff_ne.mpr (hne ')' (by decide)))

theorem Passes.all {p : Text} (hq : ∀ d ∈ q, d = '"' ∨ d = '\'')
    (hp : ∀ c ∈ p, Brackets.roundAndSquare.isDelimiter c = false ∧ c ≠ ':') : Passes q q p := by
  induction p with
  | nil => exact .nil
  | cons c p ih =>
    obtain ⟨hc, hp⟩ := List.forall_mem_cons.mp hp
    exact (Passes.plain hc hq).append (ih hp)

theorem Passes.escape (e : Char) : Passes q q ['\\', e] :=
  ⟨fun z => by rw [List.cons_append, List.singleton_append, insideSquare_escape]; rfl,
    fun _ => .escape rfl e, .escape rfl e⟩

theorem not_isDelimiter_of_isIdentChar {c : Char} (hc : isIdentChar c = true) :
    Brackets.roundAndSquare.isDelimiter c = false := by
  have hne : ∀ d, isIdentChar d = false → c ≠ d := by
    rintro d hd rfl
    rw [hc] at hd
    cases hd
  simp [Brackets.isDelimiter, Brackets.opens, Brackets.closes, hne '\\' (by decide),
    hne '"' (by decide), hne '\'' (by decide), hne '(' (by decide), hne '[' (by decide),
    hne ')' (by decide), hne ']' (by decide)]

/-- A character of a name is neither a mark nor a colon. -/
theorem plain_of_isNameChar {c : Char} (hc : isIdentChar c = true) :
    Brackets.roundAndSquare.isDelimiter c = false ∧ c ≠ ':' := by
  refine ⟨not_isDelimiter_of_isIdentChar hc, ?_⟩
  rintro rfl
  exact absurd hc (by decide)

/-- A blank is neither a mark nor a colon. -/
theorem plain_of_isBlank {c : Char} (hc : Text.isBlank c = true) :
    Brackets.roundAndSquare.isDelimiter c = false ∧ c ≠ ':' := by
  refine ⟨Nesting.not_isDelimiter_of_isBlank hc, ?_⟩
  rintro rfl
  exact absurd hc (by decide)

theorem Passes.blank (hq : ∀ d ∈ q, d = '"' ∨ d = '\'')
    (hp : ∀ c ∈ p, Text.isBlank c = true) : Passes q q p :=
  .all hq fun c hc => plain_of_isBlank (hp c hc)

/-! ### Escapes and names -/

/-- A text behind a backslash: nothing, a character that is no hexadecimal digit, or at most six
such digits. -/
theorem escape_cases (t : Text) :
    t = [] ∨ (∃ c u, t = c :: u ∧ isHexDigit c = false) ∨
      ∃ d ds v, t = d :: ds ++ v ∧ (∀ c ∈ d :: ds, isHexDigit c = true) ∧ (d :: ds).length ≤ 6 ∧
        ((d :: ds).length = 6 ∨ ∀ c ∈ v.head?, isHexDigit c = false) := by
  cases t with
  | nil => exact Or.inl rfl
  | cons c u =>
    cases hc : isHexDigit c with
    | false => exact Or.inr (Or.inl ⟨c, u, rfl, hc⟩)
    | true =>
      obtain ⟨ds, v, rfl, hds, hlength, hv⟩ := exists_digits 5 u
      refine Or.inr (Or.inr ⟨c, ds, v, rfl, ?_, Nat.succ_le_succ hlength,
        hv.imp (congrArg _) id⟩)
      intro d hd
      rcases List.mem_cons.mp hd with rfl | hd
      · exact hc
      · exact hds d hd

/-- What an escape takes is passed over, and is all that it depends on, but for the next
character. -/
theorem exists_append_of_takeEscape (t : Text) :
    ∃ p, t = p ++ (takeEscape t).2 ∧
      (t ≠ [] → ∀ q : Option Char, (∀ d ∈ q, d = '"' ∨ d = '\'') → Passes q q ('\\' :: p)) ∧
      ∀ z : Text, z.head? = (takeEscape t).2.head? →
        takeEscape (p ++ z) = ((takeEscape t).1, z) := by
  rcases escape_cases t with rfl | ⟨c, u, rfl, hc⟩ | ⟨d, ds, v, rfl, hds, hlength, hv⟩
  · refine ⟨[], rfl, fun h => absurd rfl h, fun z hz => ?_⟩
    obtain rfl : z = [] := List.head?_eq_none_iff.mp hz
    rfl
  · rw [takeEscape_cons hc]
    refine ⟨[c], rfl, fun _ q _ => Passes.escape c, fun z _ => ?_⟩
    rw [List.singleton_append, takeEscape_cons hc]
  · have hdigits : ∀ q : Option Char, (∀ d ∈ q, d = '"' ∨ d = '\'') → Passes q q ds :=
      fun q hq => Passes.all hq fun c hc =>
        plain_of_isNameChar (isIdentChar_of_isHexDigit (hds c (List.mem_cons_of_mem _ hc)))
    rw [takeEscape_digits hds hlength hv]
    cases v with
    | nil =>
      refine ⟨d :: ds, rfl, fun _ q hq => (Passes.escape d).append (hdigits q hq),
        fun z hz => ?_⟩
      obtain rfl : z = [] := List.head?_eq_none_iff.mp hz
      rw [takeEscape_digits hds hlength hv]
      rfl
    | cons b v =>
      cases hb : Text.isBlank b with
      | true =>
        rw [dropOneBlank, if_pos hb]
        refine ⟨d :: ds ++ [b], by simp, fun _ q hq => ?_, fun z _ => ?_⟩
        · exact (Passes.escape d).append ((hdigits q hq).append
            (Passes.blank hq fun c hc => by rw [List.mem_singleton.mp hc]; exact hb))
        · rw [List.append_assoc, List.singleton_append,
            takeEscape_digits (u := b :: z) hds hlength hv, dropOneBlank, if_pos hb]
      | false =>
        rw [dropOneBlank, if_neg (by rw [hb]; exact Bool.false_ne_true)]
        refine ⟨d :: ds, rfl, fun _ q hq => (Passes.escape d).append (hdigits q hq),
          fun z hz => ?_⟩
        have hz' : ∀ c ∈ z.head?, c = b := fun c hc => by
          rw [hz] at hc
          exact (Option.some_inj.mp hc).symm
        rw [takeEscape_digits hds hlength (hv.imp id fun h c hc => by
          rw [hz' c hc]; exact h b rfl), dropOneBlank_of_not_blank fun c hc => by
          rw [hz' c hc]; exact hb]

/-- What the reader takes is passed over within square brackets, and is all that it depends on, but
for the next character. -/
def Spans (read : Text → Except ε (α × Text)) : Prop :=
  ∀ (t : Text) (x : α) (rest : Text), read t = .ok (x, rest) →
    ∃ p, t = p ++ rest ∧ (rest ≠ [] → Passes none none p) ∧
      ∀ z : Text, z.head? = rest.head? → read (p ++ z) = .ok (x, z)

theorem Passes.ident {c : Char} (hc : isIdentChar c = true) : Passes none none [c] :=
  .plain (plain_of_isNameChar hc) fun _ hd => absurd hd (by simp)

theorem exists_append_of_takeIdent (t : Text) :
    ∃ p, t = p ++ (takeIdent t).2 ∧ ((takeIdent t).2 ≠ [] → Passes none none p) ∧
      ∀ z : Text, z.head? = (takeIdent t).2.head? → takeIdent (p ++ z) = ((takeIdent t).1, z) := by
  induction hn : t.length using Nat.strong_induction_on generalizing t with
  | _ n ih =>
    subst hn
    cases t with
    | nil =>
      rw [takeIdent]
      refine ⟨[], rfl, fun h => absurd rfl h, fun z hz => ?_⟩
      obtain rfl : z = [] := List.head?_eq_none_iff.mp hz
      rw [List.append_nil, takeIdent]
    | cons c r =>
      by_cases hc : c = '\\'
      · subst hc
        rw [takeIdent_backslash]
        have hlt : (takeEscape r).2.length < ('\\' :: r).length :=
          Nat.lt_succ_of_le (length_takeEscape_snd_le r)
        obtain ⟨p₁, hr, hpass₁, hread₁⟩ := exists_append_of_takeEscape r
        obtain ⟨p₂, hu, hpass₂, hread₂⟩ := ih _ hlt _ rfl
        refine ⟨'\\' :: p₁ ++ p₂, ?_, fun hne => ?_, fun z hz => ?_⟩
        · rw [Text.onto_snd, List.append_assoc, ← hu, List.cons_append, ← hr]
        · rw [Text.onto_snd] at hne
          have hr' : r ≠ [] := by
            rintro rfl
            exact hne (by rw [show (takeEscape []).2 = [] from rfl, takeIdent])
          exact (hpass₁ hr' none fun _ hd => absurd hd (by simp)).append (hpass₂ hne)
        · have hhead : (p₂ ++ z).head? = (takeEscape r).2.head? := by
            conv_rhs => rw [hu]
            rw [List.head?_append, List.head?_append, hz, Text.onto_snd]
          rw [List.cons_append, List.cons_append, List.append_assoc, takeIdent_backslash,
            hread₁ _ hhead, hread₂ z hz]
          rfl
      · rw [takeIdent_cons hc]
        split
        · rename_i hident
          obtain ⟨p, hr, hpass, hread⟩ := ih r.length (Nat.lt_succ_self _) r rfl
          refine ⟨c :: p, ?_, fun hne => ?_, fun z hz => ?_⟩
          · rw [Text.onto_snd, List.cons_append, ← hr]
          · exact (Passes.ident hident).append (hpass hne)
          · rw [List.cons_append, takeIdent_cons hc, if_pos hident, hread z hz]
            rfl
        · rename_i hident
          refine ⟨[], rfl, fun _ => .nil, fun z hz => ?_⟩
          cases z with
          | nil => exact absurd hz (by simp)
          | cons d z =>
            obtain rfl := Option.some_inj.mp hz
            rw [List.nil_append, takeIdent_cons hc, if_neg hident]

theorem spans_readIdent (kind : NameKind) : Spans (readIdent kind) := by
  intro t x rest h
  obtain ⟨htake, hne⟩ := readIdent_eq_ok.mp h
  obtain ⟨p, hp, hpass, hread⟩ := exists_append_of_takeIdent t
  rw [htake] at hp hpass hread
  exact ⟨p, hp, hpass, fun z hz => readIdent_eq_ok.mpr ⟨hread z hz, hne⟩⟩

/-! ### Readers that are put together -/

theorem head?_append_eq {p u z : Text} (h : z.head? = u.head?) :
    (p ++ z).head? = (p ++ u).head? := by
  rw [List.head?_append, List.head?_append, h]

/-- Blanks are passed over up to the next character that is none. -/
theorem trimStart_blank_append {b u t : Text} (hb : ∀ c ∈ b, Text.isBlank c = true)
    (hu : u.head? = (Text.trimStart t).head?) : Text.trimStart (b ++ u) = u := by
  rw [Text.trimStart_append_of_blank (Text.trimStart_eq_nil_iff.mpr hb)]
  refine Text.trimStart_eq_self fun c hc => ?_
  rw [hu] at hc
  obtain ⟨r, hr⟩ := List.head?_eq_some_iff.mp (Option.mem_def.mp hc)
  exact Text.not_blank_of_trimStart hr

theorem Spans.trimStart {read : Text → Except ε (α × Text)} (h : Spans read) :
    Spans fun t => read (Text.trimStart t) := by
  intro t x rest hok
  obtain ⟨p, hp, hpass, hread⟩ := h _ _ _ hok
  obtain ⟨b, hb, heq⟩ := Text.exists_trimStart_append t
  refine ⟨b ++ p, ?_, fun hne => ?_, fun z hz => ?_⟩
  · rw [List.append_assoc, ← hp, ← heq]
  · exact (Passes.blank (fun _ hd => absurd hd (by simp)) hb).append (hpass hne)
  · have hstart : Text.trimStart (b ++ (p ++ z)) = p ++ z :=
      trimStart_blank_append hb (by rw [hp]; exact head?_append_eq hz)
    simp only [List.append_assoc, hstart, hread z hz]

theorem Spans.bind {first : Text → Except ε (α × Text)}
    {next : α → Text → Except ε (β × Text)} (hfirst : Spans first) (hnext : ∀ x, Spans (next x)) :
    Spans fun t => first t >>= fun taken => next taken.1 taken.2 := by
  intro t y rest hok
  obtain ⟨⟨x, mid⟩, hx, hy⟩ := Outcome.bind_eq_ok.mp hok
  obtain ⟨p, rfl, hpass, hread⟩ := hfirst _ _ _ hx
  obtain ⟨p', rfl, hpass', hread'⟩ := hnext x _ _ _ hy
  refine ⟨p ++ p', (List.append_assoc ..).symm, fun hne => ?_, fun z hz => ?_⟩
  · exact (hpass (List.append_ne_nil_of_right_ne_nil _ hne)).append (hpass' hne)
  · rw [List.append_assoc]
    exact Outcome.bind_eq_ok.mpr ⟨_, hread _ (head?_append_eq hz), hread' z hz⟩

/-! ### Attribute selectors -/

theorem spans_ok (f : α → β) (x : α) : Spans fun t => (.ok (f x, t) : Except ε (β × Text)) := by
  intro t y rest h
  obtain ⟨rfl, rfl⟩ := Prod.mk.inj (Except.ok.inj h)
  exact ⟨[], rfl, fun _ => .nil, fun z _ => rfl⟩

theorem takeString?_spans {quote : Char} (hquote : quote = '"' ∨ quote = '\'') {t x rest : Text}
    (h : takeString? quote t = some (x, rest)) :
    ∃ p, t = p ++ rest ∧ Passes (some quote) none p ∧
      ∀ z : Text, takeString? quote (p ++ z) = some (x, z) := by
  have hslash : '\\' ≠ quote := by rcases hquote with rfl | rfl <;> decide
  have hopen : ∀ d ∈ some quote, d = '"' ∨ d = '\'' := fun d hd => by
    rw [← Option.some_inj.mp hd]
    exact hquote
  induction hn : t.length using Nat.strong_induction_on generalizing t x with
  | _ n ih =>
    subst hn
    cases t with
    | nil => exact absurd h (by rw [takeString?]; simp)
    | cons c r =>
      by_cases hclose : c = quote
      · subst hclose
        rw [takeString?, if_pos rfl] at h
        obtain ⟨rfl, rfl⟩ := Prod.mk.inj (Option.some_inj.mp h)
        refine ⟨[c], rfl, .singleton (fun z => ?_) ?_ ?_ fun hq => absurd hq (by simp),
          fun z => ?_⟩
        · rw [insideSquare_cons (Ne.symm hslash)]
          simp only [if_true]
        · simp [Nesting.step, Ne.symm hslash]
        · simp [Nesting.step, Ne.symm hslash]
        · rw [List.singleton_append, takeString?, if_pos rfl]
      by_cases hc : c = '\\'
      · subst hc
        rw [takeString?_backslash hslash] at h
        obtain ⟨⟨x', rest'⟩, htail, heq⟩ := Option.map_eq_some_iff.mp h
        obtain ⟨rfl, rfl⟩ := Prod.mk.inj heq
        have hlt : (takeEscape r).2.length < ('\\' :: r).length :=
          Nat.lt_succ_of_le (length_takeEscape_snd_le r)
        obtain ⟨p₁, hr, hpass₁, hread₁⟩ := exists_append_of_takeEscape r
        obtain ⟨p₂, hu, hpass₂, hread₂⟩ := ih _ hlt htail rfl
        have hr' : r ≠ [] := by
          rintro rfl
          rw [show (takeEscape []).2 = [] from rfl, takeString?] at htail
          exact absurd htail (by simp)
        have hp₂ : p₂ ≠ [] := by
          rintro rfl
          have hlength := length_takeString?_snd_lt (hread₂ [])
          exact absurd hlength (by simp)
        refine ⟨'\\' :: p₁ ++ p₂, ?_, (hpass₁ hr' _ hopen).append hpass₂, fun z => ?_⟩
        · rw [List.append_assoc, ← hu, List.cons_append, ← hr]
        · have hhead : (p₂ ++ z).head? = (takeEscape r).2.head? := by
            conv_rhs => rw [hu]
            rw [List.head?_append_of_ne_nil _ hp₂, List.head?_append_of_ne_nil _ hp₂]
          rw [List.cons_append, List.cons_append, List.append_assoc, takeString?_backslash hslash,
            hread₁ _ hhead, hread₂ z]
          rfl
      · rw [takeString?_cons hclose hc] at h
        obtain ⟨⟨x', rest'⟩, htail, heq⟩ := Option.map_eq_some_iff.mp h
        obtain ⟨rfl, rfl⟩ := Prod.mk.inj heq
        obtain ⟨p, hr, hpass, hread⟩ := ih r.length (Nat.lt_succ_self _) htail rfl
        have hkept : Passes (some quote) (some quote) [c] := by
          refine .singleton (fun z => ?_) (by simp [Nesting.step, hc, hclose])
            (by simp [Nesting.step, hc, hclose]) fun hq => absurd hq (by simp)
          rw [insideSquare_cons hc]
          simp only [if_neg hclose]
        refine ⟨c :: p, by rw [List.cons_append, ← hr], hkept.append hpass, fun z => ?_⟩
        rw [List.cons_append, takeString?_cons hclose hc, hread z]
        rfl

/-- Reads a comparison, which has to be there. -/
def readSign (t : Text) : Except Error (Comparison × Text) :=
  readComparison t >>= fun taken =>
    match taken.1 with
    | some k => .ok (k, taken.2)
    | none => .error .empty

theorem readSign_eq_ok_iff {t rest : Text} {k : Comparison} :
    readSign t = .ok (k, rest) ↔ readComparison t = .ok (some k, rest) := by
  unfold readSign
  rcases readComparison t with e | ⟨_ | k', rest'⟩ <;> simp [bind, Except.bind]

theorem spans_readSign : Spans readSign := by
  intro t k rest h
  rw [readSign_eq_ok_iff] at h
  simp only [readSign_eq_ok_iff]
  have hpass : ∀ c, Brackets.roundAndSquare.isDelimiter c = false ∧ c ≠ ':' →
      Passes none none [c] := fun c hc => .plain hc fun _ hd => absurd hd (by simp)
  cases t with
  | nil => exact absurd h (by simp [readComparison])
  | cons c r =>
    rw [readComparison] at h
    by_cases hclose : c = ']'
    · rw [if_pos hclose] at h
      exact absurd (Prod.mk.inj (Except.ok.inj h)).1 (by simp)
    rw [if_neg hclose] at h
    by_cases hequals : c = '='
    · rw [if_pos hequals] at h
      obtain ⟨heq, rfl⟩ := Prod.mk.inj (Except.ok.inj h)
      refine ⟨[c], rfl, fun _ => hpass c (hequals ▸ by decide), fun z _ => ?_⟩
      rw [List.singleton_append, readComparison, if_neg hclose, if_pos hequals, heq]
    · rw [if_neg hequals] at h
      cases hkind : Comparison.ofChar? c with
      | none => rw [hkind] at h; exact absurd h (by simp)
      | some k' =>
        simp only [hkind] at h
        cases r with
        | nil => exact absurd h (by simp)
        | cons d r =>
          rw [List.head?_cons, List.tail_cons] at h
          split at h
          · rename_i hd
            obtain ⟨heq, rfl⟩ := Prod.mk.inj (Except.ok.inj h)
            have hnone : ∀ e, Comparison.ofChar? e = none → c ≠ e := by
              rintro e he rfl
              rw [he] at hkind
              exact absurd hkind (by simp)
            have hc : Brackets.roundAndSquare.isDelimiter c = false ∧ c ≠ ':' := by
              refine ⟨?_, hnone ':' (by decide)⟩
              simp [Brackets.isDelimiter, Brackets.opens, Brackets.closes, hnone '\\' (by decide),
                hnone '"' (by decide), hnone '\'' (by decide), hnone '(' (by decide),
                hnone '[' (by decide), hnone ')' (by decide), hclose]
            have hd' : d = '=' := Option.some_inj.mp hd
            refine ⟨[c, d], rfl, fun _ => (hpass c hc).append (hpass d (hd' ▸ by decide)),
              fun z _ => ?_⟩
            rw [List.cons_append, List.singleton_append, readComparison, if_neg hclose,
              if_neg hequals, hkind]
            simp only [List.head?_cons, List.tail_cons, if_pos hd, heq]
          · exact absurd h (by simp)

theorem startsIdent_congr {c : Char} {r z : Text} (h : z.head? = r.head?) :
    startsIdent (c :: z) = startsIdent (c :: r) := by
  cases z with
  | nil => rw [List.head?_eq_none_iff.mp (h.symm.trans rfl)]
  | cons d z =>
    obtain ⟨r, rfl⟩ := List.head?_eq_some_iff.mp (h.symm.trans rfl)
    rfl

theorem spans_readValue : Spans readValue := by
  intro t x rest h
  cases t with
  | nil => exact absurd h (by simp [readValue])
  | cons c r =>
    rw [readValue] at h
    by_cases hquote : c = '"' ∨ c = '\''
    · rw [if_pos hquote] at h
      cases hstring : takeString? c r with
      | none => rw [hstring] at h; exact absurd h (by simp)
      | some taken =>
        rw [hstring] at h
        obtain rfl := Except.ok.inj h
        obtain ⟨p, rfl, hpass, hread⟩ := takeString?_spans hquote hstring
        have hc : c ≠ '\\' := by rcases hquote with rfl | rfl <;> decide
        have hopen : Passes none (some c) [c] := by
          refine .singleton (fun z => ?_) (by simp [Nesting.step, hc, hquote])
            (by simp [Nesting.step, hc, hquote]) fun _ => ?_
          · rw [insideSquare_cons hc]
            simp only [if_pos hquote]
          · rcases hquote with rfl | rfl <;> decide
        refine ⟨c :: p, rfl, fun _ => hopen.append hpass, fun z _ => ?_⟩
        rw [List.cons_append, readValue, if_pos hquote, hread z]
    · rw [if_neg hquote] at h
      split at h
      · rename_i hstart
        obtain ⟨p, hp, hpass, hread⟩ := spans_readIdent _ _ _ _ h
        refine ⟨p, hp, hpass, fun z hz => ?_⟩
        have hp' : p ≠ [] := by
          rintro rfl
          have hlength := length_lt_of_readIdent h
          rw [hp, List.nil_append] at hlength
          exact absurd hlength (Nat.lt_irrefl _)
        obtain ⟨d, p, rfl⟩ := List.exists_cons_of_ne_nil hp'
        rw [List.cons_append, List.cons.injEq] at hp
        obtain ⟨rfl, rfl⟩ := hp
        rw [List.cons_append, readValue, if_neg hquote,
          startsIdent_congr (head?_append_eq hz), if_pos hstart, ← List.cons_append, hread z hz]
      · exact absurd h (by simp)

/-- The letter for letter case and the bracket. -/
theorem readFlag_spans {t rest : Text} {x : Bool} (h : readFlag t = .ok (x, rest)) :
    ∃ p, t = p ++ ']' :: rest ∧ Passes none none p ∧
      ∀ z : Text, readFlag (p ++ ']' :: z) = .ok (x, z) := by
  have hclosing : ∀ {t' : Text}, readClosingBracket t' = .ok rest → t' = ']' :: rest := by
    intro t' hread
    cases t' with
    | nil => exact absurd hread (by simp [readClosingBracket])
    | cons c r =>
      rw [readClosingBracket] at hread
      split at hread
      · rename_i hc
        rw [hc, Except.ok.inj hread]
      · exact absurd hread (by simp)
  obtain ⟨rest', hclose, heq⟩ := Outcome.map_eq_ok.mp h
  obtain ⟨rfl, rfl⟩ := Prod.mk.inj heq
  have hrest := hclosing hclose
  cases t with
  | nil => exact absurd hrest (by simp [readCaseFlag])
  | cons c r =>
    by_cases hflag : c = 'i' ∨ c = 'I' ∨ c = 's' ∨ c = 'S'
    · have hcase : ∀ u : Text, readCaseFlag (c :: u) =
          ((readCaseFlag (c :: r)).1, Text.trimStart u) := by
        intro u
        rcases hflag with rfl | rfl | rfl | rfl <;> simp [readCaseFlag]
      rw [hcase r] at hrest
      obtain ⟨b, hb, hr⟩ := Text.exists_trimStart_append r
      have hletter : isIdentChar c = true := by
        rcases hflag with rfl | rfl | rfl | rfl <;> decide
      refine ⟨c :: b, ?_, (Passes.ident hletter).append
        (Passes.blank (fun _ hd => absurd hd (by simp)) hb), fun z => ?_⟩
      · rw [List.cons_append, ← hrest, ← hr]
      · have hstart : Text.trimStart (b ++ ']' :: z) = ']' :: z := by
          rw [Text.trimStart_append_of_blank (Text.trimStart_eq_nil_iff.mpr hb),
            Text.trimStart_cons_of_not_blank (by decide)]
        rw [readFlag, List.cons_append, hcase, hstart]
        rfl
    · have hcase : ∀ u : Text, readCaseFlag (c :: u) = (false, c :: u) := by
        intro u
        simp only [not_or] at hflag
        simp [readCaseFlag, hflag.1, hflag.2.1, hflag.2.2.1, hflag.2.2.2]
      rw [hcase r] at hrest
      obtain ⟨rfl, rfl⟩ := List.cons.inj hrest
      refine ⟨[], rfl, .nil, fun z => ?_⟩
      rw [readFlag, List.nil_append, hcase, hcase]
      rfl

/-- Reads what an attribute selector compares: the name, the comparison and the value. -/
def readTest (t : Text) : Except Error ((Text × Comparison × Text) × Text) :=
  readIdent .attributeName (Text.trimStart t) >>= fun name =>
    readSign (Text.trimStart name.2) >>= fun sign =>
      readValue (Text.trimStart sign.2) >>= fun value =>
        .ok ((name.1, sign.1, value.1), value.2)

theorem spans_readTest : Spans readTest :=
  (spans_readIdent _).trimStart.bind fun name =>
    spans_readSign.trimStart.bind fun sign =>
      spans_readValue.trimStart.bind fun value => spans_ok (fun v => (name, sign, v)) value

/-- An attribute selector: a name alone, or a comparison. -/
theorem readAttribute_eq_ok_iff {t rest : Text} {x : AttributeTest} :
    readAttribute t = .ok (x, rest) ↔
      (∃ name mid, readIdent .attributeName (Text.trimStart t) = .ok (name, mid) ∧
        Text.trimStart mid = ']' :: rest ∧ x = ⟨Text.lower name, none, false⟩) ∨
      ∃ name k value mid flag, readTest t = .ok ((name, k, value), mid) ∧
        readFlag (Text.trimStart mid) = .ok (flag, rest) ∧
        x = ⟨Text.lower name, some (k, value), flag⟩ := by
  have hnone : ∀ {mid mid' : Text}, readComparison mid = .ok (none, mid') ↔ mid = ']' :: mid' := by
    intro mid mid'
    constructor
    · intro h
      cases mid with
      | nil => exact absurd h (by simp [readComparison])
      | cons c r =>
        rw [readComparison] at h
        by_cases hclose : c = ']'
        · rw [if_pos hclose] at h
          rw [hclose, (Prod.mk.inj (Except.ok.inj h)).2]
        · rw [if_neg hclose] at h
          split at h
          · exact absurd (Prod.mk.inj (Except.ok.inj h)).1 (by simp)
          · split at h
            · exact absurd h (by simp)
            · split at h
              · exact absurd (Prod.mk.inj (Except.ok.inj h)).1 (by simp)
              · exact absurd h (by simp)
    · rintro rfl
      rfl
  rw [readAttribute_eq]
  constructor
  · intro h
    obtain ⟨⟨name, mid⟩, hname, h⟩ := Outcome.bind_eq_ok.mp h
    obtain ⟨⟨k, mid'⟩, hcomparison, h⟩ := Outcome.bind_eq_ok.mp h
    cases k with
    | none =>
      obtain ⟨rfl, rfl⟩ := Prod.mk.inj (Except.ok.inj h)
      exact Or.inl ⟨name, mid, hname, hnone.mp hcomparison, rfl⟩
    | some k =>
      obtain ⟨⟨value, mid''⟩, hvalue, h⟩ := Outcome.bind_eq_ok.mp h
      obtain ⟨⟨flag, rest'⟩, hflag, h⟩ := Outcome.bind_eq_ok.mp h
      obtain ⟨rfl, rfl⟩ := Prod.mk.inj (Except.ok.inj h)
      refine Or.inr ⟨name, k, value, mid'', flag, ?_, hflag, rfl⟩
      exact Outcome.bind_eq_ok.mpr ⟨_, hname, Outcome.bind_eq_ok.mpr
        ⟨_, readSign_eq_ok_iff.mpr hcomparison, Outcome.bind_eq_ok.mpr ⟨_, hvalue, rfl⟩⟩⟩
  · rintro (⟨name, mid, hname, hmid, rfl⟩ | ⟨name, k, value, mid, flag, htest, hflag, rfl⟩)
    · exact Outcome.bind_eq_ok.mpr ⟨_, hname, Outcome.bind_eq_ok.mpr ⟨_, hnone.mpr hmid, rfl⟩⟩
    · obtain ⟨⟨name', mid₁⟩, hname, h⟩ := Outcome.bind_eq_ok.mp htest
      obtain ⟨⟨k', mid₂⟩, hsign, h⟩ := Outcome.bind_eq_ok.mp h
      obtain ⟨⟨value', mid₃⟩, hvalue, h⟩ := Outcome.bind_eq_ok.mp h
      simp only [Except.ok.injEq, Prod.mk.injEq] at h
      obtain ⟨⟨rfl, rfl, rfl⟩, rfl⟩ := h
      exact Outcome.bind_eq_ok.mpr ⟨_, hname, Outcome.bind_eq_ok.mpr
        ⟨_, readSign_eq_ok_iff.mp hsign, Outcome.bind_eq_ok.mpr
          ⟨_, hvalue, Outcome.bind_eq_ok.mpr ⟨_, hflag, rfl⟩⟩⟩⟩

/-- Up to the bracket that ends it, an attribute selector is passed over, and nothing behind the
bracket matters. -/
theorem exists_passes_of_readAttribute {t rest : Text} {x : AttributeTest}
    (h : readAttribute t = .ok (x, rest)) :
    ∃ content, t = content ++ ']' :: rest ∧ Passes none none content ∧
      ∀ z : Text, readAttribute (content ++ ']' :: z) = .ok (x, z) := by
  have hblank : ∀ {b : Text}, (∀ c ∈ b, Text.isBlank c = true) → Passes none none b :=
    Passes.blank fun _ hd => absurd hd (by simp)
  rcases readAttribute_eq_ok_iff.mp h with
    ⟨name, mid, hname, hmid, rfl⟩ | ⟨name, k, value, mid, flag, htest, hflag, rfl⟩
  · obtain ⟨p, rfl, hpass, hread⟩ := (spans_readIdent .attributeName).trimStart _ _ _ hname
    obtain ⟨b, hb, hstart⟩ := Text.exists_trimStart_append mid
    rw [hmid] at hstart
    subst hstart
    refine ⟨p ++ b, by simp, (hpass (by simp)).append (hblank hb), fun z => ?_⟩
    rw [List.append_assoc]
    exact readAttribute_eq_ok_iff.mpr (Or.inl ⟨name, _, hread _ (head?_append_eq rfl),
      trimStart_blank_append (t := b ++ ']' :: rest) hb (by rw [hmid]; rfl), rfl⟩)
  · obtain ⟨p, rfl, hpass, hread⟩ := spans_readTest _ _ _ htest
    obtain ⟨b, hb, hstart⟩ := Text.exists_trimStart_append mid
    obtain ⟨p', hp', hpass', hread'⟩ := readFlag_spans hflag
    rw [hp'] at hstart
    have hmid : Text.trimStart mid = p' ++ ']' :: rest := hp'
    subst hstart
    refine ⟨p ++ (b ++ p'), by simp, (hpass (by simp)).append ((hblank hb).append hpass'),
      fun z => ?_⟩
    rw [List.append_assoc, List.append_assoc]
    refine readAttribute_eq_ok_iff.mpr (Or.inr ⟨name, k, value, _, flag,
      hread _ (head?_append_eq (head?_append_eq rfl)), ?_, rfl⟩)
    rw [trimStart_blank_append (t := b ++ (p' ++ ']' :: rest)) hb
      (by rw [hmid]; exact head?_append_eq rfl)]
    exact hread' z

/-- The bracket that ends an attribute selector closes the group, and nothing behind it matters. -/
theorem exists_group_of_readAttribute {t rest : Text} {x : AttributeTest}
    (h : readAttribute t = .ok (x, rest)) :
    ∃ content, t = content ++ ']' :: rest ∧
      ∀ z : Text, groupContent .square ⟨0, none, '['⟩ (content ++ ']' :: z) = (content, ']' :: z) ∧
        readAttribute (content ++ ']' :: z) = .ok (x, z) := by
  obtain ⟨content, ht, hpass, hread⟩ := exists_passes_of_readAttribute h
  refine ⟨content, ht, fun z => ⟨?_, hread z⟩⟩
  have hend : insideSquare none (']' :: z) = ([], ']' :: z) := by
    rw [insideSquare_cons (by decide)]
    rfl
  have hall := hpass.group (']' :: z)
  rw [hend, List.append_nil] at hall
  exact hall

end Css
end CosmeticFilter
