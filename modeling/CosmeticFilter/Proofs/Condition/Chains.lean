import CosmeticFilter.Condition.Assignment
import Mathlib.Data.List.Basic

/-!
# How names and values are cut apart

A chain of names is written with full stops between them, and a value follows behind an equals sign.
A name may be a regular expression between slashes or stand in quotes, so that full stops and equals
signs in it do not count. The equals sign is found with an eye on both. The full stops are not:
quotes mean nothing to the reader of a chain, and a name in quotes falls apart at every full stop in
it.

* `IsSegment`, `IsDottedQuote`: how a name is written, and the names that fall apart;
* `Crosses`: a reader comes over a text without a sign in it that counts;
* `splitFrom_append`, `chainFrom_append`: what it has come over stays in one piece;
* `crosses_segment`, `crosses_undotted`: the two readers over one name;
* `split_join_chain`: a chain that is put together, with its value, and what it is cut into;
* `not_chain_join`: a full stop in quotes.
-/

namespace CosmeticFilter
namespace Assignment

/-! ### How names are written -/

/-- The character has no meaning in a name. -/
def IsNameChar (c : Char) : Prop :=
  c ≠ '.' ∧ c ≠ '/' ∧ c ≠ '=' ∧ c ≠ '"' ∧ c ≠ '\'' ∧ c ≠ '\\'

/-- The text between the slashes of a regular expression: each slash in it stands behind a
backslash. -/
inductive IsRegexBody : Text → Prop where
  /-- Nothing. -/
  | nil : IsRegexBody []
  /-- A character that means nothing. -/
  | char {c : Char} {r : Text} (hslash : c ≠ '/') (hescape : c ≠ '\\') (h : IsRegexBody r) :
    IsRegexBody (c :: r)
  /-- A backslash and the character behind it. -/
  | escape {r : Text} (c : Char) (h : IsRegexBody r) : IsRegexBody ('\\' :: c :: r)

/-- The character is a quote. -/
def IsQuote (q : Char) : Prop := q = '"' ∨ q = '\''

/-- A name as it is written in a chain. -/
inductive IsSegment : Text → Prop where
  /-- A bare name. -/
  | bare {name : Text} (hne : name ≠ []) (h : ∀ c ∈ name, IsNameChar c) : IsSegment name
  /-- A regular expression, with letters behind it. -/
  | regex {body flags : Text} (hbody : IsRegexBody body) (hflags : ∀ c ∈ flags, c.isAlpha = true) :
    IsSegment ('/' :: (body ++ '/' :: flags))
  /-- A name in quotes. -/
  | quoted {q : Char} {body : Text} (hq : IsQuote q) (h : ∀ c ∈ body, c ≠ q ∧ c ≠ '\\') :
    IsSegment (q :: (body ++ [q]))

/-- A name in quotes with a full stop in it. -/
def IsDottedQuote (t : Text) : Prop :=
  ∃ q body, IsQuote q ∧ t = q :: (body ++ [q]) ∧ '.' ∈ body

theorem IsQuote.ne_dot {q : Char} (hq : IsQuote q) : q ≠ '.' := by
  rcases hq with rfl | rfl <;> decide

theorem isNameChar_of_isAlpha {c : Char} (h : c.isAlpha = true) : IsNameChar c := by
  refine ⟨?_, ?_, ?_, ?_, ?_, ?_⟩ <;> (rintro rfl; exact absurd h (by decide))

/-! ### What a reader comes over -/

/-- From the first state to the second, the reader comes over the text without meeting the sign
where it counts. -/
inductive Crosses (quotes : Bool) (sign : Char) : Scan → Text → Scan → Prop where
  /-- Nothing to come over. -/
  | nil (s : Scan) : Crosses quotes sign s [] s
  /-- A character that is not the sign, or does not count. -/
  | cons {s s' : Scan} {c : Char} {t : Text} (hc : s.isOutside = true → c ≠ sign)
      (h : Crosses quotes sign (s.step quotes c) t s') : Crosses quotes sign s (c :: t) s'

variable {quotes : Bool} {sign c q x : Char} {s s' s'' : Scan} {p : Option Char} {t u w : Text}
  {ws : List Text}

theorem Crosses.append (h : Crosses quotes sign s t s') (h' : Crosses quotes sign s' u s'') :
    Crosses quotes sign s (t ++ u) s'' := by
  induction h with
  | nil => exact h'
  | cons hc _ ih => exact .cons hc (ih h')

theorem Crosses.snoc (h : Crosses quotes sign s t s') (hc : s'.isOutside = true → c ≠ sign) :
    Crosses quotes sign s (t ++ [c]) (s'.step quotes c) :=
  h.append (.cons hc (.nil _))

/-- What the reader comes over belongs to the name. -/
theorem splitFrom_append (h : Crosses true '=' s t s') (u : Text) :
    splitFrom s (t ++ u) = (t ++ (splitFrom s' u).1, (splitFrom s' u).2) := by
  induction h with
  | nil => rfl
  | cons hc _ ih =>
    rw [List.cons_append, splitFrom, if_neg (by simpa using hc), ih]
    rfl

/-- What the reader comes over belongs to one name. -/
theorem chainFrom_append (h : Crosses false '.' s t s') (hu : chainFrom s' u = w :: ws) :
    chainFrom s (t ++ u) = (t ++ w) :: ws := by
  induction h with
  | nil => exact hu
  | cons hc _ ih =>
    rw [List.cons_append, chainFrom, if_neg (by simpa using hc), ih hu]
    rfl

/-! ### Single characters -/

/-- Outside regular expressions and quotes. -/
def outside (p : Option Char) : Scan := ⟨none, false, false, p⟩

/-- In a regular expression. -/
def inside (p : Option Char) : Scan := ⟨none, true, false, p⟩

/-- In quotes. -/
def inQuotes (q : Char) (p : Option Char) : Scan := ⟨some q, false, false, p⟩

/-- Where a name starts: at the beginning, or right behind a full stop. -/
def IsStart (p : Option Char) : Prop := p = none ∨ p = some '.'

theorem step_slash (hp : IsStart p) : (outside p).step quotes '/' = inside (some '/') := by
  rcases hp with rfl | rfl <;> rfl

theorem step_inside (hslash : c ≠ '/') (hescape : c ≠ '\\') :
    (inside p).step quotes c = inside (some c) := by
  simp [Scan.step, inside, hslash, hescape]

theorem step_quote (hq : IsQuote q) : (outside p).step true q = inQuotes q (some q) := by
  rcases hq with rfl | rfl <;> simp [Scan.step, outside, inQuotes]

theorem step_inQuotes (hq : c ≠ q) (hescape : c ≠ '\\') :
    (inQuotes q p).step quotes c = inQuotes q (some c) := by
  simp [Scan.step, inQuotes, hq, hescape]

theorem step_closingQuote (hq : IsQuote q) : (inQuotes q p).step quotes q = outside (some q) := by
  rcases hq with rfl | rfl <;> simp [Scan.step, outside, inQuotes]

theorem step_nameChar (hc : IsNameChar c) : (outside p).step quotes c = outside (some c) := by
  obtain ⟨-, hslash, -, hdouble, hsingle, hescape⟩ := hc
  simp [Scan.step, outside, hslash, hescape, hdouble, hsingle]

/-- Where quotes mean nothing, only a slash behind a full stop does. -/
theorem step_unquoted (hx : x ≠ '.') (hescape : c ≠ '\\') :
    (outside (some x)).step false c = outside (some c) := by
  simp [Scan.step, Scan.beginsRegex, outside, hx, hescape]

theorem step_start (hq : IsQuote q) : (outside p).step false q = outside (some q) := by
  rcases hq with rfl | rfl <;> simp [Scan.step, outside]

theorem step_dot : (outside p).step quotes '.' = outside (some '.') := by
  simp [Scan.step, outside]

/-! ### Names -/

theorem crosses_name (hsign : sign = '.' ∨ sign = '=') (h : ∀ c ∈ t, IsNameChar c)
    (quotes : Bool) (p : Option Char) : ∃ p', Crosses quotes sign (outside p) t (outside p') := by
  induction t generalizing p with
  | nil => exact ⟨p, .nil _⟩
  | cons c t ih =>
    obtain ⟨hc, h⟩ := List.forall_mem_cons.mp h
    obtain ⟨p', hcross⟩ := ih h (some c)
    refine ⟨p', .cons (fun _ heq => ?_) (step_nameChar hc ▸ hcross)⟩
    rcases hsign with rfl | rfl
    · exact hc.1 heq
    · exact hc.2.2.1 heq

theorem crosses_regexBody (h : IsRegexBody t) (quotes : Bool) (sign : Char) (p : Option Char) :
    ∃ p', Crosses quotes sign (inside p) t (inside p') := by
  induction h generalizing p with
  | nil => exact ⟨p, .nil _⟩
  | @char c r hslash hescape _ ih =>
    obtain ⟨p', hcross⟩ := ih (some c)
    exact ⟨p', .cons (fun hout => absurd hout (by simp [Scan.isOutside, inside]))
      (step_inside hslash hescape ▸ hcross)⟩
  | @escape r c _ ih =>
    obtain ⟨p', hcross⟩ := ih (some c)
    exact ⟨p', .cons (fun hout => absurd hout (by simp [Scan.isOutside, inside]))
      (.cons (fun hout => absurd hout (by simp [Scan.isOutside, Scan.step, inside])) hcross)⟩

theorem crosses_quotedBody (h : ∀ c ∈ t, c ≠ q ∧ c ≠ '\\') (quotes : Bool) (sign : Char)
    (p : Option Char) : ∃ p', Crosses quotes sign (inQuotes q p) t (inQuotes q p') := by
  induction t generalizing p with
  | nil => exact ⟨p, .nil _⟩
  | cons c t ih =>
    obtain ⟨hc, h⟩ := List.forall_mem_cons.mp h
    obtain ⟨p', hcross⟩ := ih h (some c)
    exact ⟨p', .cons (fun hout => absurd hout (by simp [Scan.isOutside, inQuotes]))
      (step_inQuotes hc.1 hc.2 ▸ hcross)⟩

theorem crosses_regex (hsign : sign = '.' ∨ sign = '=') (hp : IsStart p) {body flags : Text}
    (hbody : IsRegexBody body) (hflags : ∀ c ∈ flags, c.isAlpha = true) :
    ∃ p', Crosses quotes sign (outside p) ('/' :: (body ++ '/' :: flags)) (outside p') := by
  have hslash : '/' ≠ sign := by rcases hsign with rfl | rfl <;> decide
  have hletters : ∀ c ∈ flags, IsNameChar c := fun c hc => isNameChar_of_isAlpha (hflags c hc)
  obtain ⟨p₁, hbody⟩ := crosses_regexBody hbody quotes sign (some '/')
  obtain ⟨p₂, hflags⟩ := crosses_name hsign hletters quotes (some '/')
  exact ⟨p₂, .cons (fun _ => hslash)
    (step_slash hp ▸ hbody.append (.cons (fun _ => hslash) hflags))⟩

/-- The reader that looks for an equals sign comes over any name. -/
theorem crosses_segment (hp : IsStart p) (h : IsSegment t) :
    ∃ p', Crosses true '=' (outside p) t (outside p') := by
  cases h with
  | bare _ h => exact crosses_name (.inr rfl) h _ p
  | regex hbody hflags => exact crosses_regex (.inr rfl) hp hbody hflags
  | @quoted q body hq h =>
    have hsign : q ≠ '=' := by rcases hq with rfl | rfl <;> decide
    obtain ⟨p₁, hbody⟩ := crosses_quotedBody h true '=' (some q)
    have hclosed := hbody.snoc (c := q) fun _ => hsign
    rw [step_closingQuote hq] at hclosed
    exact ⟨_, .cons (fun _ => hsign) (step_quote hq ▸ hclosed)⟩

/-- A run without full stops, behind something else than a full stop. -/
theorem crosses_unquoted (hx : x ≠ '.') (h : ∀ c ∈ t, c ≠ '.' ∧ c ≠ '\\') :
    ∃ x', Crosses false '.' (outside (some x)) t (outside (some x')) := by
  induction t generalizing x with
  | nil => exact ⟨x, .nil _⟩
  | cons c t ih =>
    obtain ⟨hc, h⟩ := List.forall_mem_cons.mp h
    obtain ⟨x', hcross⟩ := ih hc.1 h
    exact ⟨x', .cons (fun _ => hc.1) (step_unquoted hx hc.2 ▸ hcross)⟩

/-- The reader that looks for full stops comes over any name but a dotted one in quotes. -/
theorem crosses_undotted (hp : IsStart p) (h : IsSegment t) (hdot : ¬ IsDottedQuote t) :
    ∃ p', Crosses false '.' (outside p) t (outside p') := by
  cases h with
  | bare _ h => exact crosses_name (.inl rfl) h _ p
  | regex hbody hflags => exact crosses_regex (.inl rfl) hp hbody hflags
  | @quoted q body hq h =>
    have hescape : q ≠ '\\' := by rcases hq with rfl | rfl <;> decide
    have hrun : ∀ c ∈ body ++ [q], c ≠ '.' ∧ c ≠ '\\' := by
      intro c hc
      rcases List.mem_append.mp hc with hc | hc
      · exact ⟨fun heq => hdot ⟨q, body, hq, rfl, heq ▸ hc⟩, (h c hc).2⟩
      · rw [List.mem_singleton.mp hc]
        exact ⟨hq.ne_dot, hescape⟩
    obtain ⟨x, hcross⟩ := crosses_unquoted hq.ne_dot hrun
    exact ⟨_, .cons (fun _ => hq.ne_dot) (step_start hq ▸ hcross)⟩

/-- A full stop outside begins the next name. -/
theorem chainFrom_dot (t : Text) :
    chainFrom (outside p) ('.' :: t) = [] :: chainFrom (outside (some '.')) t := by
  rw [chainFrom, if_pos (by rfl), step_dot]

/-- A dotted name in quotes is cut at its first full stop. -/
theorem chainFrom_dottedQuote (h : IsSegment t) (hdot : IsDottedQuote t) (u : Text) :
    ∃ w ws, chainFrom (outside p) (t ++ u) = w :: ws ∧ w.length < t.length := by
  obtain ⟨q, body, hq, rfl, hmem⟩ := hdot
  have hbody : ∀ c ∈ body, c ≠ '\\' := by
    generalize ht : q :: (body ++ [q]) = t at h
    cases h with
    | bare _ h =>
      obtain ⟨-, -, -, hdouble, hsingle, -⟩ := h q (ht ▸ List.mem_cons_self)
      exact absurd hq (not_or.mpr ⟨hdouble, hsingle⟩)
    | regex =>
      obtain ⟨rfl, -⟩ := List.cons.inj ht
      rcases hq with hq | hq <;> exact absurd hq (by decide)
    | quoted _ h =>
      obtain ⟨rfl, heq⟩ := List.cons.inj ht
      rw [List.append_cancel_right heq]
      exact fun c hc => (h c hc).2
  obtain ⟨front, back, rfl, hfront⟩ := List.eq_append_cons_of_mem hmem
  have hrun : ∀ c ∈ front, c ≠ '.' ∧ c ≠ '\\' := fun c hc =>
    ⟨fun heq => hfront (heq ▸ hc), hbody c (List.mem_append_left _ hc)⟩
  obtain ⟨x, hcross⟩ := crosses_unquoted hq.ne_dot hrun
  have hall : Crosses false '.' (outside p) (q :: front) (outside (some x)) :=
    .cons (fun _ => hq.ne_dot) (step_start hq ▸ hcross)
  have hcut := chainFrom_append hall (chainFrom_dot (back ++ [q] ++ u))
  refine ⟨q :: front ++ [], _, Eq.trans ?_ hcut, by simp⟩
  simp

/-! ### Chains -/

theorem join_cons_cons (t u : Text) (ts : List Text) :
    Text.join ['.'] (t :: u :: ts) = t ++ '.' :: Text.join ['.'] (u :: ts) := by
  simp [Text.join]

theorem join_singleton (t : Text) : Text.join ['.'] [t] = t := by simp [Text.join]

/-- No equals sign counts in a chain. -/
theorem crosses_join {segs : List Text} (hp : IsStart p) (hsegs : ∀ t ∈ segs, IsSegment t) :
    ∃ p', Crosses true '=' (outside p) (Text.join ['.'] segs) (outside p') := by
  induction segs generalizing p with
  | nil => exact ⟨p, .nil _⟩
  | cons t segs ih =>
    obtain ⟨ht, hsegs⟩ := List.forall_mem_cons.mp hsegs
    obtain ⟨p₁, hname⟩ := crosses_segment hp ht
    cases segs with
    | nil => exact ⟨p₁, by rwa [join_singleton]⟩
    | cons u segs =>
      obtain ⟨p₂, hrest⟩ := ih (.inr rfl) hsegs
      rw [join_cons_cons]
      exact ⟨p₂, hname.append (.cons (fun _ => by decide) (step_dot ▸ hrest))⟩

/-- A chain is cut into its names if none of them has a full stop in quotes. -/
theorem chainFrom_join_iff {segs : List Text} (hp : IsStart p) (hne : segs ≠ [])
    (hsegs : ∀ t ∈ segs, IsSegment t) :
    chainFrom (outside p) (Text.join ['.'] segs) = segs ↔ ∀ t ∈ segs, ¬ IsDottedQuote t := by
  induction segs generalizing p with
  | nil => exact absurd rfl hne
  | cons t segs ih =>
    obtain ⟨ht, hsegs⟩ := List.forall_mem_cons.mp hsegs
    rw [List.forall_mem_cons]
    by_cases hdot : IsDottedQuote t
    · -- the first piece is shorter than the name
      refine iff_of_false (fun heq => ?_) fun h => h.1 hdot
      obtain ⟨u, hu⟩ : ∃ u, Text.join ['.'] (t :: segs) = t ++ u := by
        cases segs with
        | nil => exact ⟨[], by rw [join_singleton, List.append_nil]⟩
        | cons u segs => exact ⟨_, join_cons_cons t u segs⟩
      obtain ⟨w, ws, hcut, hshort⟩ := chainFrom_dottedQuote (p := p) ht hdot u
      rw [hu, hcut] at heq
      rw [(List.cons.inj heq).1] at hshort
      exact absurd hshort (Nat.lt_irrefl _)
    · obtain ⟨p₁, hname⟩ := crosses_undotted hp ht hdot
      cases segs with
      | nil =>
        refine iff_of_true ?_ ⟨hdot, by simp⟩
        have hlast := chainFrom_append (u := []) hname rfl
        rw [List.append_nil] at hlast
        rw [join_singleton, hlast]
      | cons u segs =>
        rw [join_cons_cons, chainFrom_append hname (chainFrom_dot _), List.append_nil,
          List.cons_inj_right, ih (.inr rfl) (List.cons_ne_nil _ _) hsegs]
        exact ⟨fun h => ⟨hdot, h⟩, fun h => h.2⟩

/-- **Chains that are put together.** Names are joined by full stops, and an equals sign and a value
are put behind. The value is cut off where it was put. The names are found again exactly if no name
in quotes has a full stop in it. -/
theorem split_join_chain {segs : List Text} (hne : segs ≠ []) (hsegs : ∀ t ∈ segs, IsSegment t)
    (v : Text) :
    split (Text.join ['.'] segs ++ '=' :: v) = (Text.join ['.'] segs, some v) ∧
      (chain (Text.join ['.'] segs) = segs ↔ ∀ t ∈ segs, ¬ IsDottedQuote t) := by
  refine ⟨?_, chainFrom_join_iff (.inl rfl) hne hsegs⟩
  obtain ⟨p, hcross⟩ := crosses_join (.inl rfl) hsegs
  rw [split, show Scan.start = outside none from rfl, splitFrom_append hcross, splitFrom,
    if_pos (by rfl)]
  simp

/-- A regular expression with all signs in it, a bare name, and a name in quotes; the value has
equals signs of its own. -/
theorem split_join_chain_mixedNames :
    let segs := ["/^a.b=\\/\"/i".toList, "data-x".toList, "'k=/v'".toList]
    segs ≠ [] ∧ (∀ t ∈ segs, IsSegment t) ∧
      split "/^a.b=\\/\"/i.data-x.'k=/v'=1=2".toList =
        ("/^a.b=\\/\"/i.data-x.'k=/v'".toList, some "1=2".toList) ∧
      (chain "/^a.b=\\/\"/i.data-x.'k=/v'".toList = segs ↔ ∀ t ∈ segs, ¬ IsDottedQuote t) := by
  intro segs
  have hregex : IsSegment "/^a.b=\\/\"/i".toList := by
    have hbody : IsRegexBody "^a.b=\\/\"".toList := by
      iterate 5 refine .char (by decide) (by decide) ?_
      exact .escape '/' (.char (by decide) (by decide) .nil)
    have hflags : ∀ c ∈ ['i'], c.isAlpha = true := List.forall_mem_singleton.mpr rfl
    exact .regex hbody hflags
  have hbare : IsSegment "data-x".toList := .bare (by decide) (by simp [IsNameChar])
  have hquoted : IsSegment "'k=/v'".toList := by
    have hinner : ∀ c ∈ "k=/v".toList, c ≠ '\'' ∧ c ≠ '\\' := by simp
    exact .quoted (.inr rfl) hinner
  have hne : segs ≠ [] := List.cons_ne_nil _ _
  have hsegs : ∀ t ∈ segs, IsSegment t := by
    simp only [segs, List.forall_mem_cons]
    exact ⟨hregex, hbare, hquoted, List.forall_mem_nil _⟩
  exact ⟨hne, hsegs, split_join_chain hne hsegs "1=2".toList⟩

/-- A name in quotes is not found again if it has a full stop in it. -/
theorem not_chain_join :
    ¬ ∀ segs : List Text, segs ≠ [] → (∀ t ∈ segs, IsSegment t) →
      chain (Text.join ['.'] segs) = segs := by
  intro h
  have hquoted : IsSegment "\"a.b\"".toList := by
    have hinner : ∀ c ∈ "a.b".toList, c ≠ '"' ∧ c ≠ '\\' := by simp
    exact .quoted (.inl rfl) hinner
  have hchain := h ["\"a.b\"".toList] (List.cons_ne_nil _ _) (by simpa using hquoted)
  exact absurd hchain (by decide)

end Assignment
end CosmeticFilter
