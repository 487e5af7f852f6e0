import CosmeticFilter.Proofs.Query.TextContent

/-!
# Every text can be looked for

A text stands in the argument of `:contains()` with a backslash before each bracket, each quote and
each backslash. The argument passes three readers, each with rules of its own for backslashes: one
that looks for the bracket behind it, one that looks for the slashes of a regular expression, and
one that takes the backslashes out again. To the first, what stands behind a backslash is no bracket
and no quote, so all brackets and quotes of the text are passed over; to the second, a text that
starts with a backslash starts with no slash; and the third finds a backslash before one of its
characters only where one was put.

* `ContentPattern.escape`, `ContentPattern.unescape_escape`: writing a text, and reading it back;
* `ContentPattern.fills_escape`: the bracket behind what is written closes the argument;
* `ContentPattern.ofText_escape`: it is no regular expression;
* `all_contains_escape`: what `*:contains()` finds.
-/

namespace CosmeticFilter

open Extended (Inside Node Selector)

namespace ContentPattern

variable {s : Text} {c : Char}

/-- The text with a backslash before each bracket, quote and backslash. -/
def escape (s : Text) : Text := s.flatMap fun c => if isEscapable c then ['\\', c] else [c]

theorem escape_cons_of_isEscapable (h : isEscapable c = true) (r : Text) :
    escape (c :: r) = '\\' :: c :: escape r := by
  rw [escape, List.flatMap_cons, if_pos h]
  rfl

theorem escape_cons_of_not_isEscapable (h : isEscapable c = false) (r : Text) :
    escape (c :: r) = c :: escape r := by
  rw [escape, List.flatMap_cons, if_neg (by rw [h]; exact Bool.false_ne_true)]
  rfl

/-- A character without a backslash before it is no bracket, no quote and no backslash. -/
theorem ne_of_not_isEscapable (h : isEscapable c = false) {d : Char} (hd : isEscapable d = true) :
    c ≠ d := by
  rintro rfl
  rw [h] at hd
  cases hd

/-- Behind a character other than a backslash, nothing changes. -/
theorem unescape_cons (hc : c ≠ '\\') (r : Text) : unescape (c :: r) = c :: unescape r := by
  conv_lhs => unfold unescape
  split
  · rename_i heq
    cases heq
  · rename_i heq
    exact absurd (List.cons.inj heq).1 hc
  · rename_i heq
    obtain ⟨rfl, rfl⟩ := List.cons.inj heq
    rfl

/-- What has been written is read back. -/
theorem unescape_escape (s : Text) : unescape (escape s) = s := by
  induction s with
  | nil => rfl
  | cons c r ih =>
    cases hc : isEscapable c with
    | true => rw [escape_cons_of_isEscapable hc, unescape, if_pos hc, ih]
    | false =>
      rw [escape_cons_of_not_isEscapable hc, unescape_cons (ne_of_not_isEscapable hc rfl), ih]

/-- The first bracket that is seen in an argument is the one behind it. No quote is seen either, so
it does not matter where one may open a string. -/
theorem fills_escape {i : Inside} (hquote : i.quote = none) (hdepth : i.depth = 0) (s : Text) :
    i.Fills (escape s) := by
  induction s generalizing i with
  | nil =>
    refine Inside.fills_nil.mpr ?_
    simp [Inside.step, hquote, hdepth]
  | cons c r ih =>
    cases hc : isEscapable c with
    | true =>
      rw [escape_cons_of_isEscapable hc, Inside.fills_escape]
      exact ih hquote hdepth
    | false =>
      have hne : ∀ d, isEscapable d = true → c ≠ d := fun d => ne_of_not_isEscapable hc
      rw [escape_cons_of_not_isEscapable hc, Inside.fills_cons (hne _ rfl)]
      refine ⟨⟨i.depth, none, c⟩, ?_, ih rfl hdepth⟩
      simp [Inside.step, hquote, hne '"' rfl, hne '\'' rfl, hne '(' rfl, hne ')' rfl]

theorem mem_escape (h : c ∈ s) : c ∈ escape s := by
  refine List.mem_flatMap.mpr ⟨c, h, ?_⟩
  split <;> simp

/-- What is written is blank only if the text is. -/
theorem isAllBlank_escape (h : Text.isAllBlank s = false) : Text.isAllBlank (escape s) = false := by
  obtain ⟨c, hc, hblank⟩ := List.all_eq_false.mp h
  exact List.all_eq_false.mpr ⟨c, mem_escape hc, hblank⟩

/-- What is written starts with a slash only if the text does. -/
theorem head?_escape_ne (h : s.head? ≠ some '/') : (escape s).head? ≠ some '/' := by
  cases s with
  | nil => exact h
  | cons c r =>
    cases hc : isEscapable c with
    | true =>
      rw [escape_cons_of_isEscapable hc, List.head?_cons]
      exact fun heq => absurd (Option.some_inj.mp heq) (by decide)
    | false => rwa [escape_cons_of_not_isEscapable hc]

/-- Without a slash in front, a text is no regular expression. -/
theorem regexLiteral_eq_none {t : Text} (h : t.head? ≠ some '/') :
    RegexLiteral.ofText? t = none := by
  cases t with
  | nil => rfl
  | cons c r => rw [RegexLiteral.ofText?, if_pos fun hc => h (congrArg some hc)]

/-- What is written is read as the text itself. -/
theorem ofText_escape (hblank : Text.isAllBlank s = false) (hslash : s.head? ≠ some '/') :
    ofText (escape s) = .ok (.literal s) := by
  have hne : escape s ≠ [] := by
    intro hnil
    have hall := isAllBlank_escape hblank
    rw [hnil] at hall
    cases hall
  rw [ofText, if_neg hne, regexLiteral_eq_none (head?_escape_ne hslash)]
  exact congrArg (Except.ok ∘ literal) (unescape_escape s)

end ContentPattern

namespace Query

open ContentPattern (escape)

/-- **Every text can be looked for.** A text that is not blank and does not start with a slash,
written with backslashes, is accepted as the argument of `:contains()`; the pseudo-class compares
with the text itself, and it keeps exactly the elements in whose text content the text occurs. -/
theorem all_contains_escape {s : Text} (hblank : Text.isAllBlank s = false)
    (hslash : s.head? ≠ some '/') :
    Selector.ofText ("*:contains(".toList ++ escape s ++ ")".toList) =
        .ok ⟨[[.fragment ['*'], .textual .contains (escape s)]]⟩ ∧
      Condition.compile .contains (escape s) = .ok (.content (.literal s)) ∧
      ∀ p : Page, p.document.Built →
        ∃ found, all p ⟨[[.fragment ['*'], .textual .contains (escape s)]]⟩ = .ok found ∧
          ∀ n, n ∈ found ↔ p.document.isElement n = true ∧ s <:+: p.document.textContent n := by
  have hname : Extended.Name.contains.isContainsFamily = true := rfl
  have hread := ContentPattern.ofText_escape hblank hslash
  have hfills := ContentPattern.fills_escape (i := Inside.start) rfl rfl s
  have hgiven := ContentPattern.isAllBlank_escape hblank
  have htext : "*:contains(".toList ++ escape s ++ ")".toList =
      "*:".toList ++ Extended.Name.contains.text ++ "(".toList ++ escape s ++ ")".toList :=
    congrArg (· ++ escape s ++ ")".toList) (by decide)
  have hselector : Selector.ofText ("*:contains(".toList ++ escape s ++ ")".toList) =
      .ok ⟨[[.fragment ['*'], .textual .contains (escape s)]]⟩ := by
    rw [← ofText_asterisk_textual (isTextual_contains hname hfills hgiven hread), htext]
    simp [Extended.pseudosText, Extended.pseudoText]
  refine ⟨hselector, compile_contains hname hread, fun p hp => ?_⟩
  obtain ⟨sel, found, hsel, hfound, hmem⟩ := all_contains hp hname hfills hgiven hread
  rw [← htext, hselector] at hsel
  rw [Except.ok.inj hsel]
  exact ⟨found, hfound, hmem⟩

/-- A bracket that is never closed, quotes where strings may start, and a backslash at the end. -/
def openEnded : Text := " f(x, 'a[\"\\".toList

/-- It is looked for like any other text. -/
theorem all_contains_escape_openEnded :
    Text.isAllBlank openEnded = false ∧ openEnded.head? ≠ some '/' ∧
      escape openEnded = " f\\(x, \\'a\\[\\\"\\\\".toList ∧
      Selector.ofText ("*:contains(".toList ++ escape openEnded ++ ")".toList) =
        .ok ⟨[[.fragment ['*'], .textual .contains (escape openEnded)]]⟩ ∧
      Condition.compile .contains (escape openEnded) = .ok (.content (.literal openEnded)) := by
  have hblank : Text.isAllBlank openEnded = false := by decide
  have hslash : openEnded.head? ≠ some '/' := by decide
  obtain ⟨hselector, hcompile, -⟩ := all_contains_escape hblank hslash
  exact ⟨hblank, hslash, by decide, hselector, hcompile⟩

end Query
end CosmeticFilter
