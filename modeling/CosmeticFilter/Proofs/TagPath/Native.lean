import CosmeticFilter.Proofs.Css.ReadAlike

/-!
# Paths of tag names

A path of tag names is a chain of steps, each a name of small letters or `*`, that lead to
descendants, to children or to later siblings. It can be written as a native selector and as an
XPath expression: the two languages have different signs between the steps, and the same steps.

The native form is read from left to right, and what has been read is kept as it is matched, from
the right: every further step pushes the one before it onto the chain.

* `TagName`, `TagTest`, `TagLink`, `TagPath`: the paths;
* `TagPath.native`, `TagPath.xpath`: both forms;
* `TagPath.complex`: the native selector that a path stands for;
* `readChain_written`, `ofText_native`: the native form is read as this selector.
-/

namespace CosmeticFilter

/-! ### Paths -/

/-- A tag name of small letters. -/
structure TagName where
  /-- The letters. -/
  text : Text
  /-- There is at least one. -/
  ne_nil : text ≠ []
  /-- They lie between `a` and `z`. -/
  isLower : ∀ c ∈ text, c.isLower = true

/-- What a step of a path asks of an element. -/
inductive TagTest where
  /-- `*`: nothing. -/
  | any
  /-- That it has this tag. -/
  | name (tag : TagName)

/-- How a step leads on from the elements that have been found so far. -/
inductive TagLink where
  /-- To the elements below. -/
  | descendant
  /-- To the elements right below. -/
  | child
  /-- To the elements on the right. -/
  | sibling

/-- A path of tag names: where it starts, and the steps from there. -/
structure TagPath where
  /-- What the first elements are. -/
  first : TagTest
  /-- The further steps. -/
  rest : List (TagLink × TagTest)

/-- How a test is written in either language. -/
def TagTest.text : TagTest → Text
  | any => ['*']
  | name tag => tag.text

namespace TagLink

/-- What is written between two steps of a native selector. -/
def nativeSign : TagLink → Text
  | descendant => " ".toList
  | child => " > ".toList
  | sibling => " ~ ".toList

/-- What is written between two steps of an XPath expression. -/
def xpathSign : TagLink → Text
  | descendant => "//".toList
  | child => "/".toList
  | sibling => "/following-sibling::".toList

end TagLink

namespace TagPath

/-- Further steps, each with its sign in front of it. -/
def written (sign : TagLink → Text) : List (TagLink × TagTest) → Text
  | [] => []
  | (link, test) :: rest => sign link ++ (test.text ++ written sign rest)

/-- The path as a native selector. -/
def native (c : TagPath) : Text := c.first.text ++ written TagLink.nativeSign c.rest

/-- The path as an XPath expression. -/
def xpath (c : TagPath) : Text := "//".toList ++ (c.first.text ++ written TagLink.xpathSign c.rest)

end TagPath

/-! ### Characters -/

theorem isLower_iff {c : Char} : c.isLower = true ↔ 97 ≤ c.toNat ∧ c.toNat ≤ 122 := by
  show (decide ('a'.val ≤ c.val) && decide (c.val ≤ 'z'.val)) = true ↔ _
  rw [Bool.and_eq_true, decide_eq_true_iff, decide_eq_true_iff]
  exact Iff.rfl

theorem ne_of_isLower {c d : Char} (hc : c.isLower = true) (hd : d.isLower = false) : c ≠ d := by
  rintro rfl
  rw [hc] at hd
  exact absurd hd (by simp)

theorem not_blank_of_isLower {c : Char} (hc : c.isLower = true) : Text.isBlank c = false := by
  have := isLower_iff.mp hc
  simp only [Text.isBlank, Bool.or_eq_false_iff, Bool.and_eq_false_iff, decide_eq_false_iff_not,
    beq_eq_false_iff_ne]
  omega

theorem toLower_of_isLower {c : Char} (hc : c.isLower = true) : c.toLower = c := by
  have hbounds := isLower_iff.mp hc
  refine dif_neg ?_
  rintro ⟨-, hle⟩
  have hle : c.toNat ≤ 90 := hle
  omega

theorem isAlpha_of_isLower {c : Char} (hc : c.isLower = true) : c.isAlpha = true := by
  show (c.isUpper || c.isLower) = true
  rw [hc, Bool.or_true]

theorem isIdentStart_of_isLower {c : Char} (hc : c.isLower = true) : Css.isIdentStart c = true := by
  rw [Css.isIdentStart, isAlpha_of_isLower hc]
  rfl

theorem TagName.lower (tag : TagName) : Text.lower tag.text = tag.text := by
  rw [Text.lower, List.map_congr_left fun c hc => toLower_of_isLower (tag.isLower c hc),
    List.map_id']

namespace TagTest

/-- A test starts with a letter or is a star. -/
theorem exists_text (test : TagTest) :
    ∃ c r, test.text = c :: r ∧ (c.isLower = true ∨ c = '*') := by
  cases test with
  | any => exact ⟨'*', [], rfl, Or.inr rfl⟩
  | name tag =>
    obtain ⟨c, r, heq⟩ := List.exists_cons_of_ne_nil tag.ne_nil
    exact ⟨c, r, heq, Or.inl (tag.isLower c (heq ▸ List.mem_cons_self ..))⟩

/-- All characters of a test are letters or the star. -/
theorem mem_text {test : TagTest} {c : Char} (hc : c ∈ test.text) :
    c.isLower = true ∨ c = '*' := by
  cases test with
  | any => exact Or.inr (List.mem_singleton.mp hc)
  | name tag => exact Or.inl (tag.isLower c hc)

theorem text_ne_nil (test : TagTest) : test.text ≠ [] := by
  obtain ⟨c, r, heq, -⟩ := test.exists_text
  rw [heq]
  exact List.cons_ne_nil c r

theorem not_blank {c : Char} (hc : c.isLower = true ∨ c = '*') : Text.isBlank c = false := by
  rcases hc with hc | rfl
  · exact not_blank_of_isLower hc
  · rfl

end TagTest

/-- A text without quotes, brackets, escapes and commas is one selector. -/
theorem Css.isSingle_of_forall {t : Text}
    (h : ∀ c ∈ t, Brackets.roundAndSquare.isDelimiter c = false ∧ c ≠ ',') : Css.IsSingle t :=
  ⟨Nesting.after_of_not_isDelimiter (fun c hc => (h c hc).1) 0,
    Nesting.cut_eq_none_of_forall fun c hc => beq_eq_false_iff_ne.mpr (h c hc).2⟩

/-! ### The native selector -/

namespace TagTest

/-- The test as a condition of a compound. -/
def simple : TagTest → Css.Simple
  | any => .universal
  | name tag => .tag tag.text

end TagTest

/-- The combinator of a native selector. -/
def TagLink.combinator : TagLink → Css.Combinator
  | descendant => .descendant
  | child => .child
  | sibling => .subsequentSibling

namespace TagPath

open Css

variable {left : List (Combinator × Compound)}

/-- The selector whose last steps these are, `left` being the steps before them. -/
def complexFrom (left : List (Combinator × Compound)) (test : TagTest) :
    List (TagLink × TagTest) → Css.Complex
  | [] => ⟨[test.simple], left⟩
  | (link, next) :: rest => complexFrom ((link.combinator, [test.simple]) :: left) next rest

/-- The native selector that a path stands for. -/
def complex (c : TagPath) : Css.Complex := complexFrom [] c.first c.rest

/-! ### Reading the native form -/

/-- A step is followed by a blank or by nothing. -/
theorem readSimple_written (rest : List (TagLink × TagTest)) :
    readSimple false (written TagLink.nativeSign rest) = .ok none := by
  cases rest with
  | nil => rfl
  | cons step rest =>
    obtain ⟨link, test⟩ := step
    cases link <;> rfl

theorem detached_written (rest : List (TagLink × TagTest)) :
    Detached (written TagLink.nativeSign rest) := by
  intro c hc
  cases rest with
  | nil => exact absurd hc (by simp [written])
  | cons step rest =>
    obtain ⟨link, test⟩ := step
    have hblank : c = ' ' := by cases link <;> exact (Option.some_inj.mp hc).symm
    rw [hblank]
    decide

theorem takeIdent_tagName (tag : TagName) {w : Text} (hw : Detached w) :
    takeIdent (tag.text ++ w) = (tag.text, w) := by
  have hident : ∀ c ∈ tag.text, isIdentChar c = true := fun c hc => by
    rw [isIdentChar, isIdentStart_of_isLower (tag.isLower c hc)]
    rfl
  rw [takeIdent_append hident, takeIdent_detached hw, List.append_nil]

/-- The condition at the start of a compound. -/
theorem readSimple_text (test : TagTest) {w : Text} (hw : Detached w) :
    readSimple true (test.text ++ w) = .ok (some (test.simple, w)) := by
  cases test with
  | any => rfl
  | name tag =>
    have hident : readIdent .typeName (tag.text ++ w) = .ok (tag.text, w) :=
      readIdent_eq_ok.mpr ⟨takeIdent_tagName tag hw, tag.ne_nil⟩
    show readSimple true (tag.text ++ w) = .ok (some (.tag tag.text, w))
    obtain ⟨c, r, heq⟩ := List.exists_cons_of_ne_nil tag.ne_nil
    have hc : c.isLower = true := tag.isLower c (heq ▸ List.mem_cons_self ..)
    have hne : ∀ d : Char, d.isLower = false → c ≠ d := fun d => ne_of_isLower hc
    have hstart : startsIdent (c :: (r ++ w)) = true := by
      rw [startsIdent_cons (hne '-' rfl) (hne '\\' rfl)]
      exact isIdentStart_of_isLower hc
    have hname := tag.lower
    rw [heq, List.cons_append] at hident ⊢
    rw [heq] at hname
    rw [readSimple, if_neg fun h => hne '*' rfl h.1, if_neg (hne '.' rfl), if_neg (hne '#' rfl),
      if_neg (hne '[' rfl), if_neg (hne ':' rfl), if_pos ⟨rfl, hstart⟩, hident]
    show Except.ok (some (Simple.tag (Text.lower (c :: r)), w)) = _
    rw [hname]

/-- A step of the native form is one compound. -/
theorem readCompound_step (test : TagTest) (rest : List (TagLink × TagTest)) :
    readCompound (test.text ++ written TagLink.nativeSign rest) =
      .ok ([test.simple], written TagLink.nativeSign rest) := by
  refine readCompound_eq_ok.mpr ⟨?_, List.cons_ne_nil _ _⟩
  rw [readConditions_of_some (readSimple_text test (detached_written rest)),
    readConditions_of_none (readSimple_written rest)]
  rfl

/-- The sign of a link is read as its combinator. -/
theorem readCombinator_sign (link : TagLink) (test : TagTest) (w : Text) :
    readCombinator (link.nativeSign ++ (test.text ++ w)) =
      .ok (some (link.combinator, test.text ++ w)) := by
  obtain ⟨c, r, heq, hc⟩ := test.exists_text
  have htrim : Text.trimStart (' ' :: c :: (r ++ w)) = c :: (r ++ w) := by
    rw [Text.trimStart_cons_of_blank rfl, Text.trimStart_cons_of_not_blank (TagTest.not_blank hc)]
  rw [heq, List.cons_append]
  cases link with
  | descendant =>
    refine readCombinator_descendant ?_ htrim ?_
    · rcases hc with hc | rfl
      · simp [isCombinator, ne_of_isLower hc]
      · rfl
    · show some ' ' ≠ some c
      rintro hblank
      rw [← Option.some_inj.mp hblank] at hc
      exact absurd hc (by decide)
  | child =>
    show readCombinator (' ' :: '>' :: ' ' :: c :: (r ++ w)) = _
    rw [readCombinator, Text.trimStart_cons_of_blank rfl, Text.trimStart_cons_of_not_blank rfl]
    simp only [Combinator.ofChar?, if_pos, htrim]
    rfl
  | sibling =>
    show readCombinator (' ' :: '~' :: ' ' :: c :: (r ++ w)) = _
    rw [readCombinator, Text.trimStart_cons_of_blank rfl, Text.trimStart_cons_of_not_blank rfl]
    simp only [Combinator.ofChar?, htrim]
    rfl

/-- The steps are read one after the other. -/
theorem readChain_written (test : TagTest) (rest : List (TagLink × TagTest)) :
    readChain left (test.text ++ written TagLink.nativeSign rest) =
      .ok (complexFrom left test rest) := by
  induction rest generalizing left test with
  | nil =>
    rw [readChain_eq, readCompound_step]
    rfl
  | cons step rest ih =>
    obtain ⟨link, next⟩ := step
    rw [readChain_eq, readCompound_step]
    exact (readOn_of_combinator (readCombinator_sign ..)).trans (ih next)

/-! ### The whole native form -/

/-- The characters of the native form. -/
theorem mem_native {test : TagTest} {rest : List (TagLink × TagTest)} {c : Char}
    (hc : c ∈ test.text ++ written TagLink.nativeSign rest) :
    c.isLower = true ∨ c ∈ "* >~".toList := by
  induction rest generalizing test with
  | nil =>
    rw [written, List.append_nil] at hc
    refine (TagTest.mem_text hc).imp_right fun heq => ?_
    rw [heq]
    exact List.mem_cons_self ..
  | cons step rest ih =>
    obtain ⟨link, next⟩ := step
    rcases List.mem_append.mp hc with hc | hc
    · refine (TagTest.mem_text hc).imp_right fun heq => ?_
      rw [heq]
      exact List.mem_cons_self ..
    rcases List.mem_append.mp hc with hc | hc
    · have hsign : link.nativeSign.all "* >~".toList.contains = true := by cases link <;> rfl
      exact Or.inr (List.contains_iff_mem.mp (List.all_eq_true.mp hsign c hc))
    · exact ih hc

/-- The last character of a form is one of its last step. -/
theorem getLast?_written {sign : TagLink → Text} (test : TagTest)
    (rest : List (TagLink × TagTest)) :
    ∀ c ∈ (test.text ++ written sign rest).getLast?, c.isLower = true ∨ c = '*' := by
  induction rest generalizing test with
  | nil =>
    intro c hc
    rw [written, List.append_nil] at hc
    exact TagTest.mem_text (List.mem_of_getLast? hc)
  | cons step rest ih =>
    obtain ⟨link, next⟩ := step
    have hne : next.text ++ written sign rest ≠ [] :=
      List.append_ne_nil_of_left_ne_nil next.text_ne_nil _
    rw [written, ← List.append_assoc, List.getLast?_append_of_ne_nil _ hne]
    exact ih next

theorem isSingle_native (c : TagPath) : IsSingle c.native := by
  refine isSingle_of_forall fun d hd => ?_
  rcases mem_native hd with hd | hd
  · have hne : ∀ e : Char, e.isLower = false → d ≠ e := fun e => ne_of_isLower hd
    refine ⟨?_, hne ',' rfl⟩
    simp [Brackets.isDelimiter, Brackets.opens, Brackets.closes, hne '\\' rfl, hne '"' rfl,
      hne '\'' rfl, hne '(' rfl, hne '[' rfl, hne ')' rfl, hne ']' rfl]
  · have hall : "* >~".toList.all (fun e =>
        !Brackets.roundAndSquare.isDelimiter e && e != ',') = true := by decide
    have := List.all_eq_true.mp hall d hd
    simpa using this

/-- The native form is read as the selector that the path stands for. -/
theorem ofText_native (c : TagPath) : Selector.ofText c.native = .ok ⟨[c.complex]⟩ := by
  obtain ⟨d, r, heq, hd⟩ := c.first.exists_text
  have hhead : ∀ e ∈ c.native.head?, e.isLower = true ∨ e = '*' := fun e he => by
    rw [native, heq] at he
    rwa [← Option.some_inj.mp he]
  have htrim : Text.trim c.native = c.native :=
    Text.trim_eq_self (fun e he => TagTest.not_blank (hhead e he)) fun e he =>
      TagTest.not_blank (getLast?_written c.first c.rest e he)
  have hlead : ∀ e ∈ c.native.head?, isCombinator e = false := fun e he => by
    rcases hhead e he with he | rfl
    · simp [isCombinator, ne_of_isLower he]
    · rfl
  have hsingle := isSingle_native c
  refine (ofText_eq_single htrim hlead).mpr ⟨?_, hsingle.2, ?_, readChain_written c.first c.rest⟩
  · rw [hsingle.1]
    exact Nesting.isClosed_top
  · exact List.append_ne_nil_of_left_ne_nil c.first.text_ne_nil _

end TagPath
end CosmeticFilter
