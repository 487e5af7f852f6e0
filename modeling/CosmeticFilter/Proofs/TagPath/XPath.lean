import CosmeticFilter.Proofs.TagPath.Native
import CosmeticFilter.XPath.Reader

/-!
# Paths of tag names as XPath expressions

The XPath form starts at the document. A step that leads to descendants is an abbreviation of two:
one to the nodes themselves and all below them, of every kind, and one to the children. A single
slash leads to children, or along the axis that is written behind it; that axis is read as a name
first, and only the two colons tell it from the name of an element.

* `TagTest.nodeTest`, `TagLink.steps`, `TagPath.steps`: the steps that a path stands for;
* `takeName_append`: a name ends where its characters end;
* `readSteps_written`: the steps are read one after the other;
* `TagPath.ofText_xpath`: the XPath form is read as these steps.
-/

namespace CosmeticFilter

/-! ### The steps -/

/-- The test as a node test. -/
def TagTest.nodeTest : TagTest → NodeTest
  | any => .anyElement
  | name tag => .name tag.text

/-- The steps that lead along a link to the nodes that pass a test. -/
def TagLink.steps (test : NodeTest) : TagLink → List Step
  | descendant => [.toAllBelow, ⟨.child, test, []⟩]
  | child => [⟨.child, test, []⟩]
  | sibling => [⟨.followingSibling, test, []⟩]

namespace TagPath

/-- The steps behind the first one. -/
def stepsOf (rest : List (TagLink × TagTest)) : List Step :=
  rest.flatMap fun step => step.1.steps step.2.nodeTest

/-- The steps of the whole path, from the document. -/
def steps (c : TagPath) : List Step := stepsOf ((.descendant, c.first) :: c.rest)

end TagPath

namespace XPath

/-! ### Names -/

/-- A name without full stops ends where its characters end. -/
theorem takeName_append {t w : Text} (ht : ∀ c ∈ t, isNameChar c = true ∧ c ≠ '.')
    (hw : ∀ c ∈ w.head?, isNameChar c = false) : takeName (t ++ w) = (t, w) := by
  induction t with
  | nil =>
    cases w with
    | nil => rfl
    | cons c r =>
      rw [List.nil_append, takeName, hw c rfl]
      rfl
  | cons c r ih =>
    obtain ⟨hc, hstop⟩ := ht c (List.mem_cons_self ..)
    rw [List.cons_append, takeName, hc, beq_eq_false_iff_ne.mpr hstop, Bool.false_and,
      Bool.not_false, Bool.and_self, if_pos rfl, ih fun d hd => ht d (List.mem_cons_of_mem _ hd)]
    rfl

theorem isNameChar_of_isLower {c : Char} (hc : c.isLower = true) : isNameChar c = true := by
  have hascii : c.toNat < 128 := by
    have := isLower_iff.mp hc
    omega
  have halpha : c.isAlphanum = true := by
    show (c.isAlpha || c.isDigit) = true
    rw [isAlpha_of_isLower hc, Bool.true_or]
  rw [isNameChar, Text.isAlphanumeric, if_pos hascii, halpha]
  rfl

theorem takeName_tagName (tag : TagName) {w : Text} (hw : ∀ c ∈ w.head?, isNameChar c = false) :
    takeName (tag.text ++ w) = (tag.text, w) :=
  takeName_append (fun c hc => ⟨isNameChar_of_isLower (tag.isLower c hc),
    ne_of_isLower (tag.isLower c hc) rfl⟩) hw

/-! ### One step -/

/-- A step without predicates is followed by a slash or by nothing. -/
def EndsStep (w : Text) : Prop := ∀ c ∈ w.head?, c = '/'

theorem endsStep_written (rest : List (TagLink × TagTest)) :
    EndsStep (TagPath.written TagLink.xpathSign rest) := by
  intro c hc
  cases rest with
  | nil => exact absurd hc (by simp [TagPath.written])
  | cons step rest =>
    obtain ⟨link, test⟩ := step
    cases link <;> exact (Option.some_inj.mp hc).symm

namespace EndsStep

variable {w : Text}

theorem not_isNameChar (hw : EndsStep w) : ∀ c ∈ w.head?, isNameChar c = false := fun c hc =>
  hw c hc ▸ rfl

theorem readPredicates (hw : EndsStep w) : readPredicates w = .ok ([], w) := by
  rw [XPath.readPredicates]
  cases w with
  | nil => rfl
  | cons c r =>
    rw [hw c rfl]
    rfl

theorem dropLead? (hw : EndsStep w) : Text.dropLead? "::".toList w = none := by
  cases w with
  | nil => rfl
  | cons c r =>
    rw [hw c rfl]
    rfl

theorem readNodeTest (hw : EndsStep w) (tag : TagName) :
    readNodeTest tag.text w = .ok (.name tag.text, w) := by
  rw [XPath.readNodeTest.eq_def, if_neg tag.ne_nil]
  cases w with
  | nil => rfl
  | cons c r =>
    rw [hw c rfl]
    rfl

end EndsStep

/-- Where a name of letters stands, there is no star. -/
theorem head_ne_of_tagName (tag : TagName) (w : Text) :
    ∃ c r, tag.text ++ w = c :: r ∧ c ≠ '*' := by
  obtain ⟨c, r, heq⟩ := List.exists_cons_of_ne_nil tag.ne_nil
  refine ⟨c, r ++ w, by rw [heq]; rfl, ?_⟩
  exact ne_of_isLower (tag.isLower c (heq ▸ List.mem_cons_self ..)) rfl

/-- Without an axis in front of it, a test asks for children. -/
theorem readAxisAndTest_text (test : TagTest) {w : Text} (hw : EndsStep w) :
    readAxisAndTest (test.text ++ w) = .ok ((.child, test.nodeTest), w) := by
  cases test with
  | any => rfl
  | name tag =>
    show readAxisAndTest (tag.text ++ w) = _
    obtain ⟨c, r, heq, hstar⟩ := head_ne_of_tagName tag w
    rw [readAxisAndTest.eq_def]
    split
    · rename_i hhead
      rw [heq] at hhead
      exact absurd (List.cons.inj hhead).1 hstar
    · simp only [takeName_tagName tag hw.not_isNameChar, hw.dropLead?, hw.readNodeTest tag]
      rfl

theorem readTestOnAxis_text (test : TagTest) {w : Text} (hw : EndsStep w) :
    readTestOnAxis (test.text ++ w) = .ok (test.nodeTest, w) := by
  cases test with
  | any => rfl
  | name tag =>
    show readTestOnAxis (tag.text ++ w) = _
    obtain ⟨c, r, heq, hstar⟩ := head_ne_of_tagName tag w
    rw [readTestOnAxis.eq_def]
    split
    · rename_i hhead
      rw [heq] at hhead
      exact absurd (List.cons.inj hhead).1 hstar
    · rw [takeName_tagName tag hw.not_isNameChar]
      exact hw.readNodeTest tag

/-- The axis of later siblings is read as a name, up to the colons. -/
theorem readAxisAndTest_sibling (test : TagTest) {w : Text} (hw : EndsStep w) :
    readAxisAndTest ("following-sibling::".toList ++ (test.text ++ w)) =
      .ok ((.followingSibling, test.nodeTest), w) := by
  have hsplit : "following-sibling::".toList = "following-sibling".toList ++ "::".toList := rfl
  have hletters : ∀ c ∈ "following-sibling".toList, isNameChar c = true ∧ c ≠ '.' := by
    have hall : "following-sibling".toList.all (fun d => isNameChar d && d != '.') = true := by
      decide
    exact fun c hc => by simpa using List.all_eq_true.mp hall c hc
  have hname : takeName ("following-sibling".toList ++ ("::".toList ++ (test.text ++ w))) =
      ("following-sibling".toList, "::".toList ++ (test.text ++ w)) :=
    takeName_append hletters fun c hc => Option.some_inj.mp hc ▸ rfl
  have haxis : Axis.ofText? "following-sibling".toList = some .followingSibling := by decide
  have hcolons : Text.dropLead? "::".toList ("::".toList ++ (test.text ++ w)) =
      some (test.text ++ w) := rfl
  rw [hsplit, List.append_assoc, readAxisAndTest.eq_def]
  split
  · rename_i hhead
    exact absurd (List.cons.inj hhead).1 (by decide)
  · simp only [hname, hcolons, haxis, readTestOnAxis_text test hw]
    rfl

/-- A step that does not start with a full stop or an `@` has an axis and a test. -/
theorem readStep_of_head {c : Char} {r w : Text} {axis : Axis} {test : NodeTest}
    (hblank : Text.isBlank c = false) (hstop : c ≠ '.') (hat : c ≠ '@')
    (h : readAxisAndTest (c :: r) = .ok ((axis, test), w)) (hw : EndsStep w) :
    readStep (c :: r) = .ok (⟨axis, test, []⟩, w) := by
  rw [readStep, Text.trimStart_cons_of_not_blank hblank]
  split
  · rename_i hhead
    exact absurd (List.cons.inj hhead).1 hstop
  · rename_i hhead
    exact absurd (List.cons.inj hhead).1 hstop
  · rename_i hhead
    exact absurd (List.cons.inj hhead).1 hat
  · exact Outcome.bind_eq_ok.mpr ⟨_, h, Outcome.bind_eq_ok.mpr ⟨_, hw.readPredicates, rfl⟩⟩

theorem readStep_text (test : TagTest) {w : Text} (hw : EndsStep w) :
    readStep (test.text ++ w) = .ok (⟨.child, test.nodeTest, []⟩, w) := by
  have h := readAxisAndTest_text test hw
  obtain ⟨c, r, heq, hc⟩ := test.exists_text
  rw [heq, List.cons_append] at h ⊢
  refine readStep_of_head (TagTest.not_blank hc) ?_ ?_ h hw
  · rcases hc with hc | rfl
    · exact ne_of_isLower hc rfl
    · decide
  · rcases hc with hc | rfl
    · exact ne_of_isLower hc rfl
    · decide

theorem readStep_sibling (test : TagTest) {w : Text} (hw : EndsStep w) :
    readStep ("following-sibling::".toList ++ (test.text ++ w)) =
      .ok (⟨.followingSibling, test.nodeTest, []⟩, w) :=
  readStep_of_head rfl (by decide) (by decide) (readAxisAndTest_sibling test hw) hw

/-! ### Further steps -/

section Steps

variable {t r : Text} {s : Step}

theorem readSteps_last (h : readStep t = .ok (s, [])) : readSteps t = .ok ([s], []) := by
  rw [readSteps, h]
  rfl

/-- Two slashes stand for a step of their own. -/
theorem readSteps_allBelow (h : readStep t = .ok (s, '/' :: '/' :: r)) (hlt : r.length < t.length) :
    readSteps t = (readSteps r).map fun more => ([s, .toAllBelow] ++ more.1, more.2) := by
  rw [readSteps, h]
  have htrim : Text.trimStart ('/' :: '/' :: r) = '/' :: '/' :: r := rfl
  simp only [htrim, dif_pos hlt]

theorem readSteps_slash (h : readStep t = .ok (s, '/' :: r)) (hr : r.head? ≠ some '/')
    (hlt : r.length < t.length) :
    readSteps t = (readSteps r).map fun more => ([s] ++ more.1, more.2) := by
  rw [readSteps, h]
  have htrim : Text.trimStart ('/' :: r) = '/' :: r := rfl
  simp only [htrim]
  split
  · rename_i hhead
    rw [(List.cons.inj hhead).2] at hr
    exact absurd rfl hr
  · rename_i hhead
    rw [(List.cons.inj hhead).2] at hlt ⊢
    rw [dif_pos hlt]
  · rename_i hslash
    exact absurd rfl (hslash r)

end Steps

/-- The steps are read one after the other, however the first of them has been written. -/
theorem readSteps_written {t : Text} {s : Step} (rest : List (TagLink × TagTest))
    (h : readStep t = .ok (s, TagPath.written TagLink.xpathSign rest))
    (hlt : (TagPath.written TagLink.xpathSign rest).length < t.length) :
    readSteps t = .ok (s :: TagPath.stepsOf rest, []) := by
  induction rest generalizing t s with
  | nil => exact readSteps_last h
  | cons step rest ih =>
    obtain ⟨link, test⟩ := step
    have hends := endsStep_written rest
    have htext := readStep_text test hends
    have hsibling := readStep_sibling test hends
    have hne : (test.text ++ TagPath.written TagLink.xpathSign rest).head? ≠ some '/' := by
      obtain ⟨c, r, heq, hc⟩ := test.exists_text
      rw [heq]
      rintro hhead
      rw [Option.some_inj.mp hhead] at hc
      exact absurd hc (by decide)
    have hshorter : (TagPath.written TagLink.xpathSign rest).length <
        (test.text ++ TagPath.written TagLink.xpathSign rest).length := by
      have := List.length_pos_of_ne_nil test.text_ne_nil
      rw [List.length_append]
      omega
    have hread := ih htext hshorter
    rw [TagPath.written] at h hlt
    generalize test.text ++ TagPath.written TagLink.xpathSign rest = u at *
    rw [List.length_append] at hlt
    cases link with
    | descendant =>
      rw [readSteps_allBelow (r := u) h (by omega), hread]
      rfl
    | child =>
      rw [readSteps_slash (r := u) h hne (by omega), hread]
      rfl
    | sibling =>
      have hslash : TagLink.sibling.xpathSign = '/' :: "following-sibling::".toList := rfl
      rw [hslash] at h hlt
      have hread' := ih hsibling (by rw [List.length_append]; omega)
      rw [List.length_cons] at hlt
      rw [readSteps_slash (r := "following-sibling::".toList ++ u) h (by simp)
        (by rw [List.length_append]; omega), hread']
      rfl

end XPath

/-- The XPath form is one absolute path. -/
theorem TagPath.ofText_xpath (c : TagPath) : XPath.ofText c.xpath = .ok ⟨[⟨true, c.steps⟩]⟩ := by
  have hpos : 0 < c.first.text.length := List.length_pos_of_ne_nil c.first.text_ne_nil
  have hsteps := XPath.readSteps_written c.rest
    (XPath.readStep_text c.first (XPath.endsStep_written c.rest))
    (by rw [List.length_append]; omega)
  have hpath : XPath.readPath c.xpath = .ok (⟨true, c.steps⟩, []) := by
    show (XPath.readSteps (c.first.text ++ written TagLink.xpathSign c.rest)).map _ = _
    rw [hsteps]
    rfl
  rw [XPath.ofText, XPath.readPaths, hpath]
  rfl

end CosmeticFilter
