import CosmeticFilter.Proofs.XPath.Predicates

/-!
# Reading expressions

A name in front of two colons is an axis, in front of a bracket it is a kind of node, and otherwise
it is a tag name. The reader looks at the sign behind it to tell which, and the grammar says what
may follow: a predicate, a slash, a bar or the end. With that, steps, paths and unions are read one
after the other. What the grammar derives is read; and what is read is derived if no predicate
starts with a number that is out of bounds, for the reader passes over that.

* `AfterTest`, `AfterStep`, `AfterPath`: what may follow;
* `exists_step_of_readStep`, `readStep_of_isWritten`: steps, both ways;
* `exists_path_of_readPath`, `readPath_of_isWritten`: paths, both ways;
* `exists_isWritten_of_predicatesFit`, `ofText_of_isWritten`: expressions, both ways.
-/

namespace CosmeticFilter
namespace XPath

open Standard (PredicatesAreWritten TestIsWritten StepsAreWritten PathsAreWritten)

/-! ### What the reader makes of steps and paths -/

/-- What the reader makes of a step. -/
def Standard.Step.toStep (s : Standard.Step) : CosmeticFilter.Step :=
  ⟨s.axis, s.test, s.predicates.map Standard.Expr.toPredicate⟩

/-- What the reader makes of a path. -/
def Standard.Path.toPath (p : Standard.Path) : LocationPath :=
  ⟨p.isAbsolute, p.steps.map Standard.Step.toStep⟩

/-- What the reader makes of an expression. -/
def Standard.Query.toXPath (q : Standard.Query) : XPath := ⟨q.paths.map Standard.Path.toPath⟩

/-! ### Node tests -/

theorem testIsWritten_of_readNodeTest {t name behind left : Text} {test : NodeTest}
    (hname : takeName t = (name, behind)) (h : readNodeTest name behind = .ok (test, left)) :
    TestIsWritten test t left := by
  have happend := append_takeName t
  rw [hname] at happend
  rw [readNodeTest.eq_def] at h
  split at h
  · cases h
  · rename_i hne
    split at h
    · rename_i r
      split at h
      · rename_i hnode
        obtain ⟨rest, hclose, h⟩ := Outcome.map_eq_ok.mp h
        obtain ⟨rfl, rfl⟩ := Prod.mk.inj h
        rw [← happend, hnode]
        exact .node (readSign_eq_ok_iff.mp hclose)
      · split at h
        · rename_i htext
          obtain ⟨rest, hclose, h⟩ := Outcome.map_eq_ok.mp h
          obtain ⟨rfl, rfl⟩ := Prod.mk.inj h
          rw [← happend, htext]
          exact .text (readSign_eq_ok_iff.mp hclose)
        · cases h
    · obtain ⟨rfl, rfl⟩ := Prod.mk.inj (Except.ok.inj h)
      exact .name hname hne

theorem testIsWritten_of_readTestOnAxis {t left : Text} {test : NodeTest}
    (h : readTestOnAxis t = .ok (test, left)) : TestIsWritten test t left := by
  rw [readTestOnAxis.eq_def] at h
  split at h
  · obtain ⟨rfl, rfl⟩ := Prod.mk.inj (Except.ok.inj h)
    exact .anyElement
  · exact testIsWritten_of_readNodeTest rfl h

theorem takeName_node (r : Text) : takeName ("node(".toList ++ r) = ("node".toList, '(' :: r) := rfl

theorem takeName_text (r : Text) : takeName ("text(".toList ++ r) = ("text".toList, '(' :: r) := rfl

theorem takeName_axis (axis : Axis) (r : Text) :
    takeName (axis.text ++ ("::".toList ++ r)) = (axis.text, "::".toList ++ r) := by
  cases axis <;> rfl

/-- A name or an axis does not go on here. -/
structure AfterTest (t : Text) : Prop where
  /-- No bracket makes a function of the name. -/
  bracket : t.head? ≠ some '('
  /-- No colon makes an axis of it. -/
  colon : t.head? ≠ some ':'

/-- A test is read from its name, unless it is the star. -/
theorem exists_name_of_testIsWritten {test : NodeTest} {t rest : Text}
    (h : TestIsWritten test t rest) (hrest : AfterTest rest) :
    (test = .anyElement ∧ t = '*' :: rest) ∨
      t.head? ≠ some '*' ∧ (takeName t).2.head? ≠ some ':' ∧
        readNodeTest (takeName t).1 (takeName t).2 = .ok (test, rest) := by
  have hhead : ∀ {c : Char} {r : Text} {a : Char}, c ≠ a → (c :: r).head? ≠ some a :=
    fun hne heq => hne (Option.some_inj.mp heq)
  cases h with
  | anyElement => exact .inl ⟨rfl, rfl⟩
  | @name t name rest read ne_nil =>
    refine .inr ⟨?_, by rw [read]; exact hrest.colon, ?_⟩
    · intro hstar
      obtain ⟨r, rfl⟩ := List.head?_eq_some_iff.mp hstar
      rw [takeName] at read
      exact ne_nil (Prod.mk.inj read).1.symm
    · rw [read, readNodeTest.eq_def, if_neg ne_nil]
      dsimp only
      split
      · exact absurd rfl hrest.bracket
      · rfl
  | @node r rest closing =>
    refine .inr ⟨hhead (c := 'n') (by decide), ?_, ?_⟩
    · rw [takeName_node]
      exact hhead (by decide)
    · rw [takeName_node]
      exact Outcome.map_eq_ok.mpr ⟨rest, readSign_eq_ok_iff.mpr closing, rfl⟩
  | @text r rest closing =>
    refine .inr ⟨hhead (c := 't') (by decide), ?_, ?_⟩
    · rw [takeName_text]
      exact hhead (by decide)
    · rw [takeName_text]
      exact Outcome.map_eq_ok.mpr ⟨rest, readSign_eq_ok_iff.mpr closing, rfl⟩

theorem readTestOnAxis_of_isWritten {test : NodeTest} {t rest : Text}
    (h : TestIsWritten test t rest) (hrest : AfterTest rest) :
    readTestOnAxis t = .ok (test, rest) := by
  rw [readTestOnAxis.eq_def]
  obtain ⟨rfl, rfl⟩ | ⟨hstar, -, hread⟩ := exists_name_of_testIsWritten h hrest
  · rfl
  · split
    · exact absurd rfl hstar
    · exact hread

theorem readAxisAndTest_of_isWritten {test : NodeTest} {t rest : Text}
    (h : TestIsWritten test t rest) (hrest : AfterTest rest) :
    readAxisAndTest t = .ok ((.child, test), rest) := by
  rw [readAxisAndTest.eq_def]
  obtain ⟨rfl, rfl⟩ | ⟨hstar, hcolon, hread⟩ := exists_name_of_testIsWritten h hrest
  · rfl
  · split
    · exact absurd rfl hstar
    · have hnone : Text.dropLead? "::".toList (takeName t).2 = none := by
        refine Option.eq_none_iff_forall_ne_some.mpr fun r hr => hcolon ?_
        rw [dropLead?_eq_some_iff.mp hr]
        rfl
      dsimp only
      rw [hnone]
      exact Outcome.map_eq_ok.mpr ⟨_, hread, rfl⟩

theorem axis_ofText?_text (axis : Axis) : Axis.ofText? axis.text = some axis := by
  cases axis <;> rfl

theorem readAxisAndTest_of_axis (axis : Axis) {test : NodeTest} {t rest : Text}
    (h : TestIsWritten test t rest) (hrest : AfterTest rest) :
    readAxisAndTest (axis.text ++ ("::".toList ++ t)) = .ok ((axis, test), rest) := by
  have hcolons : Text.dropLead? "::".toList ("::".toList ++ t) = some t :=
    dropLead?_eq_some_iff.mpr rfl
  have hstar : (axis.text ++ ("::".toList ++ t)).head? ≠ some '*' := by
    cases axis <;> exact fun heq => absurd (Option.some_inj.mp heq) (by decide)
  rw [readAxisAndTest.eq_def]
  split
  · rename_i heq
    rw [heq] at hstar
    exact absurd rfl hstar
  · dsimp only
    rw [takeName_axis, hcolons, axis_ofText?_text]
    exact Outcome.map_eq_ok.mpr ⟨_, readTestOnAxis_of_isWritten h hrest, rfl⟩

theorem exists_of_readAxisAndTest {t left : Text} {axis : Axis} {test : NodeTest}
    (h : readAxisAndTest t = .ok ((axis, test), left)) :
    (axis = .child ∧ TestIsWritten test t left) ∨
      ∃ r, t = axis.text ++ "::".toList ++ r ∧ TestIsWritten test r left := by
  rw [readAxisAndTest.eq_def] at h
  split at h
  · obtain ⟨haxis, rfl⟩ := Prod.mk.inj (Except.ok.inj h)
    obtain ⟨rfl, rfl⟩ := Prod.mk.inj haxis
    exact .inl ⟨rfl, .anyElement⟩
  · dsimp only at h
    split at h
    · obtain ⟨⟨test', rest⟩, hread, h⟩ := Outcome.map_eq_ok.mp h
      obtain ⟨haxis, rfl⟩ := Prod.mk.inj h
      obtain ⟨rfl, rfl⟩ := Prod.mk.inj haxis
      exact .inl ⟨rfl, testIsWritten_of_readNodeTest rfl hread⟩
    · rename_i r hcolons
      split at h
      · cases h
      · rename_i axis' hknown
        obtain ⟨⟨test', rest⟩, hread, h⟩ := Outcome.map_eq_ok.mp h
        obtain ⟨haxis, rfl⟩ := Prod.mk.inj h
        obtain ⟨rfl, rfl⟩ := Prod.mk.inj haxis
        rw [Axis.ofText?] at hknown
        have hfound := List.find?_some hknown
        have hname : axis'.text = (takeName t).1 := beq_iff_eq.mp hfound
        refine .inr ⟨r, ?_, testIsWritten_of_readTestOnAxis hread⟩
        rw [hname, List.append_assoc, ← dropLead?_eq_some_iff.mp hcolons, append_takeName]

theorem Standard.TestIsWritten.suffix {test : NodeTest} {t rest : Text}
    (h : TestIsWritten test t rest) : rest <:+ t := by
  cases h with
  | anyElement => exact List.suffix_cons _ _
  | name read => exact suffix_of_takeName read
  | node closing => exact closing.suffix.trans (List.suffix_append _ _)
  | text closing => exact closing.suffix.trans (List.suffix_append _ _)

theorem Standard.TestIsWritten.fits {test : NodeTest} {t rest : Text}
    (h : TestIsWritten test t rest) : Fits t rest := by
  cases h with
  | anyElement => exact .of_eq (openings_append (s := ['*']) (by decide) rest)
  | name read => exact .of_eq (openings_takeName read)
  | node closing =>
    exact .of_eq ((openings_append (by decide) _).trans (closing.openings_eq (by decide)))
  | text closing =>
    exact .of_eq ((openings_append (by decide) _).trans (closing.openings_eq (by decide)))

theorem fits_trimStart (t : Text) : Fits t (Text.trimStart t) := .of_eq (openings_trimStart t).symm

/-- A sign that is no bracket. -/
theorem Sign.fits {sign t rest : Text} (h : Sign sign t rest) (hsign : ArePlain sign) :
    Fits t rest :=
  .of_eq (h.openings_eq hsign)

theorem arePlain_axis (axis : Axis) : ArePlain (axis.text ++ "::".toList) := by
  cases axis <;> decide

/-- A test starts with a star or like a name. -/
theorem Standard.TestIsWritten.exists_head {test : NodeTest} {t rest : Text}
    (h : TestIsWritten test t rest) : ∃ c ∈ t.head?, c = '*' ∨ isNameChar c = true := by
  cases h with
  | anyElement => exact ⟨'*', rfl, .inl rfl⟩
  | @name t name rest read ne_nil =>
    cases t with
    | nil => exact absurd (Prod.mk.inj read).1.symm ne_nil
    | cons c r =>
      refine ⟨c, rfl, .inr ?_⟩
      by_contra hc
      rw [takeName, Bool.eq_false_iff.mpr hc] at read
      exact ne_nil (Prod.mk.inj read).1.symm
  | node => exact ⟨'n', rfl, .inr rfl⟩
  | text => exact ⟨'t', rfl, .inr rfl⟩

/-! ### Steps -/

theorem exists_step_of_readStep {t left : Text} {step : Step} (hfit : PredicatesFit t)
    (h : readStep t = .ok (step, left)) :
    ∃ (s : Standard.Step) (rest : Text), s.IsWritten t rest ∧ s.toStep = step ∧
      Text.trimStart left = Text.trimStart rest := by
  rw [readStep.eq_def] at h
  split at h
  · rename_i r hhead
    obtain ⟨rfl, rfl⟩ := Prod.mk.inj (Except.ok.inj h)
    exact ⟨⟨.parent, .node, []⟩, r, .parent hhead, rfl, rfl⟩
  · rename_i r _ hhead
    obtain ⟨rfl, rfl⟩ := Prod.mk.inj (Except.ok.inj h)
    exact ⟨⟨.self, .node, []⟩, r, .self hhead, rfl, rfl⟩
  · cases h
  · rename_i hdot hat
    obtain ⟨⟨⟨axis, test⟩, behind⟩, htest, h⟩ := Outcome.bind_eq_ok.mp h
    obtain ⟨⟨ps, rest⟩, hpredicates, h⟩ := Outcome.bind_eq_ok.mp h
    obtain ⟨rfl, rfl⟩ := Prod.mk.inj (Except.ok.inj h)
    rcases exists_of_readAxisAndTest htest with ⟨rfl, hwritten⟩ | ⟨r, hsign, hwritten⟩
    · obtain ⟨es, rest', hes, rfl, rfl⟩ := exists_exprs_of_readPredicates
        (hfit.of_fits ((fits_trimStart t).trans hwritten.fits)) hpredicates
      refine ⟨⟨.child, test, es⟩, rest', .child ?_ hwritten hes, rfl,
        Text.trimStart_trimStart rest'⟩
      intro hhead
      obtain ⟨r, heq⟩ := List.head?_eq_some_iff.mp hhead
      exact hdot r heq
    · have hbehind : Fits t behind := (Sign.fits hsign (arePlain_axis axis)).trans hwritten.fits
      have hfit' := hfit.of_fits hbehind
      obtain ⟨es, rest', hes, rfl, rfl⟩ := exists_exprs_of_readPredicates hfit' hpredicates
      exact ⟨⟨axis, test, es⟩, rest', .onAxis hsign hwritten hes, rfl,
        Text.trimStart_trimStart rest'⟩

/-- A path or a whole expression goes on here, or ends: no step does. -/
def AfterStep (t : Text) : Prop :=
  ∀ c ∈ (Text.trimStart t).head?, c = '/' ∨ c = '|'

/-- Where a step ends, its last name ends too. -/
theorem afterTest_of_predicates {es : List Standard.Expr} {t rest : Text}
    (h : PredicatesAreWritten es t rest) (hrest : AfterStep rest) : AfterTest t := by
  have hnext : ∀ c ∈ (Text.trimStart t).head?, c = '[' ∨ c = '/' ∨ c = '|' := by
    cases h with
    | nil => exact fun c hc => .inr (hrest c hc)
    | cons opening =>
      intro c hc
      rw [opening.head?_eq (by decide)] at hc
      exact .inl (Option.some_inj.mp hc).symm
  have hhead : ∀ c, c ∈ t.head? → Text.isBlank c = false → c = '[' ∨ c = '/' ∨ c = '|' := by
    intro c hc hblank
    obtain ⟨r, rfl⟩ := List.head?_eq_some_iff.mp hc
    exact hnext c (by rw [Text.trimStart_cons_of_not_blank hblank]; rfl)
  exact ⟨fun h => absurd (hhead _ h (by decide)) (by decide),
    fun h => absurd (hhead _ h (by decide)) (by decide)⟩

/-- A step does not start like a path, a union or an attribute. -/
theorem Standard.Step.IsWritten.exists_head {s : Standard.Step} {t rest : Text}
    (h : s.IsWritten t rest) :
    ∃ c ∈ (Text.trimStart t).head?, c ≠ '/' ∧ c ≠ '|' ∧ c ≠ '@' := by
  cases h with
  | parent sign => exact ⟨'.', sign.head?_eq (by decide), by decide⟩
  | self sign => exact ⟨'.', sign.head?_eq (by decide), by decide⟩
  | child _ written =>
    obtain ⟨c, hc, hname⟩ := written.exists_head
    refine ⟨c, hc, ?_, ?_, ?_⟩ <;>
    · rintro rfl
      exact absurd hname (by decide)
  | @onAxis axis _ _ _ _ _ _ sign =>
    rw [Sign] at sign
    rw [sign]
    cases axis <;> exact ⟨_, rfl, by decide⟩

theorem readStep_of_not_dot {t r left : Text} {axis : Axis} {test : NodeTest}
    {ps : List Predicate} (hdot : (Text.trimStart t).head? ≠ some '.')
    (hat : (Text.trimStart t).head? ≠ some '@')
    (htest : readAxisAndTest (Text.trimStart t) = .ok ((axis, test), r))
    (hpredicates : readPredicates r = .ok (ps, left)) :
    readStep t = .ok (⟨axis, test, ps⟩, left) := by
  rw [readStep.eq_def]
  split
  · rename_i hhead
    rw [hhead] at hdot
    exact absurd rfl hdot
  · rename_i hhead
    rw [hhead] at hdot
    exact absurd rfl hdot
  · rename_i hhead
    rw [hhead] at hat
    exact absurd rfl hat
  · exact Outcome.bind_eq_ok.mpr ⟨_, htest, Outcome.bind_eq_ok.mpr ⟨_, hpredicates, rfl⟩⟩

theorem readStep_of_isWritten {s : Standard.Step} {t rest : Text} (h : s.IsWritten t rest)
    (hrest : AfterStep rest) :
    ∃ left, readStep t = .ok (s.toStep, left) ∧ Text.trimStart left = Text.trimStart rest := by
  have hopen : (Text.trimStart rest).head? ≠ some '[' := fun hc =>
    absurd (hrest _ hc) (by decide)
  obtain ⟨c, hc, -, -, hat⟩ := h.exists_head
  have hat' : (Text.trimStart t).head? ≠ some '@' := fun heq =>
    hat (Option.some_inj.mp (hc.symm.trans heq))
  cases h with
  | parent sign =>
    rw [readStep.eq_def, sign]
    exact ⟨rest, rfl, rfl⟩
  | self sign =>
    have hdot : ∀ r, rest ≠ '.' :: r := by
      rintro r rfl
      exact absurd (hrest '.' rfl) (by decide)
    rw [readStep.eq_def, sign]
    split
    · rename_i hhead
      exact absurd (List.cons.inj hhead).2 (hdot _)
    · rename_i hhead
      rw [← (List.cons.inj hhead).2]
      exact ⟨rest, rfl, rfl⟩
    · rename_i hhead
      exact absurd (List.cons.inj hhead).1 (by decide)
    · rename_i hnot _
      exact absurd rfl (hnot rest)
  | child apart written predicates =>
    have hends := afterTest_of_predicates predicates hrest
    exact ⟨_, readStep_of_not_dot apart hat' (readAxisAndTest_of_isWritten written hends)
      (readPredicates_of_areWritten predicates hopen), Text.trimStart_trimStart rest⟩
  | @onAxis axis test es t s r rest sign written predicates =>
    have hends := afterTest_of_predicates predicates hrest
    have hread := readAxisAndTest_of_axis axis written hends
    rw [← List.append_assoc, ← sign] at hread
    refine ⟨_, readStep_of_not_dot ?_ hat' hread (readPredicates_of_areWritten predicates hopen),
      Text.trimStart_trimStart rest⟩
    rw [sign]
    cases axis <;> exact fun heq => absurd (Option.some_inj.mp heq) (by decide)

/-! ### Several steps -/

theorem Standard.Step.IsWritten.suffix {s : Standard.Step} {t rest : Text}
    (h : s.IsWritten t rest) : rest <:+ t := by
  have hall : ∀ {es t rest}, PredicatesAreWritten es t rest → rest <:+ t := by
    intro es t rest h
    induction h with
    | nil => exact List.suffix_rfl
    | cons opening predicate closing _ ih =>
      exact ((ih.trans closing.suffix).trans predicate.suffix).trans opening.suffix
  cases h with
  | parent sign => exact sign.suffix
  | self sign => exact sign.suffix
  | child _ written predicates =>
    exact ((hall predicates).trans written.suffix).trans (List.dropWhile_suffix _)
  | onAxis sign written predicates =>
    exact ((hall predicates).trans written.suffix).trans sign.suffix

theorem Standard.Step.IsWritten.fits {s : Standard.Step} {t rest : Text}
    (h : s.IsWritten t rest) : Fits t rest := by
  cases h with
  | parent sign | self sign => exact sign.fits (by decide)
  | child _ written predicates =>
    exact ((fits_trimStart t).trans written.fits).trans predicates.fits
  | @onAxis axis _ _ _ _ _ _ sign written predicates =>
    exact ((sign.fits (arePlain_axis axis)).trans written.fits).trans predicates.fits

theorem exists_steps_of_readSteps {t left : Text} {steps : List Step} (hfit : PredicatesFit t)
    (h : readSteps t = .ok (steps, left)) :
    ∃ (ss : List Standard.Step) (rest : Text), StepsAreWritten ss t rest ∧
      ss.map Standard.Step.toStep = steps ∧ left = Text.trimStart rest := by
  induction hlength : t.length using Nat.strongRecOn generalizing t steps left with
  | _ n ih =>
    subst hlength
    rw [readSteps] at h
    split at h
    · cases h
    · rename_i step behind hstep
      obtain ⟨s, r, hs, rfl, htrim⟩ := exists_step_of_readStep hfit hstep
      dsimp only at h
      split at h
      · rename_i u hslashes
        split at h
        · rename_i hlt
          obtain ⟨⟨more, rest⟩, hmore, h⟩ := Outcome.map_eq_ok.mp h
          obtain ⟨rfl, rfl⟩ := Prod.mk.inj h
          have hsign : Sign "//".toList r u := htrim.symm.trans hslashes
          obtain ⟨ss, rest', hss, rfl, rfl⟩ :=
            ih u.length hlt (hfit.of_fits (hs.fits.trans (hsign.fits (by decide)))) hmore rfl
          exact ⟨s :: .toAllBelow :: ss, rest', .slashes hs hsign hss, rfl, rfl⟩
        · cases h
      · rename_i u _ hslash
        split at h
        · rename_i hlt
          obtain ⟨⟨more, rest⟩, hmore, h⟩ := Outcome.map_eq_ok.mp h
          obtain ⟨rfl, rfl⟩ := Prod.mk.inj h
          have hsign : Sign "/".toList r u := htrim.symm.trans hslash
          obtain ⟨ss, rest', hss, rfl, rfl⟩ :=
            ih u.length hlt (hfit.of_fits (hs.fits.trans (hsign.fits (by decide)))) hmore rfl
          exact ⟨s :: ss, rest', .slash hs hsign hss, rfl, rfl⟩
        · cases h
      · obtain ⟨rfl, rfl⟩ := Prod.mk.inj (Except.ok.inj h)
        exact ⟨[s], r, .last hs, rfl, htrim⟩

/-- A union goes on here, or the expression ends: no path does. -/
def AfterPath (t : Text) : Prop := ∀ c ∈ (Text.trimStart t).head?, c = '|'

theorem AfterPath.afterStep {t : Text} (h : AfterPath t) : AfterStep t := fun c hc => .inr (h c hc)

theorem Standard.StepsAreWritten.exists_head {ss : List Standard.Step} {t rest : Text}
    (h : StepsAreWritten ss t rest) : ∃ c ∈ (Text.trimStart t).head?, c ≠ '/' ∧ c ≠ '|' := by
  cases h with
  | last step | slash step | slashes step =>
    obtain ⟨c, hc, hslash, hbar, -⟩ := step.exists_head
    exact ⟨c, hc, hslash, hbar⟩

theorem Sign.afterStep {sign t rest : Text} (h : Sign sign t rest) (hhead : sign.head? = some '/') :
    AfterStep t := by
  intro c hc
  rw [h.head?_eq (by rintro rfl; cases hhead), hhead] at hc
  exact .inl (Option.some_inj.mp hc).symm

/-- A step with the sign behind it takes a part of the text. -/
theorem Standard.Step.IsWritten.length_lt {s : Standard.Step} {sign t r u : Text}
    (h : s.IsWritten t r) (hsign : Sign sign r u) (hne : sign ≠ []) : u.length < t.length := by
  have hpos := List.length_pos_of_ne_nil hne
  have hstep := h.suffix.length_le
  have hle := hsign.length_add_le
  omega

/-- Behind a slash there is no other slash. -/
theorem Standard.StepsAreWritten.ne_slash {ss : List Standard.Step} {t rest : Text}
    (h : StepsAreWritten ss t rest) (r : Text) : t ≠ '/' :: r := by
  rintro rfl
  obtain ⟨c, hc, hslash, -⟩ := h.exists_head
  exact hslash (Option.some_inj.mp hc).symm

theorem readSteps_of_areWritten {ss : List Standard.Step} {t rest : Text}
    (h : StepsAreWritten ss t rest) (hrest : AfterPath rest) :
    readSteps t = .ok (ss.map Standard.Step.toStep, Text.trimStart rest) := by
  induction h with
  | @last s t rest step =>
    obtain ⟨left, hread, htrim⟩ := readStep_of_isWritten step hrest.afterStep
    have hne : ∀ r, Text.trimStart rest ≠ '/' :: r := fun r heq =>
      absurd (hrest '/' (by rw [heq]; rfl)) (by decide)
    rw [readSteps, hread]
    dsimp only
    rw [htrim]
    split
    · rename_i hhead
      exact absurd hhead (hne _)
    · rename_i hhead
      exact absurd hhead (hne _)
    · rfl
  | @slash s ss t r u rest step sign further ih =>
    obtain ⟨left, hread, htrim⟩ := readStep_of_isWritten step (sign.afterStep rfl)
    have hlt := step.length_lt sign (by decide)
    have hsign : Text.trimStart r = '/' :: u := sign
    rw [readSteps, hread]
    dsimp only
    rw [htrim, hsign]
    split
    · rename_i hhead
      exact absurd (List.cons.inj hhead).2 (further.ne_slash _)
    · rename_i hhead
      rw [← (List.cons.inj hhead).2, dif_pos hlt, ih hrest]
      rfl
    · rename_i hnot
      exact absurd rfl (hnot u)
  | @slashes s ss t r u rest step sign further ih =>
    obtain ⟨left, hread, htrim⟩ := readStep_of_isWritten step (sign.afterStep rfl)
    have hlt := step.length_lt sign (by decide)
    have hsign : Text.trimStart r = '/' :: '/' :: u := sign
    rw [readSteps, hread]
    simp only [htrim, hsign, dif_pos hlt, ih hrest]
    rfl

/-! ### Paths and unions -/

/-- Blanks in front of a path do not count. -/
theorem Standard.StepsAreWritten.of_trimStart {ss : List Standard.Step} {s t rest : Text}
    (h : StepsAreWritten ss s rest) (heq : Text.trimStart s = Text.trimStart t) :
    StepsAreWritten ss t rest := by
  have hstep : ∀ {step : Standard.Step} {r}, step.IsWritten s r → step.IsWritten t r := by
    intro step r h
    cases h with
    | parent sign => exact .parent (sign.of_trimStart heq)
    | self sign => exact .self (sign.of_trimStart heq)
    | child apart written predicates => exact .child (heq ▸ apart) (heq ▸ written) predicates
    | onAxis sign written predicates => exact .onAxis (sign.of_trimStart heq) written predicates
  cases h with
  | last step => exact .last (hstep step)
  | slash step sign further => exact .slash (hstep step) sign further
  | slashes step sign further => exact .slashes (hstep step) sign further

theorem exists_path_of_readPath {t left : Text} {path : LocationPath} (hfit : PredicatesFit t)
    (h : readPath t = .ok (path, left)) :
    ∃ (p : Standard.Path) (rest : Text), p.IsWritten t rest ∧ p.toPath = path ∧
      Text.trimStart left = Text.trimStart rest := by
  rw [readPath.eq_def] at h
  split at h
  · rename_i r hslashes
    obtain ⟨⟨steps, rest⟩, hread, h⟩ := Outcome.map_eq_ok.mp h
    obtain ⟨rfl, rfl⟩ := Prod.mk.inj h
    have hsign : Sign "//".toList t r := hslashes
    obtain ⟨ss, rest', hss, rfl, rfl⟩ :=
      exists_steps_of_readSteps (hfit.of_fits (hsign.fits (by decide))) hread
    exact ⟨⟨true, .toAllBelow :: ss⟩, rest', .anywhere hsign hss, rfl,
      Text.trimStart_trimStart rest'⟩
  · rename_i r _ hslash
    have hsign : Sign "/".toList t r := hslash
    dsimp only at h
    split at h
    · obtain ⟨rfl, rfl⟩ := Prod.mk.inj (Except.ok.inj h)
      exact ⟨⟨true, []⟩, r, .document hsign, rfl, Text.trimStart_trimStart r⟩
    · obtain ⟨⟨steps, rest⟩, hread, h⟩ := Outcome.map_eq_ok.mp h
      obtain ⟨rfl, rfl⟩ := Prod.mk.inj h
      have hfit' := hfit.of_fits ((hsign.fits (by decide)).trans (fits_trimStart r))
      obtain ⟨ss, rest', hss, rfl, rfl⟩ := exists_steps_of_readSteps hfit' hread
      exact ⟨⟨true, ss⟩, rest', .absolute hsign (hss.of_trimStart (Text.trimStart_trimStart r)),
        rfl, Text.trimStart_trimStart rest'⟩
  · obtain ⟨⟨steps, rest⟩, hread, h⟩ := Outcome.map_eq_ok.mp h
    obtain ⟨rfl, rfl⟩ := Prod.mk.inj h
    obtain ⟨ss, rest', hss, rfl, rfl⟩ := exists_steps_of_readSteps (hfit.of_fits (fits_trimStart t)) hread
    exact ⟨⟨false, ss⟩, rest', .relative (hss.of_trimStart (Text.trimStart_trimStart t)), rfl,
      Text.trimStart_trimStart rest'⟩

/-- Behind one slash stand the steps, or nothing. -/
theorem readPath_slash {t r : Text} (h : Sign "/".toList t r) (hr : ∀ u, r ≠ '/' :: u) :
    readPath t =
      if (Text.trimStart r).head?.all (· == '|') then .ok (⟨true, []⟩, Text.trimStart r)
      else (readSteps (Text.trimStart r)).map fun (steps, rest) => (⟨true, steps⟩, rest) := by
  have hhead : Text.trimStart t = '/' :: r := h
  rw [readPath.eq_def, hhead]
  split
  · rename_i heq
    exact absurd (List.cons.inj heq).2 (hr _)
  · rename_i heq
    rw [(List.cons.inj heq).2]
  · rename_i hnot
    exact absurd rfl (hnot r)

theorem readPath_of_isWritten {p : Standard.Path} {t rest : Text} (h : p.IsWritten t rest)
    (hrest : AfterPath rest) : readPath t = .ok (p.toPath, Text.trimStart rest) := by
  cases h with
  | document sign =>
    have hne : ∀ r, rest ≠ '/' :: r := by
      rintro r rfl
      exact absurd (hrest '/' rfl) (by decide)
    have hall : (Text.trimStart rest).head?.all (· == '|') = true := by
      cases hhead : (Text.trimStart rest).head? with
      | none => rfl
      | some c => exact beq_iff_eq.mpr (hrest c hhead)
    rw [readPath_slash sign hne, if_pos hall]
    rfl
  | @absolute ss t r rest sign steps =>
    have hsome : ¬ (Text.trimStart r).head?.all (· == '|') = true := by
      obtain ⟨c, hc, -, hbar⟩ := steps.exists_head
      rw [Option.mem_def.mp hc]
      exact fun hall => hbar (beq_iff_eq.mp hall)
    have hsteps := steps.of_trimStart (Text.trimStart_trimStart r).symm
    rw [readPath_slash sign steps.ne_slash, if_neg hsome, readSteps_of_areWritten hsteps hrest]
    rfl
  | @anywhere ss t r rest sign steps =>
    have hhead : Text.trimStart t = '/' :: '/' :: r := sign
    rw [readPath.eq_def, hhead]
    show (readSteps r).map _ = _
    rw [readSteps_of_areWritten steps hrest]
    rfl
  | @relative ss t rest steps =>
    have hsteps := steps.of_trimStart (Text.trimStart_trimStart t).symm
    rw [readPath.eq_def]
    split
    · rename_i hhead
      exact absurd hhead (hsteps.ne_slash _)
    · rename_i hhead
      exact absurd hhead (hsteps.ne_slash _)
    · rw [readSteps_of_areWritten hsteps hrest]
      rfl

theorem Standard.Path.IsWritten.suffix {p : Standard.Path} {t rest : Text}
    (h : p.IsWritten t rest) : rest <:+ t := by
  have hall : ∀ {ss t rest}, StepsAreWritten ss t rest → rest <:+ t := by
    intro ss t rest h
    induction h with
    | last step => exact step.suffix
    | slash step sign _ ih | slashes step sign _ ih =>
      exact (ih.trans sign.suffix).trans step.suffix
  cases h with
  | document sign => exact sign.suffix
  | absolute sign steps | anywhere sign steps => exact (hall steps).trans sign.suffix
  | relative steps => exact hall steps

theorem Standard.StepsAreWritten.fits {ss : List Standard.Step} {t rest : Text}
    (h : StepsAreWritten ss t rest) : Fits t rest := by
  induction h with
  | last step => exact step.fits
  | slash step sign _ ih | slashes step sign _ ih =>
    exact (step.fits.trans (sign.fits (by decide))).trans ih

theorem Standard.Path.IsWritten.fits {p : Standard.Path} {t rest : Text}
    (h : p.IsWritten t rest) : Fits t rest := by
  cases h with
  | document sign => exact sign.fits (by decide)
  | absolute sign steps | anywhere sign steps => exact (sign.fits (by decide)).trans steps.fits
  | relative steps => exact steps.fits

/-- In what is written no predicate starts with a number that is out of bounds. -/
theorem Standard.PathsAreWritten.predicatesFit {ps : List Standard.Path} {t : Text}
    (h : PathsAreWritten ps t) : PredicatesFit t := by
  have hend : ∀ {ps t}, PathsAreWritten ps t → Fits t [] := by
    intro ps t h
    induction h with
    | @last p t rest path blank =>
      refine path.fits.trans (.of_eq ?_)
      rw [← openings_trimStart, blank]
    | bar path sign _ ih => exact (path.fits.trans (sign.fits (by decide))).trans ih
  exact (hend h).predicatesFit rfl

theorem exists_paths_of_readPaths {t : Text} {paths : List LocationPath} (hfit : PredicatesFit t)
    (h : readPaths t = .ok paths) :
    ∃ ps, PathsAreWritten ps t ∧ ps.map Standard.Path.toPath = paths := by
  induction hlength : t.length using Nat.strongRecOn generalizing t paths with
  | _ n ih =>
    subst hlength
    rw [readPaths] at h
    split at h
    · cases h
    · rename_i path behind hpath
      obtain ⟨p, rest, hp, rfl, htrim⟩ := exists_path_of_readPath hfit hpath
      split at h
      · rename_i hnil
        obtain rfl := Except.ok.inj h
        exact ⟨[p], .last hp (htrim.symm.trans hnil), rfl⟩
      · rename_i c r hcons
        split at h
        · rename_i hbar
          obtain ⟨rfl, hlt⟩ := hbar
          obtain ⟨more, hmore, rfl⟩ := Outcome.map_eq_ok.mp h
          have hsign : Sign ['|'] rest r := htrim.symm.trans hcons
          obtain ⟨ps, hps, rfl⟩ :=
            ih r.length hlt (hfit.of_fits (hp.fits.trans (hsign.fits (by decide)))) hmore rfl
          exact ⟨p :: ps, .bar hp hsign hps, rfl⟩
        · cases h

theorem readPaths_of_areWritten {ps : List Standard.Path} {t : Text} (h : PathsAreWritten ps t) :
    readPaths t = .ok (ps.map Standard.Path.toPath) := by
  induction h with
  | @last p t rest path blank =>
    have hafter : AfterPath rest := fun c hc => by
      rw [blank] at hc
      cases hc
    rw [readPaths, readPath_of_isWritten path hafter]
    dsimp only
    rw [Text.trimStart_trimStart, blank]
    rfl
  | @bar p ps t r rest path sign further ih =>
    have hafter : AfterPath r := fun c hc => by
      rw [sign.head?_eq (by decide)] at hc
      exact (Option.some_inj.mp hc).symm
    have hlt : rest.length < t.length := by
      have hsign := sign.length_add_le
      have hpath := path.suffix.length_le
      rw [List.length_singleton] at hsign
      omega
    have hbar : Text.trimStart r = '|' :: rest := sign
    rw [readPaths, readPath_of_isWritten path hafter]
    dsimp only
    rw [Text.trimStart_trimStart, hbar]
    dsimp only
    rw [if_pos ⟨rfl, hlt⟩, ih]
    rfl

/-- **What is written is read.** -/
theorem ofText_of_isWritten {q : Standard.Query} {t : Text} (h : q.IsWritten t) :
    ofText t = .ok q.toXPath := by
  rw [ofText, readPaths_of_areWritten h]
  rfl

/-- **What is read is written**, if no predicate starts with a number that is out of bounds. -/
theorem exists_isWritten_of_predicatesFit {t : Text} {x : XPath} (hfit : PredicatesFit t)
    (h : ofText t = .ok x) : ∃ q : Standard.Query, q.IsWritten t ∧ q.toXPath = x := by
  rw [ofText] at h
  split at h
  · rename_i paths hread
    obtain rfl := Except.ok.inj h
    obtain ⟨ps, hps, rfl⟩ := exists_paths_of_readPaths hfit hread
    exact ⟨⟨ps⟩, hps, rfl⟩
  · cases h

theorem exists_isWritten_of_ofText {t : Text} {x : XPath} (hfit : NumbersFit t)
    (h : ofText t = .ok x) : ∃ q : Standard.Query, q.IsWritten t ∧ q.toXPath = x :=
  exists_isWritten_of_predicatesFit hfit.predicatesFit h

end XPath
end CosmeticFilter
