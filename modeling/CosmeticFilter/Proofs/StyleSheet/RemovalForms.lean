import CosmeticFilter.Proofs.Extended.BlankRuns
import CosmeticFilter.Proofs.StyleSheet.RemovalMarks
import CosmeticFilter.Proofs.StyleSheet.SingleRule

/-!
# The two forms of a removal

A removal is written as a block, `a { remove: true }`, or as a mark behind the selector,
`a:remove()`. The block begins at the last opening brace that leaves a good rule, so the selector in
front of it may hold braces and stray apostrophes. The rule with the mark has no block: the first
closing brace would end it, any opening brace would begin one, and behind a stray apostrophe the
mark is not found.

* `takesMark`: neither brace nor mark in the selector, and no quote or bracket left open;
* `compileSingle_removalMark_iff`: the mark does what the block does exactly if the selector takes
  it.
-/

namespace CosmeticFilter

namespace Extended

/-- The normal form drops blanks and nothing else. -/
theorem withoutBlanks_normalForm (t : Text) :
    Text.withoutBlanks (normalForm t) = Text.withoutBlanks t := by
  have hfrom : ∀ (u : Text) (s : Nesting) (owed : Bool),
      Text.withoutBlanks (normalFrom s owed u) = Text.withoutBlanks u := by
    intro u
    induction u with
    | nil => intro s owed; rfl
    | cons c r ih =>
      intro s owed
      rw [normalFrom]
      split
      · rename_i hblank
        rw [ih, Text.withoutBlanks_cons_of_blank (Bool.and_eq_true_iff.mp hblank).2]
      · have howed : Text.withoutBlanks (if owed then [' '] else []) = [] := by
          cases owed <;> decide
        rw [Text.withoutBlanks_append, howed, List.nil_append]
        simp only [Text.withoutBlanks, List.filter_cons] at ih ⊢
        rw [ih]
  rw [normalForm, hfrom, Text.withoutBlanks_trim]

end Extended

namespace StyleSheet

/-- The block of a removal. -/
def removalBlock : Text := " \x7b remove: true \x7d".toList

/-- A mark behind the selector is found there, and no other one. -/
def takesMark (t : Text) : Bool :=
  !t.contains '\x7b' && !t.contains '\x7d' && (Nesting.top.after .roundAndSquare t).isTop &&
    (removalMarks t).isEmpty

theorem takesMark_iff {t : Text} :
    takesMark t = true ↔
      (('\x7b' ∉ t ∧ '\x7d' ∉ t) ∧ (Nesting.top.after .roundAndSquare t).isTop = true) ∧
        removalMarks t = [] := by
  simp [takesMark]

/-- What a removal comes to. -/
def removalData (selector : Text) (tree : Extended.Selector) : RuleData where
  selector := Extended.normalForm selector
  tree := tree
  style := some [⟨"remove".toList, "true".toList⟩]
  debug := none

/-! ### Taking off the mark -/

variable {t u : Text}

theorem stripRemoval_congr (h : Text.trim t = Text.trim u) : stripRemoval t = stripRemoval u := by
  simp only [stripRemoval, h]

theorem stripRemoval_of_no_marks (h : removalMarks t = []) :
    stripRemoval t = .ok (Text.trim t, false) := by
  simp only [stripRemoval, (removalMarks_trim_eq_nil_iff t).mpr h]

theorem trim_append_removalMark (ht : Text.trimStart t ≠ []) :
    Text.trim (t ++ removalMark) = Text.trimStart t ++ removalMark := by
  rw [Text.trim, Text.trimStart_append ht, Text.trimEnd_append (by decide)]
  rfl

theorem trim_append_removalBlock (ht : Text.trimStart t ≠ []) :
    Text.trim (t ++ removalBlock) = Text.trimStart t ++ removalBlock := by
  rw [Text.trim, Text.trimStart_append ht, Text.trimEnd_append (by decide)]
  rfl

/-- The marks of a selector with a mark behind it. -/
theorem removalMarks_trim_append (ht : Text.trimStart t ≠ []) :
    removalMarks (Text.trim (t ++ removalMark)) =
      (removalMarks (Text.trimStart t)).map (fun (x, y) => (x, y ++ removalMark)) ++
        if (Nesting.top.after .roundAndSquare t).isTop then [(Text.trimStart t, [])] else [] := by
  rw [trim_append_removalMark ht, removalMarks_append_removalMark, Nesting.after_trimStart]

theorem stripRemoval_append_of_isTop (ht : Text.trimStart t ≠ []) (h : removalMarks t = [])
    (htop : (Nesting.top.after .roundAndSquare t).isTop = true) :
    stripRemoval (t ++ removalMark) = .ok (Text.trim t, true) := by
  have hmarks := removalMarks_trim_append ht
  rw [(removalMarks_trimStart_eq_nil_iff t).mpr h, if_pos htop, List.map_nil,
    List.nil_append] at hmarks
  simp only [stripRemoval, hmarks, if_true]
  rfl

theorem stripRemoval_append_of_not_isTop (ht : Text.trimStart t ≠ []) (h : removalMarks t = [])
    (htop : ¬ (Nesting.top.after .roundAndSquare t).isTop = true) :
    stripRemoval (t ++ removalMark) = .ok (Text.trimStart t ++ removalMark, false) := by
  have hmarks := removalMarks_trim_append ht
  rw [(removalMarks_trimStart_eq_nil_iff t).mpr h, if_neg htop, List.map_nil,
    List.nil_append] at hmarks
  simp only [stripRemoval, hmarks]
  rw [trim_append_removalMark ht]

/-- A mark behind a mark: the first one is not last, or there are two. -/
theorem stripRemoval_append_of_marks (ht : Text.trimStart t ≠ []) (h : removalMarks t ≠ []) :
    ∃ e, stripRemoval (t ++ removalMark) = .error e := by
  have hmarks := removalMarks_trim_append ht
  have hne := mt (removalMarks_trimStart_eq_nil_iff t).mp h
  obtain ⟨⟨x, y⟩, later, hfirst⟩ := List.exists_cons_of_ne_nil hne
  rw [hfirst, List.map_cons, List.cons_append] at hmarks
  have hlast : y ++ removalMark ≠ [] := List.append_ne_nil_of_right_ne_nil _ (by decide)
  unfold stripRemoval
  simp only [hmarks]
  split
  · exact absurd ‹_› (by simp)
  · rename_i before after hone
    obtain ⟨rfl, rfl⟩ := Prod.mk.inj (List.cons.inj hone).1
    rw [if_neg hlast]
    exact ⟨_, rfl⟩
  · exact ⟨_, rfl⟩

/-! ### Compiling both forms -/

/-- The declaration of the block makes a removal, and the mark makes the same one. -/
theorem finish_removalBlock (o : Options) (selector : Text) (tree : Extended.Selector)
    (marked : Bool) :
    (Entry.ofRule ⟨Extended.normalForm selector, tree,
      [⟨"remove".toList, "true".toList⟩], marked⟩).finish o = removalData selector tree := by
  obtain ⟨keeps, reports⟩ := o
  cases marked <;> cases keeps <;> rfl

theorem finish_removalMark (o : Options) (selector : Text) (tree : Extended.Selector) :
    (Entry.ofRule ⟨Extended.normalForm selector, tree, [], true⟩).finish o =
      removalData selector tree := by
  obtain ⟨keeps, reports⟩ := o
  cases keeps <;> rfl

/-- The text of a block that removes, behind its opening brace, makes one declaration. -/
theorem eq_of_ruleOf_removalBlock {rule selector : Text} {marked : Bool}
    {tree : Extended.Selector} {compiled : Rule}
    (h : ruleOf rule selector marked tree " remove: true \x7d".toList = .ok compiled) :
    ∃ isRemoval, compiled = ⟨Extended.normalForm selector, tree,
      [⟨"remove".toList, "true".toList⟩], isRemoval⟩ := by
  have hdrop : dropBrace? " remove: true \x7d".toList = some " remove: true ".toList := by decide
  have hblock : ∀ mayBeEmpty, Declaration.readBlock mayBeEmpty " remove: true ".toList =
      .ok [⟨"remove".toList, "true".toList⟩] := by decide +kernel
  simp only [ruleOf, hdrop, hblock] at h
  exact ⟨_, (Except.ok.inj h).symm⟩

theorem getLast?_trimStart_append {d : Char} (h : u.getLast? = some d) :
    ∀ c ∈ (Text.trimStart (t ++ u)).getLast?, c = d := by
  intro c hc
  obtain ⟨b, -, heq⟩ := Text.exists_trimStart_append (t ++ u)
  have hu : u ≠ [] := by
    rintro rfl
    exact absurd h (by simp)
  have hne : Text.trimStart (t ++ u) ≠ [] := fun hnil => by
    rw [hnil] at hc
    exact absurd hc (by simp)
  have hlast := congrArg List.getLast? heq
  rw [List.getLast?_append_of_ne_nil _ hu, List.getLast?_append_of_ne_nil _ hne, h,
    Option.mem_def.mp hc] at hlast
  exact (Option.some_inj.mp hlast).symm

variable {o : Options} {data : RuleData}

/-- What the rule with the block comes to, if no other brace can begin the block. -/
theorem exists_of_compileSingle_removalBlock
    (h : ((Compiler.ofOptions o).compileSingle (t ++ removalBlock)).1 = .ok data) :
    Text.trimStart t ≠ [] ∧ ('\x7b' ∉ t → checkSupported (Text.trimStart t) = .ok () ∧
      ∃ selector marked tree, stripRemoval t = .ok (selector, marked) ∧
        Extended.Selector.ofText selector = .ok tree ∧ data = removalData selector tree) := by
  obtain ⟨hsupported, rule, compiled, hone, hrule, rfl⟩ := compileSingle_eq_ok_iff.mp h
  have htrim := eq_trim_of_single hone
  subst htrim
  obtain ⟨-, hhead, -, hfirst⟩ := compileRule_eq_ok hrule
  rw [Text.trim_trim] at hhead hfirst
  have ht : Text.trimStart t ≠ [] := by
    intro hblank
    rw [Text.trim, Text.trimStart_append_of_blank hblank] at hhead
    exact hhead (by decide)
  refine ⟨ht, fun hbrace => ?_⟩
  rw [trim_append_removalBlock ht] at hsupported hfirst
  refine ⟨(checkSupported_append_eq_ok_iff ht (by decide)).mp hsupported, ?_⟩
  have hstart : '\x7b' ∉ Text.trimStart t := fun hmem =>
    hbrace ((List.dropWhile_sublist _).mem hmem)
  have hsplits : braceSplits (Text.trimStart t ++ removalBlock) =
      [(Text.trimStart t ++ [' '], " remove: true \x7d".toList)] := by
    rw [braceSplits_append hstart]
    rfl
  rcases hfirst with hfirst | ⟨hnone, -⟩
  · rw [hsplits, List.reverse_singleton, compileFirst_single] at hfirst
    obtain ⟨selector, marked, tree, hstrip, -, hread, hblock⟩ :=
      compileCandidate_eq_ok (Option.some_inj.mp hfirst)
    have hsame : Text.trim (Text.trimStart t ++ [' ']) = Text.trim t := by
      rw [Text.trim, Text.trimStart_append (by rwa [Text.trimStart_trimStart]),
        Text.trimStart_trimStart, Text.trimEnd_append_of_blank (by decide), Text.trim]
    rw [stripRemoval_congr hsame] at hstrip
    obtain ⟨isRemoval, rfl⟩ := eq_of_ruleOf_removalBlock hblock
    exact ⟨selector, marked, tree, hstrip, hread, finish_removalBlock ..⟩
  · exact absurd (List.mem_append_right _ (by decide)) hnone

/-- What the rule with the mark comes to. -/
theorem compileSingle_removalMark_eq_ok_iff (ht : Text.trimStart t ≠ []) :
    ((Compiler.ofOptions o).compileSingle (t ++ removalMark)).1 = .ok data ↔
      ('\x7b' ∉ t ∧ '\x7d' ∉ t) ∧ checkSupported (Text.trimStart t) = .ok () ∧
        ∃ selector marked tree, stripRemoval (t ++ removalMark) = .ok (selector, marked) ∧
          Extended.Selector.ofText selector = .ok tree ∧ (marked || tree.hasRemoval) = true ∧
          data = removalData selector tree := by
  have hstart := Text.trimStart_append ht removalMark
  have htrim := trim_append_removalMark ht
  have hne : Text.trimStart t ++ removalMark ≠ [] := List.append_ne_nil_of_left_ne_nil ht _
  have hsupported := checkSupported_append_eq_ok_iff (u := removalMark) ht (by decide)
  have hstrip : stripRemoval (Text.trim (t ++ removalMark)) = stripRemoval (t ++ removalMark) :=
    stripRemoval_congr (Text.trim_trim _)
  -- a blank is no brace, so the braces of the trimmed text are those of the text
  have hbraces : ∀ c, Text.isBlank c = false → c ∉ removalMark →
      (c ∈ Text.trimStart t ++ removalMark ↔ c ∈ t) := by
    intro c hc hmark
    obtain ⟨b, hb, heq⟩ := Text.exists_trimStart_append t
    conv_rhs => rw [heq]
    have hblank : c ∉ b := fun hmem => by
      rw [hb c hmem] at hc
      exact absurd hc (by simp)
    rw [List.mem_append, List.mem_append]
    simp [hmark, hblank]
  have hopening := hbraces '\x7b' (by decide) (by decide)
  have hclosing := hbraces '\x7d' (by decide) (by decide)
  rw [compileSingle_eq_ok_iff, htrim, hsupported]
  constructor
  · rintro ⟨hok, rule, compiled, hone, hrule, rfl⟩
    have hlast : ∀ c ∈ (Text.trimStart (t ++ removalMark)).getLast?,
        Text.isBlank c = false ∧ c ≠ '\x7d' := fun c hc => by
      rw [getLast?_trimStart_append (d := ')') (by decide) c hc]
      decide
    have hclosed := not_mem_of_single hone hlast
    rw [hstart, hclosing] at hclosed
    have hwhole := eq_trim_of_single hone
    subst hwhole
    have hopened : '\x7b' ∉ t := fun hmem => by
      have hend := getLast?_of_compileRule hrule
        (by rw [Text.trim_trim, htrim]; exact hopening.mpr hmem)
      rw [Text.trim_trim, htrim, List.getLast?_append_of_ne_nil _ (by decide)] at hend
      exact absurd hend (by decide)
    obtain ⟨-, -, -, hfirst | ⟨-, hbare⟩⟩ := compileRule_eq_ok hrule
    · rw [Text.trim_trim, htrim, braceSplits_eq_nil_iff.mpr (mt hopening.mp hopened),
        List.reverse_nil, compileFirst] at hfirst
      exact absurd hfirst (by simp)
    · rw [Text.trim_trim, compileBare_eq_ok_iff, hstrip] at hbare
      obtain ⟨selector, marked, tree, hmarks, hread, hremoval, rfl⟩ := hbare
      exact ⟨⟨hopened, hclosed⟩, hok, selector, marked, tree, hmarks, hread, hremoval,
        finish_removalMark ..⟩
  · rintro ⟨⟨hopened, hclosed⟩, hok, selector, marked, tree, hmarks, hread, hremoval, rfl⟩
    have hone : ruleTexts (t ++ removalMark) = [Text.trim (t ++ removalMark)] := by
      refine ruleTexts_of_not_mem (by rw [hstart]; exact hne) fun hmem => ?_
      rcases List.mem_append.mp hmem with hmem | hmem
      · exact hclosed hmem
      · exact absurd hmem (by decide)
    refine ⟨hok, _, ⟨Extended.normalForm selector, tree, [], true⟩, hone, ?_,
      (finish_removalMark ..).symm⟩
    rw [compileRule_of_no_brace (by rwa [Text.trim_trim, htrim])
      (by rw [Text.trim_trim, htrim]; exact hsupported.mpr hok)
      (by rw [Text.trim_trim, htrim]; exact mt hopening.mp hopened), Text.trim_trim,
      compileBare_eq_ok_iff, hstrip]
    exact ⟨selector, marked, tree, hmarks, hread, hremoval, rfl⟩

/-- What stands behind a selector stays in its normal form, if it starts with no blank. -/
theorem normalForm_append_cons_ne {c : Char} (hc : Text.isBlank c = false) (t u : Text) :
    Extended.normalForm (Text.trimStart t ++ c :: u) ≠ Extended.normalForm (Text.trim t) := by
  intro heq
  have hlength := congrArg (fun u => (Text.withoutBlanks u).length) heq
  have hstart : Text.withoutBlanks (Text.trimStart t) = Text.withoutBlanks t := by
    obtain ⟨b, hb, heq⟩ := Text.exists_trimStart_append t
    conv_rhs => rw [heq, Text.withoutBlanks_append, Text.withoutBlanks_eq_nil hb, List.nil_append]
  have hkept : Text.withoutBlanks (c :: u) = c :: Text.withoutBlanks u :=
    Text.withoutBlanks_cons_of_not_blank (by rw [hc]; exact Bool.false_ne_true) u
  simp only [Extended.withoutBlanks_normalForm, Text.withoutBlanks_append,
    Text.withoutBlanks_trim, hstart, hkept, List.length_append, List.length_cons] at hlength
  omega

/-- **Two forms of a removal.** Where the block makes a rule, the mark makes the same rule exactly
if the selector has neither braces nor marks and leaves no quote and no bracket open. -/
theorem compileSingle_removalMark_iff (o : Options) {t : Text} {data : RuleData}
    (hblock : ((Compiler.ofOptions o).compileSingle (t ++ removalBlock)).1 = .ok data) :
    ((Compiler.ofOptions o).compileSingle (t ++ removalMark)).1 = .ok data ↔
      takesMark t = true := by
  obtain ⟨ht, hdata⟩ := exists_of_compileSingle_removalBlock hblock
  rw [compileSingle_removalMark_eq_ok_iff ht, takesMark_iff]
  constructor
  · rintro ⟨hbraces, -, selector, marked, tree, hstrip, -, -, heq⟩
    have hmarks : removalMarks t = [] := by
      by_contra hne
      obtain ⟨e, herror⟩ := stripRemoval_append_of_marks ht hne
      rw [herror] at hstrip
      exact absurd hstrip (by simp)
    refine ⟨⟨hbraces, ?_⟩, hmarks⟩
    by_contra htop
    obtain ⟨-, selector', marked', tree', hstrip', -, heq'⟩ := hdata hbraces.1
    rw [stripRemoval_append_of_not_isTop ht hmarks htop] at hstrip
    rw [stripRemoval_of_no_marks hmarks] at hstrip'
    obtain ⟨rfl, -⟩ := Prod.mk.inj (Except.ok.inj hstrip)
    obtain ⟨rfl, -⟩ := Prod.mk.inj (Except.ok.inj hstrip')
    rw [removalMark_eq] at heq
    exact normalForm_append_cons_ne (by decide) t _
      (congrArg RuleData.selector (heq.symm.trans heq'))
  · rintro ⟨⟨hbraces, htop⟩, hmarks⟩
    obtain ⟨hsupported, selector, marked, tree, hstrip, hread, rfl⟩ := hdata hbraces.1
    rw [stripRemoval_of_no_marks hmarks] at hstrip
    obtain ⟨rfl, -⟩ := Prod.mk.inj (Except.ok.inj hstrip)
    exact ⟨hbraces, hsupported, Text.trim t, true, tree,
      stripRemoval_append_of_isTop ht hmarks htop, hread, rfl, rfl⟩

/-- A selector with quotes and a colon in an argument, and blanks around it. -/
def quotedArgument : Text := " div:contains(\"it's: so\") > p , b:has(> a) ".toList

/-- The quotes are closed, so both forms make the same rule. -/
theorem compileSingle_removalMark_quotedArgument :
    takesMark quotedArgument = true ∧ ∃ data,
      ((Compiler.ofOptions .default).compileSingle (quotedArgument ++ removalBlock)).1 = .ok data ∧
      ((Compiler.ofOptions .default).compileSingle (quotedArgument ++ removalMark)).1 =
        .ok data := by
  have htakes : takesMark quotedArgument = true := by decide +kernel
  obtain ⟨data, hblock⟩ := exists_of_isOk (x := ((Compiler.ofOptions .default).compileSingle
    (quotedArgument ++ removalBlock)).1) (by decide +kernel)
  exact ⟨htakes, data, hblock, (compileSingle_removalMark_iff .default hblock).mpr htakes⟩

/-- A selector with an apostrophe that it reads as text. -/
def apostropheArgument : Text := "div:contains(it's)".toList

/-- Behind the apostrophe the mark is taken for a part of the selector. -/
theorem not_compileSingle_removalMark :
    ¬ ∀ (o : Options) (t : Text) (tree : Extended.Selector) (data : RuleData),
      Extended.Selector.ofText t = .ok tree → Text.occursIn ":remove".toList t = false →
      Text.occursIn "/*".toList t = false → t.getLast? ≠ some '\\' →
      ((Compiler.ofOptions o).compileSingle (t ++ removalBlock)).1 = .ok data →
      ((Compiler.ofOptions o).compileSingle (t ++ removalMark)).1 = .ok data := by
  intro h
  obtain ⟨tree, hread⟩ := exists_of_isOk (x := Extended.Selector.ofText apostropheArgument)
    (by decide +kernel)
  obtain ⟨data, hblock⟩ := exists_of_isOk (x := ((Compiler.ofOptions .default).compileSingle
    (apostropheArgument ++ removalBlock)).1) (by decide +kernel)
  have hmark := h .default apostropheArgument tree data hread (by decide) (by decide) (by decide)
    hblock
  have hdiffer : ((Compiler.ofOptions .default).compileSingle
      (apostropheArgument ++ removalMark)).1 ≠
        ((Compiler.ofOptions .default).compileSingle (apostropheArgument ++ removalBlock)).1 := by
    decide +kernel
  exact hdiffer (hmark.trans hblock.symm)

end StyleSheet
end CosmeticFilter
