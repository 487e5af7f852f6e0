import CosmeticFilter.Proofs.StyleSheet.SingleRule

/-!
# A rule by itself and a style sheet of one rule

The same text can be compiled as a single rule or as a style sheet. For a single rule the text is
looked at before it is cut: at-rules and comments are refused at once. That changes no verdict, as a
text that is one rule is that rule with blanks around it, and the rule is looked at again. It may
change the error: a rule that starts with its block and has a comment is refused for the one here,
for the other there.

* `compileRule_of_checkSupported`: a rule that is refused at once is refused later, too;
* `exists_compileRule_error`: the error of a single rule and that of the rule in a style sheet;
* `compile_of_ok`, `compile_of_error`: what a style sheet of one rule comes to;
* `compileSingle_iff_compile`: a single rule is accepted if it is the one rule of a style sheet that
  leaves no warning.
-/

namespace CosmeticFilter
namespace StyleSheet

variable {c : Compiler} {t rule : Text} {compiled : Rule} {e : Error} {data : RuleData}

/-! ### The rule -/

theorem ne_nil_of_single (h : ruleTexts t = [rule]) : rule ≠ [] := by
  rintro rfl
  have hblank := Text.trim_eq_nil_iff.mp (eq_trim_of_single h).symm
  rw [ruleTexts_of_blank (Text.trimStart_eq_nil_iff.mpr hblank)] at h
  cases h

/-- A rule that is not supported is refused, if only for the block that it starts with. -/
theorem compileRule_of_checkSupported {cache : Extended.Cache} (hne : Text.trim t ≠ [])
    (h : checkSupported (Text.trim t) = .error e) :
    ∃ e', (compileRule cache t).1 = .error e' ∧
      ((Text.trim t).head? ≠ some '\x7b' → e' = e) := by
  unfold compileRule
  simp only [if_neg hne, h]
  by_cases hbrace : (Text.trim t).head? = some '\x7b'
  · rw [if_pos hbrace]
    exact ⟨_, rfl, fun hne => absurd hbrace hne⟩
  · rw [if_neg hbrace]
    exact ⟨e, rfl, fun _ => rfl⟩

/-- A text that is one rule and is refused as a single rule is refused as that rule. -/
theorem exists_compileRule_error (h : ruleTexts t = [rule])
    (hsingle : (c.compileSingle t).1 = .error e) :
    ∃ e', (compileRule c.cache rule).1 = .error e' ∧ (rule.head? ≠ some '\x7b' → e' = e) := by
  have htrim := eq_trim_of_single h
  have hrule : Text.trim rule = rule := by rw [htrim, Text.trim_trim]
  unfold Compiler.compileSingle at hsingle
  rw [← htrim] at hsingle
  cases hsupported : checkSupported rule with
  | error e₀ =>
    rw [hsupported] at hsingle
    obtain rfl := Except.error.inj hsingle
    have hne : Text.trim rule ≠ [] := by
      rw [hrule]
      exact ne_nil_of_single h
    have hrefused : ∃ e', (compileRule c.cache rule).1 = .error e' ∧
        ((Text.trim rule).head? ≠ some '\x7b' → e' = e₀) :=
      compileRule_of_checkSupported hne (hrule.symm ▸ hsupported)
    rwa [hrule] at hrefused
  | ok =>
    rw [hsupported, h] at hsingle
    rcases hcompiled : compileRule c.cache rule with ⟨e' | compiled, cache⟩ <;>
      simp only [hcompiled] at hsingle
    · exact ⟨e', rfl, fun _ => Except.error.inj hsingle⟩
    · cases hsingle

/-! ### The style sheet -/

namespace Compiler

theorem compile_of_ok (h : ruleTexts t = [rule])
    (hrule : (compileRule c.cache rule).1 = .ok compiled) :
    (c.compile [t]).1 = finish c.options [compiled] [] := by
  rcases hcompiled : compileRule c.cache rule with ⟨result, cache⟩
  rw [hcompiled] at hrule
  obtain rfl : result = .ok compiled := hrule
  simp only [compile, List.flatMap_singleton, h, readAll, hcompiled]

theorem compile_of_error (h : ruleTexts t = [rule])
    (hrule : (compileRule c.cache rule).1 = .error e) :
    (c.compile [t]).1 = ⟨[], [warningOf rule e], false⟩ := by
  rcases hcompiled : compileRule c.cache rule with ⟨result, cache⟩
  rw [hcompiled] at hrule
  obtain rfl : result = .error e := hrule
  simp only [compile, List.flatMap_singleton, h, readAll, hcompiled]
  rfl

/-- What a style sheet of one rule comes to if the rule is accepted by itself. -/
theorem compile_of_compileSingle (h : (c.compileSingle t).1 = .ok data) :
    (∃ rule, ruleTexts t = [rule]) ∧
      (c.compile [t]).1 = ⟨[data], [], data.debug == some .all⟩ := by
  obtain ⟨-, rule, compiled, hone, hrule, rfl⟩ := compileSingle_eq_ok_iff.mp h
  refine ⟨⟨rule, hone⟩, (compile_of_ok hone hrule).trans ?_⟩
  simp [finish, merge, add]

/-- **A rule by itself.** A text is accepted as a single rule exactly if it is cut into one rule and
comes to that rule, without a warning, as a style sheet; then every rule is watched exactly if the
rule asks for it. If it is cut into one rule and refused, then all that the style sheet leaves is a
warning that starts with the rule; the error is the same in both, unless the rule starts with its
block. -/
theorem compileSingle_iff_compile (c : Compiler) (t : Text) :
    (∀ data, (c.compileSingle t).1 = .ok data ↔
        (∃ rule, ruleTexts t = [rule]) ∧ (c.compile [t]).1.rules = [data] ∧
          (c.compile [t]).1.warnings = []) ∧
      (∀ data, (c.compileSingle t).1 = .ok data →
        ((c.compile [t]).1.debugsAll = true ↔ data.debug = some .all)) ∧
      ∀ rule e, ruleTexts t = [rule] → (c.compileSingle t).1 = .error e →
        ∃ e', (c.compile [t]).1 = ⟨[], [warningOf rule e'], false⟩ ∧
          rule <+: warningOf rule e' ∧ (rule.head? ≠ some '\x7b' → e' = e) := by
  have hrefused : ∀ rule e, ruleTexts t = [rule] → (c.compileSingle t).1 = .error e →
      ∃ e', (c.compile [t]).1 = ⟨[], [warningOf rule e'], false⟩ ∧
        rule <+: warningOf rule e' ∧ (rule.head? ≠ some '\x7b' → e' = e) := by
    intro rule e hone hsingle
    obtain ⟨e', hrule, hsame⟩ := exists_compileRule_error hone hsingle
    refine ⟨e', compile_of_error hone hrule, ?_, hsame⟩
    rw [warningOf, List.append_assoc]
    exact List.prefix_append _ _
  refine ⟨fun data => ⟨fun h => ?_, ?_⟩, fun data h => ?_, hrefused⟩
  · obtain ⟨hone, hcompiled⟩ := compile_of_compileSingle h
    rw [hcompiled]
    exact ⟨hone, rfl, rfl⟩
  · rintro ⟨⟨rule, hone⟩, hrules, hwarnings⟩
    cases hsingle : (c.compileSingle t).1 with
    | error e =>
      obtain ⟨e', hcompiled, -⟩ := hrefused rule e hone hsingle
      rw [hcompiled] at hwarnings
      cases hwarnings
    | ok data' =>
      rw [(compile_of_compileSingle hsingle).2] at hrules
      rw [(List.cons.inj hrules).1]
  · rw [(compile_of_compileSingle h).2, beq_iff_eq]

/-- A rule that asks for every rule to be watched, and one that is refused for its comment by itself
and for the block that it starts with in a style sheet. -/
theorem compileSingle_iff_compile_watchedRule_commentedBlock :
    let c := Compiler.ofOptions .default
    let watched := "\t p \x7b debug: global \x7d\n".toList
    let block := "\x7b /* x */ \x7d".toList
    (∃ data, (c.compileSingle watched).1 = .ok data ∧ (c.compile [watched]).1.rules = [data] ∧
        (c.compile [watched]).1.debugsAll = true) ∧
      (c.compileSingle block).1 = .error (.comment block) ∧
      ∃ e', (c.compile [block]).1 = ⟨[], [warningOf block e'], false⟩ ∧ e' ≠ .comment block := by
  intro c watched block
  have haccepted : (c.compileSingle watched).1.isOk = true := by decide +kernel
  obtain ⟨data, hdata⟩ := exists_of_isOk haccepted
  have hdebug : ((c.compileSingle watched).1.toOption.bind RuleData.debug) = some .all := by
    decide +kernel
  rw [hdata] at hdebug
  have hwatched := compileSingle_iff_compile c watched
  refine ⟨⟨data, hdata, ((hwatched.1 data).mp hdata).2.1, (hwatched.2.1 data hdata).mpr hdebug⟩, ?_⟩
  have hsingle : (c.compileSingle block).1 = .error (.comment block) := by decide +kernel
  obtain ⟨e', hcompiled, -⟩ :=
    (compileSingle_iff_compile c block).2.2 block _ (by decide +kernel) hsingle
  refine ⟨hsingle, e', hcompiled, ?_⟩
  rintro rfl
  have hwarning : (c.compile [block]).1.warnings ≠ [warningOf block (.comment block)] := by
    decide +kernel
  exact hwarning (by rw [hcompiled])

end Compiler
end StyleSheet
end CosmeticFilter
