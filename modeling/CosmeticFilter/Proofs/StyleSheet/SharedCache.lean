import CosmeticFilter.Proofs.Extended.CachedReading
import CosmeticFilter.Proofs.StyleSheet.Attempts
import CosmeticFilter.Proofs.StyleSheet.Merging

/-!
# Rules that share a cache

All rules of a style sheet ask one cache for their selectors, also those that are skipped in the
end. What a rule has asked for can change an answer to a later one, but only an answer to a text
with the same normal form, and only to what that text was read as. So a skipped rule leaves no trace
unless it has asked for a text that is read otherwise than one with the same normal form in another
rule. In the same way the selector that comes with a rule was read from some text, and this text has
the selector's normal form.

* `Follows`: a cache that has been asked for some more texts;
* `AnswersAlike`: caches with the same answers, the wording of refusals aside;
* `Compiler.compile_skipped`: a skipped rule leaves no trace;
* `Compiler.compile_reread`: the text that comes with a rule is read as its selector.
-/

namespace CosmeticFilter
namespace Extended

/-! ### Answers -/

namespace Cache

/-- An answer changes only for texts with the normal form of the text that was read. -/
theorem read_read (c : Cache) (t u : Text) :
    ((c.read t).2.read u).1 =
      if normalForm u = normalForm t then (c.read t).1 else (c.read u).1 := by
  cases hfind : c.find? t with
  | some known =>
    rw [read_of_some hfind]
    split_ifs with h
    · rw [read_of_some (by rw [c.find?_congr h, hfind])]
    · rfl
  | none =>
    rw [read_of_none hfind]
    have hknown := c.find?_cons t u (Selector.ofText t)
    split_ifs with h
    · rw [if_pos h] at hknown
      rw [read_of_some hknown]
    · rw [if_neg h] at hknown
      cases hu : c.find? u with
      | some known => rw [read_of_some (hknown.trans hu), read_of_some hu]
      | none => rw [read_of_none (hknown.trans hu), read_of_none hu]

/-- Behind a stray bracket the normal form drops blanks that a selector keeps. -/
example : ((empty.read "a:contains(]  x)".toList).2.read "a:contains(] x)".toList).1 ≠
    (empty.read "a:contains(] x)".toList).1 := by decide +kernel

theorem read_empty (t : Text) : (empty.read t).1 = Selector.ofText t := rfl

end Cache

/-- A cache answers every text as another one does, or as the other one answers one of some texts
with the same normal form. -/
def Follows (texts : List Text) (c c' : Cache) : Prop :=
  ∀ t, ∃ s, (s = t ∨ s ∈ texts) ∧ normalForm s = normalForm t ∧ (c'.read t).1 = (c.read s).1

theorem Follows.refl (texts : List Text) (c : Cache) : Follows texts c c :=
  fun t => ⟨t, Or.inl rfl, rfl, rfl⟩

theorem Follows.read {texts : List Text} {c c' : Cache} (h : Follows texts c c') {t : Text}
    (ht : t ∈ texts) : Follows texts c (c'.read t).2 := by
  intro u
  rw [Cache.read_read]
  split_ifs with hform
  · obtain ⟨s, hs, hst, hanswer⟩ := h t
    refine ⟨s, Or.inr ?_, hst.trans hform.symm, hanswer⟩
    rcases hs with rfl | hs
    · exact ht
    · exact hs
  · exact h u

/-- Two caches have the same answers to texts, the wording of refusals aside. -/
def AnswersAlike (texts : List Text) (c c' : Cache) : Prop :=
  ∀ t ∈ texts, (c.read t).1.toOption = (c'.read t).1.toOption

theorem AnswersAlike.read {texts : List Text} {c c' : Cache} (h : AnswersAlike texts c c')
    {t : Text} (ht : t ∈ texts) :
    AnswersAlike texts (c.read t).2 (c'.read t).2 := by
  intro u hu
  rw [Cache.read_read, Cache.read_read]
  split_ifs
  · exact h t ht
  · exact h u hu

/-- Texts with one normal form are read alike, if one is of the first list and one of the second. -/
def ReadAlike (texts texts' : List Text) : Prop :=
  ∀ s ∈ texts, ∀ t ∈ texts', normalForm s = normalForm t → outcome s = outcome t

instance (texts texts' : List Text) : Decidable (ReadAlike texts texts') := by
  unfold ReadAlike
  infer_instance

theorem ReadAlike.of_isShielded {texts texts' : List Text}
    (h : ∀ t ∈ texts ++ texts', isShielded t = true) : ReadAlike texts texts' := fun s hs t ht =>
  outcome_eq_of_isShielded (h s (List.mem_append_left _ hs)) (h t (List.mem_append_right _ ht))

end Extended

namespace StyleSheet

open Extended

/-- The selector texts that a rule may ask for. -/
def selectorTexts (t : Text) : List Text := (attempts t).map Attempt.text

theorem compileAttempts_congr {texts : List Text} {as : List Attempt}
    (has : ∀ a ∈ as, a.text ∈ texts) {c c' : Cache} (h : AnswersAlike texts c c') :
    (compileAttempts c as).1 = (compileAttempts c' as).1 ∧
      AnswersAlike texts (compileAttempts c as).2 (compileAttempts c' as).2 := by
  induction as generalizing c c' with
  | nil => exact ⟨rfl, h⟩
  | cons a r ih =>
    have ha := has a List.mem_cons_self
    have hlater := ih (fun b hb => has b (List.mem_cons_of_mem _ hb)) (h.read ha)
    rw [compileAttempts, compileAttempts, h a.text ha]
    cases (c'.read a.text).1.toOption.bind a.rule? with
    | none => exact hlater
    | some rule => exact ⟨rfl, h.read ha⟩

/-! ### Rule after rule -/

namespace Compiler

theorem readAll_cons (c : Cache) (t : Text) (r : List Text) :
    (readAll c (t :: r)).1.1 =
        (compileAttempts c (attempts t)).1.toList ++
          (readAll (compileAttempts c (attempts t)).2 r).1.1 ∧
      (readAll c (t :: r)).2 = (readAll (compileAttempts c (attempts t)).2 r).2 := by
  rw [compileRule_eq, readAll]
  rcases compileRule c t with ⟨e | rule, c'⟩ <;> exact ⟨rfl, rfl⟩

theorem readAll_append (c : Cache) (x y : List Text) :
    (readAll c (x ++ y)).1.1 = (readAll c x).1.1 ++ (readAll (readAll c x).2 y).1.1 ∧
      (readAll c (x ++ y)).2 = (readAll (readAll c x).2 y).2 := by
  induction x generalizing c with
  | nil => exact ⟨rfl, rfl⟩
  | cons t x ih =>
    obtain ⟨hrules, hcache⟩ := readAll_cons c t (x ++ y)
    obtain ⟨hrules', hcache'⟩ := readAll_cons c t x
    rw [List.cons_append, hrules, hcache, hrules', hcache', (ih _).1, (ih _).2, List.append_assoc]
    exact ⟨rfl, rfl⟩

/-- Caches that answer alike read the same rules. -/
theorem readAll_congr (texts rules : List Text)
    (hrules : ∀ t ∈ rules.flatMap selectorTexts, t ∈ texts) {c c' : Cache}
    (h : AnswersAlike texts c c') : (readAll c rules).1.1 = (readAll c' rules).1.1 := by
  induction rules generalizing c c' with
  | nil => rfl
  | cons t r ih =>
    rw [List.flatMap_cons, List.forall_mem_append] at hrules
    obtain ⟨hrule, hcaches⟩ := compileAttempts_congr
      (fun a ha => hrules.1 _ (List.mem_map_of_mem ha)) h
    rw [(readAll_cons c t r).1, (readAll_cons c' t r).1, hrule, ih hrules.2 hcaches]

/-- Reading rules asks the cache for their selector texts only, and the selector of each rule is an
answer that was given on the way. -/
theorem readAll_follows (texts rules : List Text)
    (hrules : ∀ t ∈ rules.flatMap selectorTexts, t ∈ texts) {c c' : Cache}
    (h : Follows texts c c') :
    Follows texts c (readAll c' rules).2 ∧
      ∀ rule ∈ (readAll c' rules).1.1, ∃ c'' s, Follows texts c c'' ∧ s ∈ texts ∧
        rule.selector = normalForm s ∧ (c''.read s).1 = .ok rule.tree := by
  induction rules generalizing c' with
  | nil => exact ⟨h, fun rule hrule => absurd hrule (List.not_mem_nil)⟩
  | cons t r ih =>
    rw [List.flatMap_cons, List.forall_mem_append] at hrules
    have htexts : ∀ a ∈ attempts t, a.text ∈ texts := fun a ha =>
      hrules.1 _ (List.mem_map_of_mem ha)
    obtain ⟨hnext, hrule⟩ := compileAttempts_keeps (P := Follows texts c)
      (fun cache hcache a ha => hcache.read (htexts a ha)) h
    obtain ⟨hlast, hlater⟩ := ih hrules.2 hnext
    rw [(readAll_cons c' t r).1, (readAll_cons c' t r).2]
    refine ⟨hlast, fun rule hmem => ?_⟩
    rcases List.mem_append.mp hmem with hfirst | hmem
    · obtain ⟨c'', a, tree, hfollows, ha, hanswer, hmade⟩ :=
        hrule rule (Option.mem_toList.mp hfirst)
      obtain ⟨hselector, htree⟩ := eq_of_rule?_eq_some ha hmade
      exact ⟨c'', a.text, hfollows, htexts a ha, hselector, htree ▸ hanswer⟩
    · exact hlater rule hmem

/-- The selector texts that texts with any number of rules may ask for. -/
def selectorTextsOf (texts : List Text) : List Text :=
  (texts.flatMap ruleTexts).flatMap selectorTexts

theorem selectorTextsOf_append (x y : List Text) :
    selectorTextsOf (x ++ y) = selectorTextsOf x ++ selectorTextsOf y := by
  rw [selectorTextsOf, List.flatMap_append, List.flatMap_append]
  rfl

/-- Reading a style sheet from nothing. -/
theorem follows_readAll (texts : List Text) :
    Follows (selectorTextsOf texts) .empty (readAll .empty (texts.flatMap ruleTexts)).2 :=
  (readAll_follows _ _ (fun _ ht => ht) (.refl _ _)).1

/-! ### Skipped rules -/

theorem finish_rules_eq_nil_iff {options : Options} {rules : List Rule} {warnings : List Text} :
    (finish options rules warnings).rules = [] ↔ rules = [] := by
  rw [← List.map_eq_nil_iff (f := RuleData.selector), map_selector_finish]
  cases rules with
  | nil => simp
  | cons r rules => simp [List.eraseDups_cons]

/-- Once texts have been read, an answer is known from any text with its normal form that is read
like the others. -/
theorem answer_of_readAlike {texts : List Text} {c : Cache} (hfollows : Follows texts .empty c)
    {s t : Text} (hform : normalForm s = normalForm t) (ht : outcome s = outcome t)
    (halike : ∀ u ∈ texts, normalForm s = normalForm u → outcome s = outcome u) :
    (c.read t).1.toOption = outcome s := by
  obtain ⟨u, hu, hut, hanswer⟩ := hfollows t
  rw [hanswer, Cache.read_empty]
  rcases hu with rfl | hu
  · exact ht.symm
  · exact (halike u hu (hform.trans hut.symm)).symm

/-- What has been asked for in between does not change the answers to later texts. -/
theorem answersAlike_of_follows {before between after : List Text} {c c' : Cache}
    (hc : Follows before .empty c) (hc' : Follows between c c')
    (halike : ReadAlike between (before ++ after)) : AnswersAlike after c c' := by
  intro t ht
  obtain ⟨s, rfl | hs, hst, hanswer⟩ := hc' t
  · rw [hanswer]
  · have hbefore : ∀ u ∈ before, normalForm s = normalForm u → outcome s = outcome u := fun u hu =>
      halike s hs u (List.mem_append_left _ hu)
    rw [hanswer, answer_of_readAlike hc rfl rfl hbefore,
      answer_of_readAlike hc hst (halike s hs t (List.mem_append_right _ ht) hst) hbefore]

/-- **Skipped rules.** A text without a rule that would be accepted by itself can be left out of a
style sheet: the same rules remain, if no selector text that it asks for shares its normal form with
one of the others that is read otherwise; in particular if all of them are shielded. -/
theorem compile_skipped (o : Options) {r : Text}
    (hskipped : ((ofOptions o).compile [r]).1.rules = []) (xs ys : List Text) :
    (ReadAlike (selectorTextsOf [r]) (selectorTextsOf (xs ++ ys)) →
        ((ofOptions o).compile (xs ++ [r] ++ ys)).1.rules =
          ((ofOptions o).compile (xs ++ ys)).1.rules) ∧
      ((∀ t ∈ selectorTextsOf (xs ++ [r] ++ ys), isShielded t = true) →
        ((ofOptions o).compile (xs ++ [r] ++ ys)).1.rules =
          ((ofOptions o).compile (xs ++ ys)).1.rules) := by
  have hkept : ReadAlike (selectorTextsOf [r]) (selectorTextsOf (xs ++ ys)) →
      ((ofOptions o).compile (xs ++ [r] ++ ys)).1.rules =
        ((ofOptions o).compile (xs ++ ys)).1.rules := by
    intro halike
    rw [selectorTextsOf_append] at halike
    have hbefore := follows_readAll xs
    obtain ⟨hbetween, -⟩ := readAll_follows (selectorTextsOf [r]) ([r].flatMap ruleTexts)
      (fun _ ht => ht) (.refl _ (readAll .empty (xs.flatMap ruleTexts)).2)
    -- after the first texts, this one is still skipped
    have hnone : (readAll (readAll .empty (xs.flatMap ruleTexts)).2
        ([r].flatMap ruleTexts)).1.1 = [] := by
      rw [← finish_rules_eq_nil_iff.mp hskipped]
      refine (readAll_congr (selectorTextsOf [r]) _ (fun _ ht => ht) fun t ht => ?_).symm
      rw [answer_of_readAlike hbefore rfl rfl fun u hu =>
        halike t ht u (List.mem_append_left _ hu)]
      rfl
    have hafter := readAll_congr _ (ys.flatMap ruleTexts) (fun _ ht => ht)
      (answersAlike_of_follows hbefore hbetween halike)
    have hrules : (readAll .empty ((xs ++ [r] ++ ys).flatMap ruleTexts)).1.1 =
        (readAll .empty ((xs ++ ys).flatMap ruleTexts)).1.1 := by
      rw [List.flatMap_append, List.flatMap_append, List.flatMap_append, (readAll_append ..).1,
        (readAll_append ..).1, (readAll_append ..).2, (readAll_append ..).1, hnone,
        List.append_nil, hafter]
    simp only [compile, finish, ofOptions, hrules]
  refine ⟨hkept, fun hshielded => hkept (.of_isShielded fun t ht => hshielded t ?_)⟩
  simp only [selectorTextsOf_append, List.mem_append] at ht ⊢
  tauto

/-- A rule with a bad block has asked for the selector of the rules around it. -/
theorem compile_skipped_badBlock :
    let bad := "a  >  b \x7b color \x7d".toList
    let before := ["a > b \x7b color: red \x7d".toList]
    let after := ["a   >   b \x7b top: 0 \x7d".toList]
    ((ofOptions .default).compile [bad]).1.rules = [] ∧
      ReadAlike (selectorTextsOf [bad]) (selectorTextsOf (before ++ after)) ∧
      ((ofOptions .default).compile (before ++ [bad] ++ after)).1.rules =
        ((ofOptions .default).compile (before ++ after)).1.rules := by
  intro bad before after
  have hskipped : ((ofOptions .default).compile [bad]).1.rules = [] := by decide +kernel
  have halike : ReadAlike (selectorTextsOf [bad]) (selectorTextsOf (before ++ after)) := by
    decide +kernel
  exact ⟨hskipped, halike, (compile_skipped .default hskipped before after).1 halike⟩

/-- A skipped rule has asked for `a:contains(]  x)`, and its answer is given to the rule for
`a:contains(] x)` as well. -/
theorem not_compile_skipped :
    ¬ ∀ (o : Options) (xs : List Text) (r : Text) (ys : List Text),
      ((ofOptions o).compile [r]).1.rules = [] →
        ((ofOptions o).compile (xs ++ [r] ++ ys)).1.rules =
          ((ofOptions o).compile (xs ++ ys)).1.rules := by
  intro h
  have hskipped : ((ofOptions .default).compile
      ["a:contains(]  x) \x7b color \x7d".toList]).1.rules = [] := by decide +kernel
  have hsame := h .default [] _ ["a:contains(] x) \x7b color: red \x7d".toList] hskipped
  revert hsame
  decide +kernel

/-! ### The text that comes with a rule -/

theorem exists_rule_of_mem_finish {options : Options} {rules : List Rule} {warnings : List Text}
    {d : RuleData} (h : d ∈ (finish options rules warnings).rules) :
    ∃ rule ∈ rules, rule.selector = d.selector ∧ rule.tree = d.tree := by
  rw [mem_finish_iff, find?_finish, find?_merge] at h
  cases hrules : rulesOf d.selector rules with
  | nil => rw [hrules] at h; exact absurd h (by simp [collect])
  | cons rule later =>
    rw [hrules, collect, foldl_extend_ofRule] at h
    obtain rfl := Option.some_inj.mp h
    have hmem : rule ∈ rulesOf rule.selector rules := hrules ▸ List.mem_cons_self
    exact ⟨rule, List.mem_of_mem_filter hmem, rfl, rfl⟩

/-- The selector of a rule was read from a text that the rules ask for, and this text has the normal
form that comes with the rule. -/
theorem exists_selectorText (o : Options) {texts : List Text} {d : RuleData}
    (hd : d ∈ ((ofOptions o).compile texts).1.rules) :
    ∃ s ∈ selectorTextsOf texts, normalForm s = d.selector ∧ Selector.ofText s = .ok d.tree := by
  obtain ⟨rule, hrule, hselector, htree⟩ := exists_rule_of_mem_finish hd
  obtain ⟨c, s, hfollows, hs, hform, hanswer⟩ := (readAll_follows (selectorTextsOf texts) _
    (fun _ ht => ht) (.refl _ .empty)).2 rule hrule
  obtain ⟨u, hu, hus, hread⟩ := hfollows s
  rw [hread, Cache.read_empty] at hanswer
  refine ⟨u, ?_, (hus.trans hform.symm).trans hselector, htree ▸ hanswer⟩
  rcases hu with rfl | hu
  · exact hs
  · exact hu

theorem outcome_normalForm {t : Text} (h : isShielded t = true) :
    outcome (normalForm t) = outcome t := by
  rw [outcome, outcome, Selector.ofText_eq, Selector.ofText_eq, readAll_normalForm h]
  cases Extended.readAll .top t <;> rfl

theorem outcome_eq_some_iff {t : Text} {s : Selector} :
    outcome t = some s ↔ Selector.ofText t = .ok s := by
  rw [outcome]
  cases Selector.ofText t <;> simp [Except.toOption]

/-- **Reading it again.** The text that comes with a rule is the normal form of a text that was read
as the rule's selector. It is read as this selector itself exactly if it is read like that text; and
this is so if all texts that the rules ask for are shielded. -/
theorem compile_reread (o : Options) (texts : List Text) :
    (∀ d ∈ ((ofOptions o).compile texts).1.rules,
        ∃ s ∈ selectorTextsOf texts, normalForm s = d.selector ∧ Selector.ofText s = .ok d.tree ∧
          (Selector.ofText d.selector = .ok d.tree ↔ outcome (normalForm s) = outcome s)) ∧
      ((∀ s ∈ selectorTextsOf texts, isShielded s = true) →
        ∀ d ∈ ((ofOptions o).compile texts).1.rules, Selector.ofText d.selector = .ok d.tree) := by
  constructor
  · intro d hd
    obtain ⟨s, hs, hform, hread⟩ := exists_selectorText o hd
    refine ⟨s, hs, hform, hread, ?_⟩
    rw [← outcome_eq_some_iff, outcome_eq_some_iff.mpr hread, hform]
  · intro hshielded d hd
    obtain ⟨s, hs, hform, hread⟩ := exists_selectorText o hd
    rw [← hform, ← outcome_eq_some_iff, outcome_normalForm (hshielded s hs),
      outcome_eq_some_iff.mpr hread]

/-- Blanks that do not belong to the argument, and a brace that does. -/
theorem compile_reread_braceArgument :
    let sheet := ["p  >  b:contains( \x7b  x) \x7b color: red \x7d".toList]
    (∀ s ∈ selectorTextsOf sheet, isShielded s = true) ∧
      ((ofOptions .default).compile sheet).1.rules.map RuleData.selector =
        ["p > b:contains( \x7b  x)".toList] ∧
      ∀ d ∈ ((ofOptions .default).compile sheet).1.rules,
        Selector.ofText d.selector = .ok d.tree := by
  intro sheet
  have hshielded : ∀ s ∈ selectorTextsOf sheet, isShielded s = true := by decide +kernel
  exact ⟨hshielded, by decide +kernel, (compile_reread .default sheet).2 hshielded⟩

/-- The text that comes with the rule for `a:contains(]  x)` has one of the two blanks. -/
theorem not_compile_reread :
    ¬ ∀ (o : Options) (text : Text), ∀ d ∈ ((ofOptions o).compile [text]).1.rules,
      Selector.ofText d.selector = .ok d.tree := by
  intro h
  have hsame := h .default "a:contains(]  x) \x7b color: red \x7d".toList
  revert hsame
  decide +kernel

end Compiler
end StyleSheet
end CosmeticFilter
