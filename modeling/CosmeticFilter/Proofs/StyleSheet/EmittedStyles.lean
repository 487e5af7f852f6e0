import CosmeticFilter.Proofs.StyleSheet.EmittedRemovals

/-!
# The styles that are emitted

The properties `remove` and `debug` are written like any other, and what rules with one selector
declare is put together before anybody looks at them. In the styles that come out `debug` never
stands, and `remove` stands only where nothing else is said, so that a style is either a removal or
a list of properties to set.

* `IsStyle`: what every emitted style is like;
* `Summarizes.isStyle`: rules with one selector come to such a style;
* `not_removes_iff`: the elements stay if no rule has a mark and the last `remove` does not ask for
  it;
* `Compiler.compile_styles`: the rules of a style sheet.
-/

namespace CosmeticFilter
namespace StyleSheet

variable {options : Options} {rules : List Rule} {d : RuleData} {style : List Declaration}

/-! ### Styles -/

/-- What every emitted style is like. -/
structure IsStyle (options : Options) (style : List Declaration) : Prop where
  ne_nil : style ≠ []
  /-- No property is set twice. -/
  nodup : (style.map Declaration.property).Nodup
  /-- Watching a rule is no style. -/
  no_debug : "debug".toList ∉ style.map Declaration.property
  /-- A removal has one value, and nothing but `content` beside it. -/
  remove : ∀ e ∈ style, e.property = "remove".toList → e.value = "true".toList ∧
    ∀ e' ∈ style, e' = e ∨ (e'.property = "content".toList ∧ options.keepsContent = true)

/-- The style of a removal whose `content` may be kept. -/
theorem isStyle_removal {content : Option Declaration}
    (hcontent : ∀ e ∈ content, e.property = "content".toList ∧ options.keepsContent = true) :
    IsStyle options (⟨"remove".toList, "true".toList⟩ :: content.toList) := by
  have hmem : ∀ e ∈ content.toList, e.property = "content".toList ∧ options.keepsContent = true :=
    fun e he => hcontent e (Option.mem_toList.mp he)
  refine ⟨List.cons_ne_nil _ _, ?_, ?_, ?_⟩
  · cases content with
    | none => exact List.nodup_singleton _
    | some e =>
      show ["remove".toList, e.property].Nodup
      rw [(hcontent e rfl).1]
      decide
  · rw [List.mem_map]
    rintro ⟨e, he, hdebug⟩
    rcases List.mem_cons.mp he with rfl | he
    · exact absurd hdebug (by decide)
    · rw [(hmem e he).1] at hdebug
      exact absurd hdebug (by decide)
  · intro e he hremove
    rcases List.mem_cons.mp he with rfl | he
    · exact ⟨rfl, fun e' he' => (List.mem_cons.mp he').imp_right (hmem e')⟩
    · rw [(hmem e he).1] at hremove
      exact absurd hremove (by decide)

theorem property_of_lastOf?_eq_some {property : Text} {ds : List Declaration} {e : Declaration}
    (h : lastOf? property ds = some e) : e.property = property :=
  beq_iff_eq.mp (List.mem_filter.mp (List.mem_of_getLast? h)).2

theorem nodup_map_property_styleOf (rules : List Rule) :
    ((styleOf rules).map Declaration.property).Nodup := by
  have heffective : ((effective (declared rules)).map Declaration.property).Nodup := by
    rw [← setProperties_nil]
    exact insertsByKey_setProperty.nodup_map_key_foldl _
  exact heffective.sublist (List.filter_sublist.map _)

theorem property_of_mem_styleOf {e : Declaration} (h : e ∈ styleOf rules) :
    e.property ≠ "remove".toList ∧ e.property ≠ "debug".toList := by
  have hkept := (List.mem_filter.mp h).2
  rwa [Bool.and_eq_true, bne_iff_ne, bne_iff_ne] at hkept

/-- What rules with one selector come to. -/
theorem Summarizes.isStyle (h : Summarizes options rules d) (hstyle : d.style = some style) :
    IsStyle options style := by
  by_cases hremoves : Removes rules
  · rw [h.style_of_removes hremoves] at hstyle
    obtain rfl := Option.some_inj.mp hstyle
    split_ifs with hkeeps
    · exact isStyle_removal fun e he => ⟨property_of_lastOf?_eq_some he, hkeeps⟩
    · have hnone : ∀ e ∈ (none : Option Declaration),
          e.property = "content".toList ∧ options.keepsContent = true := by simp
      exact isStyle_removal hnone
  · rw [h.style_of_not_removes hremoves] at hstyle
    split_ifs at hstyle with hempty
    obtain rfl := Option.some_inj.mp hstyle
    refine ⟨hempty, nodup_map_property_styleOf rules, ?_, ?_⟩
    · rw [List.mem_map]
      rintro ⟨e, he, hdebug⟩
      exact (property_of_mem_styleOf he).2 hdebug
    · exact fun e he hremove => absurd hremove (property_of_mem_styleOf he).1

/-- The elements stay exactly if no rule has the mark and the last `remove`, if there is one, does
not say that they go. -/
theorem not_removes_iff :
    ¬ Removes rules ↔ (∀ r ∈ rules, r.isRemoval = false) ∧
      ∀ e, lastOf? "remove".toList (declared rules) = some e →
        Text.trim e.value ≠ "true".toList := by
  simp only [Removes, not_or, not_exists, not_and, Bool.not_eq_true, ne_eq]

/-! ### The rules of a style sheet -/

namespace Compiler

theorem summarizes_of_mem_finish {warnings : List Text}
    (h : d ∈ (finish options rules warnings).rules) :
    Summarizes options (rulesOf d.selector rules) d := by
  rw [mem_finish_iff, find?_finish, find?_merge] at h
  cases hrules : rulesOf d.selector rules with
  | nil => rw [hrules] at h; exact absurd h (by simp [collect])
  | cons r later =>
    rw [hrules] at h
    obtain rfl := Option.some_inj.mp h
    exact summarizes_entry options r later

/-- Whatever the cache knows, a rule is a removal if the mark was taken off the text in front of its
block, or if its selector has one still. -/
theorem exists_part_of_mem_readAll {cache : Extended.Cache} {texts : List Text} {rule : Rule}
    (h : rule ∈ (readAll cache (texts.flatMap ruleTexts)).1.1) :
    ∃ t ∈ partsOf texts, ∃ selector marked, stripRemoval t = .ok (selector, marked) ∧
      Extended.normalForm selector = rule.selector ∧
      rule.isRemoval = (marked || rule.tree.hasRemoval) := by
  obtain ⟨t, ht, a, ha, tree, hmade⟩ := exists_attempt_of_mem_readAll h
  obtain ⟨part, hpart, marked, hstrip, hremoval⟩ := exists_part_of_mem_attempts ha
  obtain ⟨hselector, rfl⟩ := eq_of_rule?_eq_some ha hmade
  exact ⟨part, List.mem_flatMap.mpr ⟨t, ht, hpart⟩, a.text, marked, hstrip, hselector.symm,
    hremoval _ _ hmade⟩

/-- **The styles that are emitted.** Each selector comes once. A style is never empty and never sets
`debug`; if it sets `remove`, then to `true`, and it sets nothing else, apart from `content` if that
is asked for. It does not set `remove` exactly if no rule with the selector has a removal, in front
of its block or in its selector, and if the last value that these rules write for `remove` is
another one. What the compiler remembers makes no difference. -/
theorem compile_styles (c : Compiler) (texts : List Text) :
    ((c.compile texts).1.rules.map RuleData.selector).Nodup ∧
      (∀ d ∈ (c.compile texts).1.rules,
        (∀ style, d.style = some style → IsStyle c.options style) ∧
        (¬ d.IsRemoval ↔
          (∀ rule ∈ rulesOf d.selector (readAll c.cache (texts.flatMap ruleTexts)).1.1,
            rule.isRemoval = false) ∧
          ∀ e, lastOf? "remove".toList (declared
              (rulesOf d.selector (readAll c.cache (texts.flatMap ruleTexts)).1.1)) = some e →
            Text.trim e.value ≠ "true".toList)) ∧
      ∀ rule ∈ (readAll c.cache (texts.flatMap ruleTexts)).1.1,
        ∃ t ∈ partsOf texts, ∃ selector marked, stripRemoval t = .ok (selector, marked) ∧
          Extended.normalForm selector = rule.selector ∧
          rule.isRemoval = (marked || rule.tree.hasRemoval) := by
  refine ⟨?_, fun d hd => ?_, fun rule hrule => exists_part_of_mem_readAll hrule⟩
  · rw [compile, map_selector_finish]
    exact nodup_eraseDups _
  · have hsum := summarizes_of_mem_finish hd
    exact ⟨fun style hstyle => hsum.isStyle hstyle, hsum.isRemoval_iff.not.trans not_removes_iff⟩

/-- A removal that keeps its `content`, and one that a later rule takes back. -/
theorem compile_styles_takenBack :
    let c : Compiler := ofOptions ⟨true, true⟩
    let sheet := ["a \x7b Remove: true; content: 'x'; color: red; debug: true \x7d".toList,
      "b \x7b remove: true \x7d b \x7b top: 0; REMOVE: no \x7d".toList]
    let a : RuleData := ⟨"a".toList, ⟨[[.fragment "a".toList]]⟩,
      some [⟨"remove".toList, "true".toList⟩, ⟨"content".toList, "'x'".toList⟩], some .rule⟩
    let b : RuleData := ⟨"b".toList, ⟨[[.fragment "b".toList]]⟩,
      some [⟨"top".toList, "0".toList⟩], none⟩
    (c.compile sheet).1.rules = [a, b] ∧ (∀ style, a.style = some style → IsStyle c.options style) ∧
      (∀ style, b.style = some style → IsStyle c.options style) ∧ ¬ b.IsRemoval := by
  intro c sheet a b
  have hrules : (c.compile sheet).1.rules = [a, b] := by decide +kernel
  have ha : a ∈ (c.compile sheet).1.rules := hrules ▸ List.mem_cons_self
  have hb : b ∈ (c.compile sheet).1.rules := hrules ▸ List.mem_cons_of_mem _ List.mem_cons_self
  have hall := (compile_styles c sheet).2.1
  exact ⟨hrules, (hall a ha).1, (hall b hb).1, (hall b hb).2.mpr (by decide +kernel)⟩

end Compiler
end StyleSheet
end CosmeticFilter
