import CosmeticFilter.Proofs.Extended.Removals
import CosmeticFilter.Proofs.StyleSheet.RemovalForms
import CosmeticFilter.Proofs.StyleSheet.SharedCache

/-!
# Removals of the rules that are emitted

Two readers look for a removal. The one takes `:remove()` off the end of the text in front of a
block, in any letter case, if its own count of quotes and brackets leaves it outside all of them.
The other reads what is left as a selector, and it takes further forms for removals. What the first
reader finds is never left in the selector of a rule. Only what it does not find stays there:
another form, a removal of an earlier branch, or a mark behind an apostrophe that it takes for a
quote. In any case the rule is a removal, and so is all that is said about its selector.

* `stripRemoval_eq_marked_iff`: the marks that are taken off;
* `removalMarks_normalForm`: there is no such mark in a selector that is emitted;
* `partsOf`: the texts in front of the blocks;
* `hasRemoval_eq_false_iff`: what is left is no removal if the mark was the only one;
* `Compiler.compile_removals`: the removals of the rules of a style sheet.
-/

namespace CosmeticFilter

namespace StyleSheet

open Extended (Selector normalForm normalFrom removals)

variable {t u x m selector : Text} {s : Nesting} {marked : Bool} {tree : Selector}

/-! ### The marks that are taken off -/

/-- **The marks that are taken off.** At its end, the text has to spell the mark as a whole, outside
quotes and brackets, and it may have no other mark. -/
theorem stripRemoval_eq_marked_iff :
    stripRemoval t = .ok (selector, true) ↔
      ∃ x m, Text.trim t = x ++ m ∧ Text.lower m = removalMark ∧ removalMarks x = [] ∧
        (Nesting.top.after .roundAndSquare x).isTop = true ∧ selector = Text.trimEnd x := by
  constructor
  · intro h
    unfold stripRemoval at h
    simp only at h
    split at h
    · exact absurd h (by simp)
    · rename_i before after hone
      split_ifs at h with hlast
      subst hlast
      obtain ⟨rfl, -⟩ := Prod.mk.inj (Except.ok.inj h)
      obtain ⟨m, htrim, hm⟩ := exists_of_mem_marksFrom (s := .top) (t := Text.trim t)
        (x := before) (y := []) (by rw [← removalMarks, hone]; exact List.mem_singleton_self _)
      rw [List.append_nil] at htrim
      rw [htrim, removalMarks_append_spelled hm] at hone
      have hmarks : removalMarks before = [] := by
        rcases hfirst : removalMarks before with _ | ⟨⟨a, b⟩, later⟩
        · rfl
        · rw [hfirst, List.map_cons, List.cons_append] at hone
          have hnil := (Prod.mk.inj (List.cons.inj hone).1).2
          obtain rfl := (List.append_eq_nil_iff.mp hnil).2
          exact absurd hm (by decide)
      refine ⟨before, m, htrim, hm, hmarks, ?_, rfl⟩
      by_contra htop
      rw [hmarks, if_neg htop] at hone
      exact absurd hone (by simp)
    · exact absurd h (by simp)
  · rintro ⟨x, m, htrim, hm, hmarks, htop, rfl⟩
    have hone := removalMarks_append_spelled hm x
    rw [hmarks, if_pos htop, List.map_nil, List.nil_append, ← htrim] at hone
    simp only [stripRemoval, hone, if_true]

theorem stripRemoval_eq_unmarked_iff :
    stripRemoval t = .ok (selector, false) ↔ removalMarks t = [] ∧ selector = Text.trim t := by
  constructor
  · intro h
    unfold stripRemoval at h
    simp only at h
    split at h
    · rename_i hmarks
      exact ⟨(removalMarks_trim_eq_nil_iff t).mp hmarks, (Prod.mk.inj (Except.ok.inj h)).1.symm⟩
    · split_ifs at h
      exact absurd h (by simp)
    · exact absurd h (by simp)
  · rintro ⟨hmarks, rfl⟩
    exact stripRemoval_of_no_marks hmarks

/-- No mark is left. -/
theorem removalMarks_of_stripRemoval (h : stripRemoval t = .ok (selector, marked)) :
    removalMarks selector = [] := by
  cases marked with
  | false =>
    obtain ⟨hmarks, rfl⟩ := stripRemoval_eq_unmarked_iff.mp h
    exact (removalMarks_trim_eq_nil_iff t).mpr hmarks
  | true =>
    obtain ⟨x, m, -, -, hmarks, -, rfl⟩ := stripRemoval_eq_marked_iff.mp h
    obtain ⟨b, hb, heq⟩ := Text.exists_append_trimEnd x
    rw [heq, removalMarks_append_of_blank hb, List.map_eq_nil_iff] at hmarks
    exact hmarks

/-! ### Selectors in normal form -/

/-- A text without blanks that the normal form starts with stands at the start of the text too. -/
theorem prefix_of_prefix_normalFrom {w : Text} (hw : ∀ c ∈ w, Text.isBlank c = false)
    (h : w <+: normalFrom s false t) : w <+: t := by
  induction w generalizing s t with
  | nil => exact List.nil_prefix
  | cons a w ih =>
    obtain ⟨ha, hw⟩ := List.forall_mem_cons.mp hw
    have howed : ∀ t : Text, ¬ a :: w <+: normalFrom s true t := by
      intro t hprefix
      induction t with
      | nil => exact absurd hprefix (by simp [normalFrom])
      | cons c r ih =>
        rw [normalFrom] at hprefix
        split at hprefix
        · exact ih hprefix
        · obtain ⟨rfl, -⟩ := List.cons_prefix_cons.mp hprefix
          exact absurd ha (by decide)
    cases t with
    | nil => exact absurd h (by simp [normalFrom])
    | cons c r =>
      rw [normalFrom] at h
      split at h
      · exact absurd h (howed r)
      · obtain ⟨rfl, hrest⟩ := List.cons_prefix_cons.mp h
        exact List.cons_prefix_cons.mpr ⟨rfl, ih hw hrest⟩

/-- The normal form has no mark where the text has none. -/
theorem cutMark?_normalFrom {c : Char} {r : Text} (h : cutMark? (c :: r) = none) :
    cutMark? (c :: normalFrom s false r) = none := by
  rw [Option.eq_none_iff_forall_ne_some]
  rintro ⟨m, rest⟩ hfound
  obtain ⟨heq, hm⟩ := cutMark?_eq_some hfound
  have hplain : ∀ d ∈ m, Text.isBlank d = false := by
    intro d hd
    by_contra hblank
    rw [Bool.not_eq_false] at hblank
    have hmem : d ∈ removalMark := by
      rw [← Text.toLower_of_blank hblank, ← hm]
      exact List.mem_map_of_mem hd
    exact absurd (List.all_eq_true.mp (show removalMark.all (!Text.isBlank ·) = true by decide)
      d hmem) (by simp [hblank])
  obtain ⟨d, m, rfl⟩ : ∃ d m', m = d :: m' := by
    rw [removalMark_eq] at hm
    obtain ⟨d, m', rfl, -, -⟩ := List.map_eq_cons_iff.mp hm
    exact ⟨d, m', rfl⟩
  obtain ⟨rfl, htail⟩ := List.cons.inj heq
  obtain ⟨rest', rfl⟩ := prefix_of_prefix_normalFrom (List.forall_mem_cons.mp hplain).2
    ⟨rest, htail.symm⟩
  rw [← List.cons_append, cutMark?_append_of_lower hm] at h
  exact absurd h (by simp)

theorem marksFrom_normalFrom {owed : Bool} (howed : owed = true → s.isTop = true)
    (h : marksFrom s t = []) : marksFrom s (normalFrom s owed t) = [] := by
  induction t generalizing s owed with
  | nil => rw [normalFrom, marksFrom_nil]
  | cons c r ih =>
    have hnone : s.isTop = true → cutMark? (c :: r) = none := by
      intro htop
      rw [Option.eq_none_iff_forall_ne_some]
      rintro ⟨m, rest⟩ hfound
      obtain ⟨heq, hm⟩ := cutMark?_eq_some hfound
      rw [heq, Nesting.isTop_iff.mp htop, marksFrom_mark hm] at h
      exact absurd h (List.cons_ne_nil _ _)
    rw [marksFrom_cons_of_none hnone, List.map_eq_nil_iff] at h
    rw [normalFrom]
    split
    · rename_i hblank
      obtain ⟨htop, hc⟩ := Bool.and_eq_true_iff.mp hblank
      obtain rfl := Nesting.isTop_iff.mp htop
      rw [Nesting.settled_top.step_of_blank hc] at h
      exact ih (fun _ => htop) h
    · have hlater : marksFrom s (c :: normalFrom (s.step .roundAndSquare c) false r) = [] := by
        rw [marksFrom_cons_of_none fun htop => cutMark?_normalFrom (hnone htop),
          ih (fun hfalse => absurd hfalse Bool.false_ne_true) h, List.map_nil]
      cases owed with
      | false => exact hlater
      | true =>
        obtain rfl := Nesting.isTop_iff.mp (howed rfl)
        show removalMarks (' ' :: c :: _) = []
        rw [removalMarks_cons_of_blank (by decide), removalMarks, hlater, List.map_nil]

/-- Blanks that are run together make no mark. -/
theorem removalMarks_normalForm (h : removalMarks t = []) : removalMarks (normalForm t) = [] :=
  marksFrom_normalFrom (fun hfalse => absurd hfalse Bool.false_ne_true)
    ((removalMarks_trim_eq_nil_iff t).mpr h)

/-! ### Texts in front of blocks -/

/-- The texts in front of the braces of a rule, or the whole rule if it has none. -/
def parts (rule : Text) : List Text :=
  if '\x7b' ∈ rule then (braceSplits rule).map Prod.fst else [rule]

/-- What may stand in front of the blocks of texts with any number of rules. -/
def partsOf (texts : List Text) : List Text :=
  (texts.flatMap ruleTexts).flatMap fun t => parts (Text.trim t)

theorem isRemoval_of_ruleOf {rule block : Text} {compiled : Rule}
    (h : ruleOf rule selector marked tree block = .ok compiled) :
    compiled.isRemoval = (marked || tree.hasRemoval) := by
  unfold ruleOf at h
  split at h
  · exact absurd h (by simp)
  · simp only at h
    split at h
    · exact absurd h (by simp)
    · obtain rfl := Except.ok.inj h
      rfl

/-- An attempt asks for what is left of one of the parts, and its rule is a removal if the mark has
been taken off, or if the selector has it still. -/
theorem exists_part_of_mem_attempts {a : Attempt} (h : a ∈ attempts t) :
    ∃ part ∈ parts (Text.trim t), ∃ marked, stripRemoval part = .ok (a.text, marked) ∧
      ∀ tree rule, a.rule? tree = some rule → rule.isRemoval = (marked || tree.hasRemoval) := by
  have heach := mem_each_of_mem_attempts h
  unfold Attempt.each at heach
  unfold parts
  split_ifs at heach ⊢ with hbrace
  · obtain ⟨c, hc, hsplit⟩ := List.mem_filterMap.mp heach
    obtain ⟨marked, hstrip, -, hrule⟩ := Attempt.ofSplit?_eq_some hsplit
    refine ⟨c.1, List.mem_map_of_mem (List.mem_reverse.mp hc), marked, hstrip,
      fun tree rule hmade => ?_⟩
    rw [hrule] at hmade
    simp only at hmade
    rcases hcompiled : ruleOf (Text.trim t) a.text marked tree c.2 with e | compiled <;>
      rw [hcompiled] at hmade
    · exact absurd hmade (by simp [Except.toOption])
    · obtain rfl := Option.some_inj.mp hmade
      exact isRemoval_of_ruleOf hcompiled
  · obtain ⟨marked, hstrip, hrule⟩ := Attempt.bare?_eq_some (Option.mem_toList.mp heach)
    refine ⟨Text.trim t, List.mem_singleton_self _, marked, hstrip, fun tree rule hmade => ?_⟩
    rw [hrule] at hmade
    simp only at hmade
    split_ifs at hmade with hremoval
    obtain rfl := Option.some_inj.mp hmade
    exact hremoval.symm

/-- A mark is the name in some letter case, with a colon and brackets. -/
theorem exists_name_of_mark (hm : Text.lower m = removalMark) :
    ∃ w, m = ':' :: (w ++ "()".toList) ∧ Text.lower w = "remove".toList := by
  rw [removalMark_eq] at hm
  obtain ⟨c, r, rfl, hc, hr⟩ := List.map_eq_cons_iff.mp hm
  obtain ⟨w, v, rfl, hw, hv⟩ := List.map_eq_append_iff.mp
    (hr.trans (show "remove()".toList = "remove".toList ++ "()".toList by decide))
  obtain ⟨opening, v, rfl, hopening, hv⟩ := List.map_eq_cons_iff.mp hv
  obtain ⟨closing, v, rfl, hclosing, hv⟩ := List.map_eq_cons_iff.mp hv
  obtain rfl := List.map_eq_nil_iff.mp hv
  obtain rfl := Text.eq_of_toLower (by decide) hc
  obtain rfl := Text.eq_of_toLower (by decide) hopening
  obtain rfl := Text.eq_of_toLower (by decide) hclosing
  exact ⟨w, rfl, hw⟩

/-- What is left is no removal exactly if the mark that has been taken off was the only removal in
the text. -/
theorem hasRemoval_eq_false_iff (hstrip : stripRemoval t = .ok (selector, marked))
    (hread : Selector.ofText selector = .ok tree) :
    tree.hasRemoval = false ↔ removals t = marked.toNat := by
  have hsame : removals (Text.trim t) = removals t := by
    simp only [removals, Extended.pieces, Text.trim_trim]
  cases marked with
  | false =>
    obtain ⟨-, rfl⟩ := stripRemoval_eq_unmarked_iff.mp hstrip
    rw [← Bool.not_eq_true, Extended.hasRemoval_iff hread, hsame, Bool.toNat_false, Nat.not_lt,
      Nat.le_zero]
  | true =>
    obtain ⟨x, m, htrim, hm, -, htop, rfl⟩ := stripRemoval_eq_marked_iff.mp hstrip
    obtain ⟨w, rfl, hw⟩ := exists_name_of_mark hm
    have hx : Selector.ofText x = .ok tree := by
      rw [Selector.ofText_eq_ok, ← Extended.readAll_trim] at hread ⊢
      rwa [← Text.trim_trimEnd]
    obtain ⟨hremoval, hpos⟩ :=
      Extended.removals_append hx (Nesting.endsInEscape_of_isTop htop) hw
    rw [← htrim, hsame] at hremoval hpos
    rw [← Bool.not_eq_true, hremoval, Bool.toNat_true]
    omega

namespace Compiler

/-- A rule comes from an attempt at one of the texts. -/
theorem exists_attempt_of_mem_readAll {cache : Extended.Cache} {texts : List Text} {rule : Rule}
    (h : rule ∈ (readAll cache texts).1.1) :
    ∃ t ∈ texts, ∃ a ∈ attempts t, ∃ tree, a.rule? tree = some rule := by
  induction texts generalizing cache with
  | nil => exact absurd h List.not_mem_nil
  | cons t r ih =>
    rw [(readAll_cons cache t r).1] at h
    rcases List.mem_append.mp h with hfirst | hlater
    · obtain ⟨-, hmade⟩ := compileAttempts_keeps (P := fun _ => True)
        (fun _ _ _ _ => trivial) (trivial : (fun _ => True) cache)
      obtain ⟨-, a, tree, -, ha, -, hrule⟩ := hmade rule (Option.mem_toList.mp hfirst)
      exact ⟨t, List.mem_cons_self, a, ha, tree, hrule⟩
    · obtain ⟨t', ht', hrest⟩ := ih hlater
      exact ⟨t', List.mem_cons_of_mem _ ht', hrest⟩

/-- What comes with a selector is a removal if one of the rules that have it is one. -/
theorem exists_isRemoval {options : Options} {rules : List Rule} {warnings : List Text}
    {rule : Rule} (h : rule ∈ rules) :
    ∃ d ∈ (finish options rules warnings).rules, d.selector = rule.selector ∧
      (rule.isRemoval = true → d.IsRemoval) := by
  have hmem : rule ∈ rulesOf rule.selector rules :=
    List.mem_filter.mpr ⟨h, beq_self_eq_true rule.selector⟩
  have hfind := find?_finish options rules warnings rule.selector
  rw [find?_merge] at hfind
  cases hrules : rulesOf rule.selector rules with
  | nil => rw [hrules] at hmem; exact absurd hmem List.not_mem_nil
  | cons first later =>
    rw [hrules] at hmem hfind
    have hselector := List.find?_some hfind
    refine ⟨_, List.mem_of_find?_eq_some hfind, beq_iff_eq.mp hselector, fun hremoval => ?_⟩
    exact (summarizes_entry options first later).isRemoval_iff.mpr
      (Or.inl ⟨rule, hmem, hremoval⟩)

/-- **Removals of the rules of a style sheet.** No mark that is looked for is left in a selector
that is emitted. What is emitted is free of removals exactly if no removal but the mark that was
taken off stands in front of the block. A rule with a mark has the selector without it, and if a
rule is a removal in either way, then so is all that is said about its selector. -/
theorem compile_removals (o : Options) (texts : List Text) :
    (∀ d ∈ ((ofOptions o).compile texts).1.rules, removalMarks d.selector = [] ∧
        ∃ t ∈ partsOf texts, ∃ selector marked, stripRemoval t = .ok (selector, marked) ∧
          normalForm selector = d.selector ∧ Selector.ofText selector = .ok d.tree ∧
          (d.tree.hasRemoval = false ↔ removals t = marked.toNat)) ∧
      ∀ rule ∈ (readAll .empty (texts.flatMap ruleTexts)).1.1,
        (∃ t ∈ partsOf texts, ∃ selector marked, stripRemoval t = .ok (selector, marked) ∧
          normalForm selector = rule.selector ∧
          rule.isRemoval = (marked || rule.tree.hasRemoval)) ∧
        ∃ d ∈ ((ofOptions o).compile texts).1.rules, d.selector = rule.selector ∧
          (rule.isRemoval = true → d.IsRemoval) := by
  have hparts : ∀ t ∈ texts.flatMap ruleTexts, ∀ part ∈ parts (Text.trim t), part ∈ partsOf texts :=
    fun t ht part hpart => List.mem_flatMap.mpr ⟨t, ht, hpart⟩
  refine ⟨fun d hd => ?_, fun rule hrule => ⟨?_, exists_isRemoval hrule⟩⟩
  · obtain ⟨selector, hselector, hform, hread⟩ := exists_selectorText o hd
    obtain ⟨t, ht, hasked⟩ := List.mem_flatMap.mp hselector
    obtain ⟨a, ha, rfl⟩ := List.mem_map.mp hasked
    obtain ⟨part, hpart, marked, hstrip, -⟩ := exists_part_of_mem_attempts ha
    refine ⟨?_, part, hparts t ht part hpart, a.text, marked, hstrip, hform, hread,
      hasRemoval_eq_false_iff hstrip hread⟩
    rw [← hform]
    exact removalMarks_normalForm (removalMarks_of_stripRemoval hstrip)
  · obtain ⟨t, ht, a, ha, tree, hmade⟩ := exists_attempt_of_mem_readAll hrule
    obtain ⟨part, hpart, marked, hstrip, hremoval⟩ := exists_part_of_mem_attempts ha
    obtain ⟨hselector, rfl⟩ := eq_of_rule?_eq_some ha hmade
    exact ⟨part, hparts t ht part hpart, a.text, marked, hstrip, hselector.symm,
      hremoval _ _ hmade⟩

/-- The mark in capitals is taken off, so the second rule joins the first one, and wins. -/
theorem compile_removals_capitals :
    let sheet := ["div \x7b color: red \x7d div:REMOVE() \x7b \x7d".toList]
    let tree : Selector := ⟨[[.fragment "div".toList]]⟩
    let d : RuleData := ⟨"div".toList, tree, some [⟨"remove".toList, "true".toList⟩], none⟩
    let rule : Rule := ⟨"div".toList, tree, [], true⟩
    ((ofOptions .default).compile sheet).1.rules = [d] ∧ removalMarks d.selector = [] ∧
      (∃ t ∈ partsOf sheet, ∃ selector marked, stripRemoval t = .ok (selector, marked) ∧
        normalForm selector = d.selector ∧ (d.tree.hasRemoval = false ↔
          removals t = marked.toNat)) ∧
      rule ∈ (readAll .empty (sheet.flatMap ruleTexts)).1.1 ∧ d.IsRemoval := by
  intro sheet tree d rule
  have hrules : ((ofOptions .default).compile sheet).1.rules = [d] := by decide +kernel
  have hrule : rule ∈ (readAll .empty (sheet.flatMap ruleTexts)).1.1 := by decide +kernel
  have hd : d ∈ ((ofOptions .default).compile sheet).1.rules := hrules ▸ List.mem_singleton_self d
  obtain ⟨hmarks, t, ht, selector, marked, hstrip, hform, -, hfree⟩ :=
    (compile_removals .default sheet).1 d hd
  obtain ⟨-, d', hd', -, hremoval⟩ := (compile_removals .default sheet).2 rule hrule
  rw [hrules, List.mem_singleton] at hd'
  subst hd'
  exact ⟨hrules, hmarks, ⟨t, ht, selector, marked, hstrip, hform, hfree⟩, hrule, hremoval rfl⟩

/-- Behind the apostrophe the mark is taken for a part of a string, and it stays. -/
theorem not_compile_removals :
    ¬ ∀ (o : Options) (text : Text), ∀ d ∈ ((ofOptions o).compile [text]).1.rules,
      d.tree.hasRemoval = false := by
  intro h
  have hfree := h .default "div:contains(it's):remove() \x7b color: red \x7d".toList
  revert hfree
  decide +kernel

end Compiler
end StyleSheet
end CosmeticFilter
