import CosmeticFilter.Proofs.StyleSheet.JoinedRules

/-!
# A single rule

What a text has passed that is accepted as a single rule: it is cut off whole, its block ends in a
closing brace, and its selector is read in one of two ways.

* `eq_trim_of_single`, `not_mem_of_single`, `ruleTexts_of_not_mem`: when a text is one rule;
* `getLast?_of_compileRule`: a rule with an opening brace ends in a closing one;
* `compileRule_of_no_brace`, `compileBare_eq_ok_iff`: a rule without one is read as a removal;
* `compileSingle_eq_ok_iff`: what is put together for a single rule.
-/

namespace CosmeticFilter
namespace StyleSheet

variable {t u : Text}

/-! ### Cutting off the rule -/

theorem getLast?_cutRule (h : '\x7d' ∈ t) : (cutRule t).1.getLast? = some '\x7d' := by
  unfold cutRule
  split
  · rename_i x c y hcut
    rw [beq_iff_eq.mp (Nesting.prop_of_cut (p := (· == '\x7d')) hcut)]
    simp
  · split
    · simp
    · rename_i hfirst
      exact absurd (Text.cutFirst_eq_none_iff.mp hfirst _ h) (by decide)

theorem cutRule_of_not_mem (h : '\x7d' ∉ t) : cutRule t = (t, []) := by
  have hcut : Nesting.cut .roundAndSquare (· == '\x7d') .top t = none := by
    rw [Option.eq_none_iff_forall_ne_some]
    rintro ⟨x, c, y⟩ hfound
    have hc := beq_iff_eq.mp (Nesting.prop_of_cut (p := (· == '\x7d')) hfound)
    rw [Nesting.cut_eq_some hfound, hc] at h
    exact h (by simp)
  have hfirst : Text.cutFirst (· == '\x7d') t = none := by
    rw [Text.cutFirst_eq_none_iff]
    intro c hc
    rw [beq_eq_false_iff_ne]
    rintro rfl
    exact h hc
  rw [cutRule, hcut, hfirst]

/-- A text that is one rule is that rule, with blanks around it. -/
theorem eq_trim_of_single {rule : Text} (h : ruleTexts t = [rule]) : rule = Text.trim t := by
  have hne : Text.trimStart t ≠ [] := fun hnil => by
    rw [ruleTexts_of_blank hnil] at h
    exact absurd h (by simp)
  rw [ruleTexts_of_not_blank hne, List.cons.injEq] at h
  have hblank : Text.trimEnd (cutRule (Text.trimStart t)).2 = [] :=
    Text.trimEnd_eq_nil_iff.mpr
      (Text.trimStart_eq_nil_iff.mp (ruleTexts_eq_nil_iff.mp h.2))
  rw [← h.1, ← Text.trimEnd_append_of_blank hblank, cutRule_append, Text.trim]

/-- A rule with a closing brace ends at one. -/
theorem not_mem_of_single {rule : Text} (h : ruleTexts t = [rule])
    (hlast : ∀ c ∈ (Text.trimStart t).getLast?, Text.isBlank c = false ∧ c ≠ '\x7d') :
    '\x7d' ∉ Text.trimStart t := by
  intro hmem
  have hbrace := getLast?_cutRule hmem
  rw [cutRule_of_single h fun c hc => (hlast c hc).1] at hbrace
  exact (hlast _ hbrace).2 rfl

theorem ruleTexts_of_not_mem (ht : Text.trimStart t ≠ []) (h : '\x7d' ∉ t) :
    ruleTexts t = [Text.trim t] := by
  have hstart : '\x7d' ∉ Text.trimStart t := fun hmem =>
    h ((List.dropWhile_sublist _).mem hmem)
  rw [ruleTexts_of_not_blank ht, cutRule_of_not_mem hstart, ruleTexts_of_blank rfl, Text.trim]

/-! ### Finding the block -/

theorem braceSplits_eq_nil_iff : braceSplits t = [] ↔ '\x7b' ∉ t := by
  induction t with
  | nil => simp [braceSplits]
  | cons c r ih =>
    rw [braceSplits]
    by_cases hc : c = '\x7b'
    · simp [hc]
    · simp [hc, Ne.symm hc, ih]

theorem braceSplits_append (h : '\x7b' ∉ t) (u : Text) :
    braceSplits (t ++ u) = (braceSplits u).map fun (x, y) => (t ++ x, y) := by
  induction t with
  | nil => simp
  | cons c r ih =>
    obtain ⟨hc, hr⟩ := not_or.mp (mt List.mem_cons.mpr h)
    rw [List.cons_append, braceSplits]
    simp only [if_neg (Ne.symm hc), ih hr, List.map_map]
    rfl

/-- Cutting at a brace loses nothing but the brace. -/
theorem eq_append_of_mem_braceSplits {x y : Text} (h : (x, y) ∈ braceSplits t) :
    t = x ++ '\x7b' :: y := by
  induction t generalizing x with
  | nil => exact absurd h (by simp [braceSplits])
  | cons c r ih =>
    have hlater : ∀ {x}, (x, y) ∈ (braceSplits r).map (Text.onto c) →
        c :: r = x ++ '\x7b' :: y := by
      intro x hmem
      obtain ⟨⟨x', y'⟩, hearlier, heq⟩ := List.mem_map.mp hmem
      obtain ⟨rfl, rfl⟩ := Prod.mk.inj heq
      rw [List.cons_append, ← ih hearlier]
    rw [braceSplits] at h
    by_cases hc : c = '\x7b'
    · simp only [if_pos hc, List.mem_cons] at h
      rcases h with heq | h
      · obtain ⟨rfl, rfl⟩ := Prod.mk.inj heq
        rw [hc]
        rfl
      · exact hlater h
    · simp only [if_neg hc] at h
      exact hlater h

/-- What an accepted candidate is made of. -/
theorem compileCandidate_eq_ok {cache : Extended.Cache} {rule before after : Text} {compiled : Rule}
    (h : (compileCandidate cache rule before after).1 = .ok compiled) :
    ∃ selector marked tree, stripRemoval before = .ok (selector, marked) ∧ selector ≠ [] ∧
      (cache.read selector).1 = .ok tree ∧
      ruleOf rule selector marked tree after = .ok compiled := by
  unfold compileCandidate readSelector at h
  split at h
  · exact absurd h (by simp)
  · rename_i selector marked hstrip
    split_ifs at h with hempty
    rcases hread : cache.read selector with ⟨e | tree, cache'⟩ <;> rw [hread] at h
    · exact absurd h (by simp)
    · exact ⟨selector, marked, tree, hstrip, hempty, by rw [hread], h⟩

/-- Only a block with its closing brace makes a rule. -/
theorem getLast?_of_ruleOf {rule selector block : Text} {marked : Bool} {tree : Extended.Selector}
    {compiled : Rule} (h : ruleOf rule selector marked tree block = .ok compiled) :
    block.getLast? = some '\x7d' := by
  unfold ruleOf dropBrace? at h
  by_contra hne
  rw [if_neg hne] at h
  exact absurd h (by simp)

/-- The first success is one of the candidates, read with some cache. -/
theorem exists_of_compileFirst {cache : Extended.Cache} {rule : Text}
    {candidates : List (Text × Text)} {compiled : Rule}
    (h : (compileFirst cache rule candidates).1 = some (.ok compiled)) :
    ∃ cache', ∃ c ∈ candidates, (compileCandidate cache' rule c.1 c.2).1 = .ok compiled := by
  induction candidates generalizing cache with
  | nil => exact absurd h (by simp [compileFirst])
  | cons c r ih =>
    obtain ⟨before, after⟩ := c
    rw [compileFirst] at h
    rcases hfirst : compileCandidate cache rule before after with ⟨e | done, cache'⟩ <;>
      rw [hfirst] at h
    · simp only at h
      rcases hlater : compileFirst cache' rule r with ⟨_ | e' | done, cache''⟩ <;>
        rw [hlater] at h
      · exact absurd h (by simp)
      · exact absurd h (by simp)
      · obtain ⟨cache₁, d, hd, hdone⟩ := ih (by rw [hlater]; exact h)
        exact ⟨cache₁, d, List.mem_cons_of_mem _ hd, hdone⟩
    · refine ⟨cache, (before, after), List.mem_cons_self .., ?_⟩
      rw [hfirst]
      exact Option.some_inj.mp h

theorem compileFirst_ne_none {cache : Extended.Cache} {rule : Text}
    {candidates : List (Text × Text)} (h : candidates ≠ []) :
    (compileFirst cache rule candidates).1 ≠ none := by
  obtain ⟨⟨before, after⟩, r, rfl⟩ := List.exists_cons_of_ne_nil h
  rw [compileFirst]
  split
  · simp
  · split <;> simp

theorem compileFirst_single (cache : Extended.Cache) (rule before after : Text) :
    (compileFirst cache rule [(before, after)]).1 =
      some (compileCandidate cache rule before after).1 := by
  rw [compileFirst]
  rcases compileCandidate cache rule before after with ⟨e | compiled, cache'⟩ <;> rfl

theorem compileBare_eq_ok_iff {cache : Extended.Cache} {rule : Text} {compiled : Rule} :
    (compileBare cache rule).1 = .ok compiled ↔
      ∃ selector marked tree, stripRemoval rule = .ok (selector, marked) ∧
        (cache.read selector).1 = .ok tree ∧ (marked || tree.hasRemoval) = true ∧
        compiled = ⟨Extended.normalForm selector, tree, [], true⟩ := by
  constructor
  · intro h
    unfold compileBare readSelector at h
    split at h
    · exact absurd h (by simp)
    · rename_i selector marked hstrip
      rcases hread : cache.read selector with ⟨e | tree, cache'⟩ <;> simp only [hread] at h
      · exact absurd h (by simp)
      · split_ifs at h with hremoval
        exact ⟨selector, marked, tree, hstrip, by rw [hread], hremoval, (Except.ok.inj h).symm⟩
  · rintro ⟨selector, marked, tree, hstrip, hread, hremoval, rfl⟩
    rcases hcache : cache.read selector with ⟨result, cache'⟩
    rw [hcache] at hread
    simp only at hread
    subst hread
    simp only [compileBare, readSelector, hstrip, hcache, hremoval, if_true]

/-- What an accepted rule has passed. -/
theorem compileRule_eq_ok {cache : Extended.Cache} {compiled : Rule}
    (h : (compileRule cache t).1 = .ok compiled) :
    Text.trim t ≠ [] ∧ (Text.trim t).head? ≠ some '\x7b' ∧
      checkSupported (Text.trim t) = .ok () ∧
      ((compileFirst cache (Text.trim t) (braceSplits (Text.trim t)).reverse).1 =
          some (.ok compiled) ∨
        '\x7b' ∉ Text.trim t ∧ (compileBare cache (Text.trim t)).1 = .ok compiled) := by
  unfold compileRule at h
  simp only at h
  split_ifs at h with hnil hhead
  refine ⟨hnil, hhead, ?_⟩
  cases hsupported : checkSupported (Text.trim t) with
  | error e => rw [hsupported] at h; exact absurd h (by simp)
  | ok =>
    refine ⟨rfl, ?_⟩
    rw [hsupported] at h
    simp only at h
    rcases hfirst : compileFirst cache (Text.trim t) (braceSplits (Text.trim t)).reverse with
      ⟨_ | result, cache'⟩ <;> rw [hfirst] at h
    · have hbraces : '\x7b' ∉ Text.trim t := by
        rw [← braceSplits_eq_nil_iff]
        by_contra hne
        exact compileFirst_ne_none (List.reverse_eq_nil_iff.not.mpr hne)
          (congrArg Prod.fst hfirst)
      rw [braceSplits_eq_nil_iff.mpr hbraces, List.reverse_nil, compileFirst] at hfirst
      rw [← (Prod.mk.inj hfirst).2] at h
      exact Or.inr ⟨hbraces, h⟩
    · exact Or.inl (congrArg some h)

/-- An accepted rule with an opening brace ends in a closing one. -/
theorem getLast?_of_compileRule {cache : Extended.Cache} {compiled : Rule}
    (h : (compileRule cache t).1 = .ok compiled) (hbrace : '\x7b' ∈ Text.trim t) :
    (Text.trim t).getLast? = some '\x7d' := by
  obtain ⟨-, -, -, hfirst | ⟨hnone, -⟩⟩ := compileRule_eq_ok h
  · obtain ⟨cache', ⟨x, y⟩, hmem, hdone⟩ := exists_of_compileFirst hfirst
    obtain ⟨selector, marked, tree, -, -, -, hrule⟩ := compileCandidate_eq_ok hdone
    have hlast := getLast?_of_ruleOf hrule
    have hne : y ≠ [] := by
      rintro rfl
      exact absurd hlast (by simp)
    rw [eq_append_of_mem_braceSplits (List.mem_reverse.mp hmem),
      List.getLast?_append_of_ne_nil _ (List.cons_ne_nil _ y), List.getLast?_cons]
    simp only at hlast
    rw [hlast]
    rfl
  · exact absurd hbrace hnone

theorem compileRule_of_no_brace {cache : Extended.Cache} (ht : Text.trim t ≠ [])
    (hsupported : checkSupported (Text.trim t) = .ok ()) (h : '\x7b' ∉ Text.trim t) :
    compileRule cache t = compileBare cache (Text.trim t) := by
  have hhead : (Text.trim t).head? ≠ some '\x7b' := fun hhead => h (List.mem_of_mem_head? hhead)
  unfold compileRule
  simp only [if_neg ht, if_neg hhead, hsupported, braceSplits_eq_nil_iff.mpr h, List.reverse_nil,
    compileFirst]

/-! ### Comments -/

theorem hasCommentFrom_of_no_star (h : '*' ∉ t) (quote previous : Option Char) :
    hasCommentFrom quote previous t = false := by
  induction t generalizing quote previous with
  | nil => rfl
  | cons c r ih =>
    obtain ⟨hc, hr⟩ := not_or.mp (mt List.mem_cons.mpr h)
    have hstar : ¬ (c = '*' ∧ previous = some '/') := fun hstar => hc hstar.1.symm
    unfold hasCommentFrom
    simp only [if_neg hstar, ih hr, ite_self]
    split <;> rfl

/-- A text without a star begins no comment and goes on with none. -/
theorem hasCommentFrom_append (h : '*' ∉ u) (t : Text) (quote previous : Option Char) :
    hasCommentFrom quote previous (t ++ u) = hasCommentFrom quote previous t := by
  induction t generalizing quote previous with
  | nil => exact hasCommentFrom_of_no_star h ..
  | cons c r ih =>
    rw [List.cons_append]
    unfold hasCommentFrom
    simp only [ih]

/-- Neither form adds an at-rule or a comment. -/
theorem checkSupported_append_eq_ok_iff (ht : t ≠ []) (h : '*' ∉ u) :
    checkSupported (t ++ u) = .ok () ↔ checkSupported t = .ok () := by
  obtain ⟨c, r, rfl⟩ := List.exists_cons_of_ne_nil ht
  have hcomment : hasComment (c :: r ++ u) = hasComment (c :: r) := hasCommentFrom_append h ..
  unfold checkSupported
  rw [hcomment, List.cons_append, List.head?_cons, List.head?_cons]
  split_ifs <;> simp

/-! ### The whole text -/

theorem compileSingle_eq_ok_iff {c : Compiler} {data : RuleData} :
    (c.compileSingle t).1 = .ok data ↔
      checkSupported (Text.trim t) = .ok () ∧ ∃ rule compiled, ruleTexts t = [rule] ∧
        (compileRule c.cache rule).1 = .ok compiled ∧
        data = (Entry.ofRule compiled).finish c.options := by
  unfold Compiler.compileSingle
  cases checkSupported (Text.trim t) with
  | error e => simp
  | ok =>
    rcases ruleTexts t with _ | ⟨rule, _ | ⟨later, rules⟩⟩
    · simp
    · rcases hrule : compileRule c.cache rule with ⟨e | compiled, cache⟩ <;>
        simp [hrule, eq_comm]
    · simp

end StyleSheet
end CosmeticFilter
