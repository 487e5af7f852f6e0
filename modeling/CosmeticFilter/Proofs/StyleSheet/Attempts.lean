import CosmeticFilter.Proofs.StyleSheet.SingleRule

/-!
# The attempts at a rule

A rule is read by trying: each opening brace could begin the block, and what stands before it is
handed to the cache as a selector. Errors aside, all of this is one list of attempts that does not
depend on the cache, and the rule is the first that succeeds. The cache only comes in where an
attempt asks for its selector, so what is true of a single question carries over to a rule.

* `Attempt`, `attempts`: the selector texts that may be asked for, and what becomes of the rule;
* `compileAttempts`: the first success;
* `compileRule_eq`: reading a rule is trying its attempts.
-/

namespace CosmeticFilter
namespace StyleSheet

/-- An attempt at a rule. -/
structure Attempt where
  /-- The text that should be its selector. -/
  text : Text
  /-- The rule, once the selector has been read. -/
  rule? : Extended.Selector → Option Rule

/-- The attempt with a block that begins at a given brace. -/
def Attempt.ofSplit? (rule before after : Text) : Option Attempt :=
  match stripRemoval before with
  | .error _ => none
  | .ok (selector, marked) =>
    if selector = [] then none
    else some ⟨selector, fun tree => (ruleOf rule selector marked tree after).toOption⟩

/-- The attempt at a rule without a block. -/
def Attempt.bare? (rule : Text) : Option Attempt :=
  match stripRemoval rule with
  | .error _ => none
  | .ok (selector, marked) =>
    some ⟨selector, fun tree =>
      if marked || tree.hasRemoval then some ⟨Extended.normalForm selector, tree, [], true⟩
      else none⟩

/-- The attempts at a rule without blanks around it, in the order in which they are made. -/
def Attempt.each (rule : Text) : List Attempt :=
  if '\x7b' ∈ rule then
    (braceSplits rule).reverse.filterMap fun c => Attempt.ofSplit? rule c.1 c.2
  else (Attempt.bare? rule).toList

/-- The attempts at a rule. -/
def attempts (t : Text) : List Attempt :=
  let rule := Text.trim t
  if rule = [] then []
  else if rule.head? = some '\x7b' then []
  else match checkSupported rule with
    | .error _ => []
    | .ok () => Attempt.each rule

/-- The first attempt that succeeds. -/
def compileAttempts (cache : Extended.Cache) : List Attempt → Option Rule × Extended.Cache
  | [] => (none, cache)
  | a :: r =>
    match (cache.read a.text).1.toOption.bind a.rule? with
    | some rule => (some rule, (cache.read a.text).2)
    | none => compileAttempts (cache.read a.text).2 r

theorem compileAttempts_append (cache : Extended.Cache) (x y : List Attempt) :
    compileAttempts cache (x ++ y) =
      if (compileAttempts cache x).1.isSome then compileAttempts cache x
      else compileAttempts (compileAttempts cache x).2 y := by
  induction x generalizing cache with
  | nil => rfl
  | cons a x ih =>
    rw [List.cons_append, compileAttempts, compileAttempts]
    split
    · rfl
    · exact ih _

/-! ### Reading a rule -/

theorem compileCandidate_eq (cache : Extended.Cache) (rule before after : Text) :
    compileAttempts cache (Attempt.ofSplit? rule before after).toList =
      ((compileCandidate cache rule before after).1.toOption,
        (compileCandidate cache rule before after).2) := by
  unfold compileCandidate Attempt.ofSplit? readSelector
  rcases stripRemoval before with e | ⟨selector, marked⟩
  · rfl
  · simp only
    split_ifs with hempty
    · rfl
    · simp only [Option.toList_some, compileAttempts]
      rcases cache.read selector with ⟨e | tree, cache'⟩
      · rfl
      · simp only [Except.toOption, Option.bind_some]
        cases ruleOf rule selector marked tree after <;> rfl

theorem compileFirst_eq (cache : Extended.Cache) (rule : Text) (candidates : List (Text × Text)) :
    compileAttempts cache (candidates.filterMap fun c => Attempt.ofSplit? rule c.1 c.2) =
      ((compileFirst cache rule candidates).1.bind Except.toOption,
        (compileFirst cache rule candidates).2) := by
  induction candidates generalizing cache with
  | nil => rfl
  | cons c r ih =>
    obtain ⟨before, after⟩ := c
    have hlist : ((before, after) :: r).filterMap (fun c => Attempt.ofSplit? rule c.1 c.2) =
        (Attempt.ofSplit? rule before after).toList ++
          r.filterMap fun c => Attempt.ofSplit? rule c.1 c.2 := by
      cases h : Attempt.ofSplit? rule before after with
      | none => simp [h]
      | some a => simp [h]
    rw [hlist, compileAttempts_append, compileCandidate_eq, compileFirst]
    rcases compileCandidate cache rule before after with ⟨e | compiled, cache'⟩
    · simp only [Except.toOption, Option.isSome_none, Bool.false_eq_true, if_false, ih]
      rcases compileFirst cache' rule r with ⟨_ | e' | compiled, cache''⟩ <;> rfl
    · rfl

theorem compileBare_eq (cache : Extended.Cache) (rule : Text) :
    compileAttempts cache (Attempt.bare? rule).toList =
      ((compileBare cache rule).1.toOption, (compileBare cache rule).2) := by
  unfold compileBare Attempt.bare? readSelector
  rcases stripRemoval rule with e | ⟨selector, marked⟩
  · rfl
  · simp only [Option.toList_some, compileAttempts]
    rcases cache.read selector with ⟨e | tree, cache'⟩
    · rfl
    · simp only [Except.toOption, Option.bind_some]
      cases hremoval : marked || tree.hasRemoval <;> rfl

theorem compileEach_eq (cache : Extended.Cache) (rule : Text) :
    compileAttempts cache (Attempt.each rule) =
      match compileFirst cache rule (braceSplits rule).reverse with
      | (some result, cache') => (result.toOption, cache')
      | (none, cache') => ((compileBare cache' rule).1.toOption, (compileBare cache' rule).2) := by
  unfold Attempt.each
  split_ifs with hbrace
  · rw [compileFirst_eq]
    rcases hfirst : compileFirst cache rule (braceSplits rule).reverse with ⟨_ | result, cache'⟩
    · have hne : braceSplits rule ≠ [] := mt braceSplits_eq_nil_iff.mp (not_not.mpr hbrace)
      exact absurd (congrArg Prod.fst hfirst)
        (compileFirst_ne_none (mt List.reverse_eq_nil_iff.mp hne))
    · rfl
  · rw [braceSplits_eq_nil_iff.mpr hbrace, List.reverse_nil, compileFirst, compileBare_eq]

/-- Errors aside, a rule is the first of its attempts that succeeds. -/
theorem compileRule_eq (cache : Extended.Cache) (t : Text) :
    compileAttempts cache (attempts t) =
      ((compileRule cache t).1.toOption, (compileRule cache t).2) := by
  unfold compileRule attempts
  simp only
  split_ifs with hnil hhead
  · rfl
  · rfl
  · cases checkSupported (Text.trim t) with
    | error e => rfl
    | ok =>
      simp only [compileEach_eq]
      rcases compileFirst cache (Text.trim t) (braceSplits (Text.trim t)).reverse with
        ⟨_ | result, cache'⟩ <;> rfl

/-! ### What an attempt makes -/

theorem Attempt.ofSplit?_eq_some {rule before after : Text} {a : Attempt}
    (h : Attempt.ofSplit? rule before after = some a) :
    ∃ marked, stripRemoval before = .ok (a.text, marked) ∧ a.text ≠ [] ∧
      a.rule? = fun tree => (ruleOf rule a.text marked tree after).toOption := by
  unfold ofSplit? at h
  rcases hstrip : stripRemoval before with e | ⟨selector, marked⟩ <;> rw [hstrip] at h
  · exact absurd h (by simp)
  · simp only at h
    split_ifs at h with hempty
    obtain rfl := Option.some_inj.mp h
    exact ⟨marked, rfl, hempty, rfl⟩

theorem Attempt.bare?_eq_some {rule : Text} {a : Attempt} (h : Attempt.bare? rule = some a) :
    ∃ marked, stripRemoval rule = .ok (a.text, marked) ∧
      a.rule? = fun tree => if marked || tree.hasRemoval then
        some ⟨Extended.normalForm a.text, tree, [], true⟩ else none := by
  unfold bare? at h
  rcases hstrip : stripRemoval rule with e | ⟨selector, marked⟩ <;> rw [hstrip] at h
  · exact absurd h (by simp)
  · obtain rfl := Option.some_inj.mp h
    exact ⟨marked, rfl, rfl⟩

theorem eq_of_ruleOf {rule selector block : Text} {marked : Bool} {tree : Extended.Selector}
    {compiled : Rule} (h : ruleOf rule selector marked tree block = .ok compiled) :
    compiled.selector = Extended.normalForm selector ∧ compiled.tree = tree := by
  unfold ruleOf at h
  split at h
  · exact absurd h (by simp)
  · simp only at h
    split at h
    · exact absurd h (by simp)
    · obtain rfl := Except.ok.inj h
      exact ⟨rfl, rfl⟩

theorem mem_each_of_mem_attempts {t : Text} {a : Attempt} (h : a ∈ attempts t) :
    a ∈ Attempt.each (Text.trim t) := by
  unfold attempts at h
  simp only at h
  split_ifs at h
  · exact absurd h List.not_mem_nil
  · exact absurd h List.not_mem_nil
  · split at h
    · exact absurd h List.not_mem_nil
    · exact h

/-- The rule of an attempt has the selector that was asked for. -/
theorem eq_of_rule?_eq_some {t : Text} {a : Attempt} (ha : a ∈ attempts t)
    {tree : Extended.Selector} {rule : Rule} (h : a.rule? tree = some rule) :
    rule.selector = Extended.normalForm a.text ∧ rule.tree = tree := by
  have heach := mem_each_of_mem_attempts ha
  unfold Attempt.each at heach
  split_ifs at heach with hbrace
  · obtain ⟨c, -, hc⟩ := List.mem_filterMap.mp heach
    obtain ⟨marked, -, -, hrule⟩ := Attempt.ofSplit?_eq_some hc
    rw [hrule] at h
    simp only at h
    cases hcompiled : ruleOf (Text.trim t) a.text marked tree c.2 with
    | error e => rw [hcompiled] at h; exact absurd h (by simp [Except.toOption])
    | ok compiled =>
      rw [hcompiled] at h
      obtain rfl := Option.some_inj.mp h
      exact eq_of_ruleOf hcompiled
  · obtain ⟨marked, -, hrule⟩ := Attempt.bare?_eq_some (Option.mem_toList.mp heach)
    rw [hrule] at h
    simp only at h
    split_ifs at h
    obtain rfl := Option.some_inj.mp h
    exact ⟨rfl, rfl⟩

/-! ### The cache behind the attempts -/

/-- What survives each question that the attempts ask survives the attempts, and a rule comes from
an answer that was given while it held. -/
theorem compileAttempts_keeps {P : Extended.Cache → Prop} {attempts : List Attempt}
    (hread : ∀ cache, P cache → ∀ a ∈ attempts, P (cache.read a.text).2) {cache : Extended.Cache}
    (h : P cache) :
    P (compileAttempts cache attempts).2 ∧
      ∀ rule, (compileAttempts cache attempts).1 = some rule →
        ∃ cache' a tree, P cache' ∧ a ∈ attempts ∧ (cache'.read a.text).1 = .ok tree ∧
          a.rule? tree = some rule := by
  induction attempts generalizing cache with
  | nil => exact ⟨h, fun rule hrule => absurd hrule (by simp [compileAttempts])⟩
  | cons a r ih =>
    have hnext := hread cache h a List.mem_cons_self
    have hlater := ih (fun cache h b hb => hread cache h b (List.mem_cons_of_mem _ hb)) hnext
    rw [compileAttempts]
    rcases hanswer : (cache.read a.text).1 with e | tree
    · simp only [Except.toOption, Option.bind_none]
      refine ⟨hlater.1, fun rule hrule => ?_⟩
      obtain ⟨cache', b, tree, hP, hb, hrest⟩ := hlater.2 rule hrule
      exact ⟨cache', b, tree, hP, List.mem_cons_of_mem _ hb, hrest⟩
    · simp only [Except.toOption, Option.bind_some]
      cases hdone : a.rule? tree with
      | none =>
        refine ⟨hlater.1, fun rule hrule => ?_⟩
        obtain ⟨cache', b, tree, hP, hb, hrest⟩ := hlater.2 rule hrule
        exact ⟨cache', b, tree, hP, List.mem_cons_of_mem _ hb, hrest⟩
      | some done =>
        refine ⟨hnext, fun rule hrule => ?_⟩
        exact ⟨cache, a, tree, h, List.mem_cons_self, hanswer, hdone.trans hrule⟩

end StyleSheet
end CosmeticFilter
