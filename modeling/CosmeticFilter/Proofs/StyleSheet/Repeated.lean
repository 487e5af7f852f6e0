import CosmeticFilter.Proofs.StyleSheet.SharedCache

/-!
# Repeated rules

When texts are compiled a second time, the cache has an answer for everything that was asked for the
first time, and every selector has an entry. Neither makes a difference. An answer that was given
once is given again, so the same attempts succeed, the same rules are read, and the cache does not
grow any more. And a rule that is merged again sets properties that are there: each of them keeps
its place, and in the end it has the value that it had before.

* `Cache.Extends`: a cache with all answers of another one;
* `readAll_of_extends`: what was read once is read again;
* `InsertsByKey.foldl_append_self`: repeated insertions;
* `Compiler.compile_append_self`: repeated texts.
-/

namespace CosmeticFilter
namespace Extended
namespace Cache

/-! ### Answers that were given -/

/-- A cache knows everything that another one knows. -/
def Extends (c c' : Cache) : Prop := ∀ t known, c.find? t = some known → c'.find? t = some known

theorem Extends.refl (c : Cache) : Extends c c := fun _ _ h => h

theorem Extends.trans {c c' c'' : Cache} (h : Extends c c') (h' : Extends c' c'') :
    Extends c c'' := fun t known hknown => h' t known (h t known hknown)

theorem extends_read (c : Cache) (t : Text) : Extends c (c.read t).2 := by
  intro u known hu
  cases ht : c.find? t with
  | some answer => rwa [read_of_some ht]
  | none =>
    have hform : normalForm u ≠ normalForm t := by
      intro h
      rw [c.find?_congr h, ht] at hu
      exact absurd hu (by simp)
    rw [read_of_none ht, find?_cons, if_neg hform, hu]

/-- An answer is known from then on. -/
theorem find?_read (c : Cache) (t : Text) : (c.read t).2.find? t = some (c.read t).1 := by
  cases ht : c.find? t with
  | some answer => rw [read_of_some ht, ht]
  | none => rw [read_of_none ht, find?_cons, if_pos rfl]

theorem read_of_extends {c c' : Cache} {t : Text} (h : Extends (c.read t).2 c') :
    c'.read t = ((c.read t).1, c') :=
  read_of_some (h t _ (c.find?_read t))

end Cache
end Extended

namespace StyleSheet

open Extended

theorem extends_compileAttempts (c : Cache) (as : List Attempt) :
    c.Extends (compileAttempts c as).2 := by
  induction as generalizing c with
  | nil => exact .refl c
  | cons a r ih =>
    rw [compileAttempts]
    split
    · exact c.extends_read a.text
    · exact (c.extends_read a.text).trans (ih _)

/-- Attempts that are made again end as before, and teach the cache nothing. -/
theorem compileAttempts_of_extends {c c' : Cache} {as : List Attempt}
    (h : (compileAttempts c as).2.Extends c') :
    compileAttempts c' as = ((compileAttempts c as).1, c') := by
  induction as generalizing c with
  | nil => rfl
  | cons a r ih =>
    have hread : (c.read a.text).2.Extends c' := by
      refine Cache.Extends.trans ?_ h
      rw [compileAttempts]
      split
      · exact .refl _
      · exact extends_compileAttempts _ r
    rw [compileAttempts] at h ⊢
    rw [compileAttempts, Cache.read_of_extends hread]
    simp only
    cases hrule : (c.read a.text).1.toOption.bind a.rule? with
    | some rule => rfl
    | none =>
      rw [hrule] at h
      exact ih h

namespace Compiler

theorem extends_readAll (c : Cache) (ts : List Text) : c.Extends (readAll c ts).2 := by
  induction ts generalizing c with
  | nil => exact .refl c
  | cons t r ih =>
    rw [(readAll_cons c t r).2]
    exact (extends_compileAttempts c _).trans (ih _)

/-- What was read once is read again, by any cache that remembers it. -/
theorem readAll_of_extends {c c' : Cache} {ts : List Text} (h : (readAll c ts).2.Extends c') :
    (readAll c' ts).1.1 = (readAll c ts).1.1 ∧ (readAll c' ts).2 = c' := by
  induction ts generalizing c with
  | nil => exact ⟨rfl, rfl⟩
  | cons t r ih =>
    rw [(readAll_cons c t r).2] at h
    have hfirst := compileAttempts_of_extends ((extends_readAll _ r).trans h)
    obtain ⟨hrules, hcache⟩ := ih h
    rw [(readAll_cons c' t r).1, (readAll_cons c' t r).2, (readAll_cons c t r).1, hfirst]
    exact ⟨congrArg _ hrules, hcache⟩

end Compiler

/-! ### Insertions that are repeated -/

theorem eraseDups_append_self {κ : Type} [BEq κ] [LawfulBEq κ] (l : List κ) :
    (l ++ l).eraseDups = l.eraseDups := by
  have hnone : l.removeAll l = [] := by
    rw [List.removeAll, List.filter_eq_nil_iff]
    simp
  rw [List.eraseDups_append, hnone, List.eraseDups_nil, List.append_nil]

/-- Repeated insertions change nothing, if for each key they change nothing. -/
theorem InsertsByKey.foldl_append_self {α β κ : Type} [BEq κ] [LawfulBEq κ]
    {insert : β → List α → List α} {key : α → κ} {keyOf : β → κ} {new : β → α} {extend : α → β → α}
    (h : InsertsByKey insert key keyOf new extend) (bs : List β)
    (hcollect : ∀ k, collect new extend
        ((bs.filter fun b => keyOf b == k) ++ bs.filter fun b => keyOf b == k) =
      collect new extend (bs.filter fun b => keyOf b == k)) :
    (bs ++ bs).foldl (fun l b => insert b l) [] = bs.foldl (fun l b => insert b l) [] := by
  rw [h.foldl_eq_filterMap (bs ++ bs), h.foldl_eq_filterMap bs, List.map_append,
    eraseDups_append_self]
  refine List.filterMap_congr fun k _ => ?_
  rw [h.find?_foldl, h.find?_foldl, List.filter_append, hcollect]

theorem lastOf?_append_self (property : Text) (ds : List Declaration) :
    lastOf? property (ds ++ ds) = lastOf? property ds := by
  rw [lastOf?, List.filter_append, List.getLast?_append, Option.or_self]
  rfl

/-- Declarations that are repeated have no effect. -/
theorem effective_append_self (ds : List Declaration) : effective (ds ++ ds) = effective ds := by
  rw [effective, List.map_append, eraseDups_append_self]
  exact List.filterMap_congr fun p _ => lastOf?_append_self p ds

theorem collect_append_self (rules : List Rule) :
    collect Entry.ofRule Entry.extend (rules ++ rules) =
      collect Entry.ofRule Entry.extend rules := by
  cases rules with
  | nil => rfl
  | cons r later =>
    have hdeclared : declared (r :: (later ++ r :: later)) =
        declared (r :: later) ++ declared (r :: later) := by
      rw [← List.cons_append, declared, declared, List.flatMap_append]
    have hremoval : (r :: (later ++ r :: later)).any Rule.isRemoval =
        (r :: later).any Rule.isRemoval := by
      rw [← List.cons_append, List.any_append, Bool.or_self]
    rw [List.cons_append, collect, collect, foldl_extend_ofRule, foldl_extend_ofRule, hdeclared,
      effective_append_self, hremoval]

/-- Rules that are merged again leave every entry as it is. -/
theorem merge_append_self (rules : List Rule) : merge (rules ++ rules) = merge rules :=
  insertsByKey_add.foldl_append_self rules fun k => collect_append_self (rulesOf k rules)

namespace Compiler

/-- **Repeated rules.** Texts that are compiled twice, in one style sheet or by a compiler that has
compiled them before, come to the same rules. -/
theorem compile_append_self (c : Compiler) (texts : List Text) :
    (c.compile (texts ++ texts)).1.rules = (c.compile texts).1.rules ∧
      ((c.compile texts).2.compile texts).1.rules = (c.compile texts).1.rules := by
  have hagain : (readAll (readAll c.cache (texts.flatMap ruleTexts)).2
      (texts.flatMap ruleTexts)).1.1 = (readAll c.cache (texts.flatMap ruleTexts)).1.1 :=
    (readAll_of_extends (Cache.Extends.refl _)).1
  constructor
  · simp only [compile, finish, List.flatMap_append, (readAll_append ..).1, hagain,
      merge_append_self]
  · simp only [compile, finish, hagain]

end Compiler
end StyleSheet
end CosmeticFilter
