import CosmeticFilter.Css.Matching
import CosmeticFilter.Proofs.Css.GoingOn

/-!
# Selectors without `:scope`

A selector can ask for `:scope` only by its name, since one without escapes spells every name as it
is. Without it, what a selector stands for does not depend on the node that `:scope` stands for, and
only elements meet its compounds.

* `IsUnscoped`: the compound does not ask for `:scope`;
* `isUnscoped_of_readChain`: selectors that are read from a text without `:scope`;
* `chainEnds`, `chainHolds_append`: a chain in two parts;
* `chainEnds_of_isUnscoped`: `:scope` does not count;
* `selects_chain_iff`: a selector is matched up to one of its compounds, and then from there.
-/

namespace CosmeticFilter
namespace Text

theorem occursIn_iff {needle t : Text} : occursIn needle t = true ↔ needle <:+: t := by
  induction t with
  | nil => rw [occursIn, List.isEmpty_iff, List.infix_nil]
  | cons c r ih =>
    rw [occursIn, Bool.or_eq_true_iff, ih, List.isPrefixOf_iff_prefix, List.infix_cons_iff]

end Text

namespace Css

/-- The compound does not ask for `:scope`. -/
def IsUnscoped (c : Compound) : Prop := Simple.pseudo .scope ∉ c

/-! ### Reading -/

theorem of_ite_eq_some {α : Type} {p : Prop} [Decidable p] {x z : α} {y : Option α}
    (h : (if p then some x else y) = some z) : x = z ∨ y = some z := by
  split at h
  · exact Or.inl (Option.some_inj.mp h)
  · exact Or.inr h

theorem eq_scope_of_plainPseudoClass? {name : Text} (h : plainPseudoClass? name = some .scope) :
    name = "scope".toList := by
  by_contra hne
  unfold plainPseudoClass? at h
  rw [if_neg hne] at h
  iterate 14
    replace h := (of_ite_eq_some h).resolve_left (by simp)
  exact absurd h (by simp)

theorem eq_scope_of_pseudoClassOf {name : Text} {a : Option Text}
    (h : pseudoClassOf name a = .ok (.pseudo .scope)) : name = "scope".toList := by
  unfold pseudoClassOf at h
  simp only at h
  cases hpositional : positional? name with
  | some make =>
    rw [hpositional] at h
    have hmake : ∀ nth : Nth, make nth ≠ .scope := by
      intro nth
      unfold positional? at hpositional
      rcases of_ite_eq_some hpositional with rfl | hpositional
      · simp
      rcases of_ite_eq_some hpositional with rfl | hpositional
      · simp
      rcases of_ite_eq_some hpositional with rfl | hpositional
      · simp
      rcases of_ite_eq_some hpositional with rfl | hpositional
      · simp
      · exact absurd hpositional (by simp)
    cases hnth : a.bind Nth.ofText? with
    | none =>
      rw [hnth] at h
      exact absurd h (by simp)
    | some nth =>
      rw [hnth] at h
      exact absurd (Simple.pseudo.inj (Except.ok.inj h)) (hmake nth)
  | none =>
    rw [hpositional] at h
    cases a with
    | none =>
      cases hplain : plainPseudoClass? name with
      | some p =>
        rw [hplain] at h
        obtain rfl := Simple.pseudo.inj (Except.ok.inj h)
        exact eq_scope_of_plainPseudoClass? hplain
      | none =>
        rw [hplain] at h
        simp only at h
        repeat' split at h
        all_goals exact absurd h (by simp)
    | some a =>
      simp only at h
      repeat' split at h
      all_goals exact absurd h (by simp)

/-- `:scope` is asked for by its name. -/
theorem infix_of_readSimple {isFirst : Bool} {t rest : Text} (ht : IsPlain t)
    (h : readSimple isFirst t = .ok (some (.pseudo .scope, rest))) :
    ":scope".toList <:+: Text.lower t := by
  cases readsSimple_of_readSimple h with
  | @pseudo _ r _ _ hpseudo =>
    rw [readPseudo_eq] at hpseudo
    split at hpseudo
    · obtain ⟨name, -, hpseudo⟩ := Outcome.bind_eq_ok.mp hpseudo
      obtain ⟨argument, -, hpseudo⟩ := Outcome.bind_eq_ok.mp hpseudo
      obtain ⟨condition, hcondition, heq⟩ := Outcome.bind_eq_ok.mp hpseudo
      rw [(Prod.mk.inj (Except.ok.inj heq)).1, conditionOf, if_pos rfl] at hcondition
      split at hcondition <;> exact absurd hcondition (by simp)
    · obtain ⟨name, hname, hpseudo⟩ := Outcome.bind_eq_ok.mp hpseudo
      obtain ⟨argument, -, hpseudo⟩ := Outcome.bind_eq_ok.mp hpseudo
      obtain ⟨condition, hcondition, heq⟩ := Outcome.bind_eq_ok.mp hpseudo
      rw [(Prod.mk.inj (Except.ok.inj heq)).1, conditionOf,
        if_neg Bool.false_ne_true] at hcondition
      have hscope := eq_scope_of_pseudoClassOf hcondition
      have hr := takeIdent_eq_append fun d hd => ht d (List.mem_cons_of_mem ':' hd)
      obtain rfl : takeIdent r = name := (readIdent_eq_ok.mp hname).1
      have hlower : Text.lower r = "scope".toList ++ Text.lower (takeIdent r).2 := by
        conv_lhs => rw [← hr, Text.lower, List.map_append]
        exact congrArg (· ++ _) hscope
      have hcons : Text.lower (':' :: r) = ':' :: Text.lower r := rfl
      refine ⟨[], Text.lower (takeIdent r).2, ?_⟩
      rw [hcons, hlower]
      rfl

theorem infix_lower_of_suffix {u r t : Text} (h : u <:+: Text.lower r) (hr : r <:+ t) :
    u <:+: Text.lower t :=
  h.trans (hr.map Char.toLower).isInfix

theorem isUnscoped_of_readConditions {isFirst : Bool} {t rest : Text} {x : Compound}
    (ht : IsPlain t) (hscope : ¬ ":scope".toList <:+: Text.lower t)
    (h : readConditions isFirst t = .ok (x, rest)) : IsUnscoped x := by
  have hread := readsConditions_of_readConditions h
  clear h
  induction hread with
  | done => exact List.not_mem_nil
  | more hsome _ ih =>
    have hmid := (isRest_of_readSimple hsome).suffix
    have hunscoped := ih (ht.suffix hmid)
      (fun hinfix => hscope (infix_lower_of_suffix hinfix hmid))
    intro hmem
    rcases List.mem_cons.mp hmem with rfl | hmem
    · exact hscope (infix_of_readSimple ht hsome)
    · exact hunscoped hmem

/-- What holds of each compound that can be read of a text holds of those of a selector. -/
theorem forall_of_readChain {P : Compound → Prop} {left : List (Combinator × Compound)} {t : Text}
    {s : Complex} (hleft : ∀ p ∈ left, P p.2)
    (hread : ∀ u rest x, u <:+ t → readCompound u = .ok (x, rest) → P x)
    (h : readChain left t = .ok s) : P s.subject ∧ ∀ p ∈ s.chain, P p.2 := by
  have hchain := readsChain_of_readChain h
  clear h
  induction hchain with
  | @last left t rest compound hcompound _ =>
    exact ⟨hread t rest compound List.suffix_rfl hcompound, hleft⟩
  | @more left t rest u compound k s hcompound hcombinator _ ih =>
    have hsuffix := (suffix_of_readCombinator hcombinator).1.trans
      (isRest_of_readConditions (readCompound_eq_ok.mp hcompound).1).suffix
    refine ih (fun p hp => ?_) fun v r x hv => hread v r x (hv.trans hsuffix)
    rcases List.mem_cons.mp hp with rfl | hp
    · exact hread t rest compound List.suffix_rfl hcompound
    · exact hleft p hp

/-- A text without `:scope` is read as compounds that do not ask for it and are not empty. -/
theorem isUnscoped_of_readChain {t : Text} {s : Complex} (ht : IsPlain t)
    (hscope : ¬ ":scope".toList <:+: Text.lower t) (h : readChain [] t = .ok s) :
    (IsUnscoped s.subject ∧ s.subject ≠ []) ∧ ∀ p ∈ s.chain, IsUnscoped p.2 ∧ p.2 ≠ [] := by
  refine forall_of_readChain (P := fun c => IsUnscoped c ∧ c ≠ [])
    (fun p hp => absurd hp List.not_mem_nil) (fun u rest x hu hx => ?_) h
  obtain ⟨hconditions, hne⟩ := readCompound_eq_ok.mp hx
  exact ⟨isUnscoped_of_readConditions (ht.suffix hu)
    (fun hinfix => hscope (infix_lower_of_suffix hinfix hu)) hconditions, hne⟩

/-! ### Matching -/

variable {d : Document} {scope : Option Nat}

theorem holdsAt_of_ne_scope {s : Simple} (hs : s ≠ .pseudo .scope) (n : Nat) :
    s.holdsAt d scope n = s.holdsAt d none n := by
  unfold Simple.holdsAt
  split
  · exact absurd rfl hs
  · rfl
  · rfl

theorem compound_holdsAt_of_isUnscoped {c : Compound} (hc : IsUnscoped c) (n : Nat) :
    Compound.holdsAt d scope c n = Compound.holdsAt d none c n := by
  unfold Compound.holdsAt
  rw [Bool.eq_iff_iff, List.all_eq_true, List.all_eq_true]
  have heq : ∀ s ∈ c, s.holdsAt d scope n = s.holdsAt d none n := by
    intro s hs
    refine holdsAt_of_ne_scope ?_ n
    rintro rfl
    exact hc hs
  constructor
  · intro h s hs
    rw [← heq s hs]
    exact h s hs
  · intro h s hs
    rw [heq s hs]
    exact h s hs

/-- Only elements meet a compound that does not ask for `:scope`. -/
theorem isElement_of_holdsAt {c : Compound} (hc : IsUnscoped c) (hne : c ≠ []) {n : Nat}
    (h : Compound.holdsAt d scope c n = true) : d.isElement n = true := by
  obtain ⟨s, r, rfl⟩ := List.exists_cons_of_ne_nil hne
  have hs := List.all_eq_true.mp h s (List.mem_cons_self ..)
  have hne : s ≠ .pseudo .scope := by
    rintro rfl
    exact hc (List.mem_cons_self ..)
  have hsome : ∀ p : Element → Bool, (d.element? n).any p = true → d.isElement n = true := by
    intro p hp
    unfold Document.isElement
    cases helement : d.element? n with
    | none =>
      rw [helement] at hp
      exact absurd hp (by simp)
    | some e => rfl
  unfold Simple.holdsAt at hs
  split at hs
  · exact absurd rfl hne
  · exact hsome _ hs
  · exact hsome _ hs

/-- The nodes that the chain leads to from a node, its compounds met one after the other. -/
def chainEnds (d : Document) (scope : Option Nat) :
    List (Combinator × Compound) → Nat → List Nat
  | [], n => [n]
  | (k, c) :: rest, n =>
    ((k.candidates d n).filter (Compound.holdsAt d scope c)).flatMap (chainEnds d scope rest)

theorem chainHolds_append (l l' : List (Combinator × Compound)) (n : Nat) :
    chainHolds d scope (l ++ l') n = (chainEnds d scope l n).any (chainHolds d scope l') := by
  induction l generalizing n with
  | nil =>
    rw [chainEnds, List.any_cons, List.any_nil, Bool.or_false]
    rfl
  | cons p l ih =>
    obtain ⟨k, c⟩ := p
    rw [List.cons_append, chainHolds, chainEnds, List.any_flatMap, List.any_filter]
    simp only [ih]

theorem chainEnds_of_isUnscoped {l : List (Combinator × Compound)}
    (hl : ∀ p ∈ l, IsUnscoped p.2) (n : Nat) :
    chainEnds d scope l n = chainEnds d none l n := by
  induction l generalizing n with
  | nil => rfl
  | cons p l ih =>
    obtain ⟨k, c⟩ := p
    have hc : Compound.holdsAt d scope c = Compound.holdsAt d none c :=
      funext (compound_holdsAt_of_isUnscoped (hl (k, c) (List.mem_cons_self ..)))
    have hl' := funext (ih fun p hp => hl p (List.mem_cons_of_mem _ hp))
    rw [chainEnds, chainEnds, hc, hl']

/-! ### Matching in two steps -/

/-- Further conditions of the subject. -/
theorem selects_append (s : Complex) (more : Compound) (n : Nat) :
    (⟨s.subject ++ more, s.chain⟩ : Complex).selects d scope n =
      (s.selects d scope n && Compound.holdsAt d scope more n) := by
  unfold Complex.selects Compound.holdsAt
  rw [List.all_append, Bool.and_assoc, Bool.and_assoc, Bool.and_assoc, Bool.and_assoc]
  refine congrArg (_ && ·) (congrArg (_ && ·) ?_)
  exact Bool.and_comm ..

/-- `:scope` stands for the node that it is given. -/
theorem holdsAt_scope_iff {n m : Nat} :
    Compound.holdsAt d (some n) [.pseudo .scope] m = true ↔ m = n := by
  unfold Compound.holdsAt
  rw [List.all_cons, List.all_nil, Bool.and_true]
  exact beq_iff_eq

/-- An element matches a selector exactly if it matches the right part of it relative to some
element that matches the left part. -/
theorem selects_chain_iff (left right : Complex) {k : Combinator} (hleft : IsUnscoped left.subject)
    (hne : left.subject ≠ []) (hsubject : IsUnscoped right.subject)
    (hchain : ∀ p ∈ right.chain, IsUnscoped p.2) (m : Nat) :
    (⟨right.subject, right.chain ++ (k, left.subject) :: left.chain⟩ : Complex).selects d none m =
        true ↔
      ∃ n, left.selects d none n = true ∧
        (⟨right.subject, right.chain ++ [(k, [.pseudo .scope])]⟩ : Complex).selects d (some n) m =
          true := by
  simp only [Complex.selects, chainHolds_append, chainEnds_of_isUnscoped hchain,
    compound_holdsAt_of_isUnscoped hsubject, Bool.and_eq_true, List.any_eq_true, chainHolds,
    holdsAt_scope_iff, and_true]
  constructor
  · rintro ⟨⟨helement, hholds⟩, e, he, n, hn, hholds', hrest⟩
    exact ⟨n, ⟨⟨isElement_of_holdsAt hleft hne hholds', hholds'⟩, hrest⟩, ⟨helement, hholds⟩, e, he,
      n, hn, rfl⟩
  · rintro ⟨n, ⟨⟨-, hholds'⟩, hrest⟩, ⟨helement, hholds⟩, e, he, n', hn, rfl⟩
    exact ⟨⟨helement, hholds⟩, e, he, n', hn, hholds', hrest⟩

end Css
end CosmeticFilter
