import CosmeticFilter.Proofs.XPath.TextEnds

/-!
# Readers that do not see how a text ends

The readers of predicates, node tests, steps and paths do not see whether blanks stand at the end of
a text, nor whether a bar does, with another path behind it. So they read the same from texts that
differ in this way.

* `IsEndBlind`: a reader that reads the same from texts that differ at their ends;
* `readPredicates_eq_ok_iff`, `readStep_eq_ok_iff`, `readSteps_eq_ok_iff`, `readPath_eq_ok_iff`,
  `readPaths_eq_ok_iff`: what the readers take;
* `isEndBlind_readPath`: paths, by way of predicates, node tests and steps.
-/

namespace CosmeticFilter
namespace XPath

/-- A reader that does not see how a text ends: what it reads from a text it reads from any text
that differs at its end, and it leaves texts that differ in the same way. -/
structure IsEndBlind {α : Type} (read : Text → Except Stop (α × Text)) : Prop where
  /-- What it leaves is the end of the text. -/
  suffix : ∀ {t r a}, read t = .ok (a, r) → r <:+ t
  /-- It reads the same from both texts. -/
  same : ∀ {R : Text → Text → Prop}, DiffersAtEnd R → ∀ {s t r a}, R s t →
    read s = .ok (a, r) → ∃ r', read t = .ok (a, r') ∧ R r r'

/-- What is made of the result does not count. -/
theorem IsEndBlind.map {α β : Type} {read : Text → Except Stop (α × Text)} (h : IsEndBlind read)
    (make : α → β) :
    IsEndBlind fun t => (read t).map fun (a, rest) => (make a, rest) where
  suffix hmap := by
    obtain ⟨⟨a, r⟩, hread, heq⟩ := Outcome.map_eq_ok.mp hmap
    obtain ⟨-, rfl⟩ := Prod.mk.inj heq
    exact h.suffix hread
  same hR _ _ _ _ hst hmap := by
    obtain ⟨⟨a, r⟩, hread, heq⟩ := Outcome.map_eq_ok.mp hmap
    obtain ⟨rfl, rfl⟩ := Prod.mk.inj heq
    obtain ⟨r', hr', hr⟩ := h.same hR hst hread
    exact ⟨r', Outcome.map_eq_ok.mpr ⟨_, hr', rfl⟩, hr⟩

/-- No predicate stands here, or one and then others. -/
theorem readPredicates_eq_ok_iff {t left : Text} {ps : List Predicate} :
    readPredicates t = .ok (ps, left) ↔
      ((Text.trimStart t).head? ≠ some '[' ∧ ps = [] ∧ left = Text.trimStart t) ∨
        ∃ r p after u qs, Sign ['['] t r ∧ readPredicate r = .ok (p, after) ∧
          Sign [']'] after u ∧ readPredicates u = .ok (qs, left) ∧ ps = p :: qs := by
  constructor
  · intro h
    rw [readPredicates] at h
    split at h
    · rename_i r hopen
      obtain ⟨⟨p, after⟩, hread, h⟩ := Outcome.bind_eq_ok.mp h
      obtain ⟨u, hclose, h⟩ := Outcome.bind_eq_ok.mp h
      dsimp only at h
      split at h
      · obtain ⟨⟨qs, rest⟩, hmore, h⟩ := Outcome.bind_eq_ok.mp h
        obtain ⟨rfl, rfl⟩ := Prod.mk.inj (Except.ok.inj h)
        exact .inr ⟨r, p, after, u, qs, hopen, hread, readSign_eq_ok_iff.mp hclose, hmore, rfl⟩
      · cases h
    · rename_i hnot
      obtain ⟨rfl, rfl⟩ := Prod.mk.inj (Except.ok.inj h)
      refine .inl ⟨fun hhead => ?_, rfl, rfl⟩
      obtain ⟨r, heq⟩ := List.head?_eq_some_iff.mp hhead
      exact hnot r heq
  · rintro (⟨hnot, rfl, rfl⟩ | ⟨r, p, after, u, qs, hopen, hread, hclose, hmore, rfl⟩)
    · rw [readPredicates]
      split
      · rename_i heq
        exact absurd (by rw [heq]; rfl) hnot
      · rfl
    · have hlt : u.length < t.length := by
        have hle := (suffix_of_readPredicate hread hclose).length_le
        have hlength := hopen.length_add_le
        rw [List.length_singleton] at hlength
        omega
      have hhead : Text.trimStart t = '[' :: r := hopen
      rw [readPredicates, hhead]
      refine Outcome.bind_eq_ok.mpr ⟨_, hread, Outcome.bind_eq_ok.mpr
        ⟨u, readSign_eq_ok_iff.mpr hclose, ?_⟩⟩
      dsimp only
      rw [if_pos hlt]
      exact Outcome.bind_eq_ok.mpr ⟨_, hmore, rfl⟩

theorem isEndBlind_readPredicates : IsEndBlind readPredicates where
  suffix {t r ps} h := by
    induction hlength : t.length using Nat.strongRecOn generalizing t ps with
    | _ n ih =>
      subst hlength
      rcases readPredicates_eq_ok_iff.mp h with
        ⟨-, -, rfl⟩ | ⟨u, p, after, v, qs, hopen, hread, hclose, hmore, -⟩
      · exact List.dropWhile_suffix _
      · have hv := suffix_of_readPredicate hread hclose
        have hle := hv.length_le
        have hlength := hopen.length_add_le
        rw [List.length_singleton] at hlength
        exact ((ih v.length (by omega) hmore rfl).trans hv).trans hopen.suffix
  same {R} hR {s t r ps} hst h := by
    induction hlength : s.length using Nat.strongRecOn generalizing s t ps with
    | _ n ih =>
      subst hlength
      rcases readPredicates_eq_ok_iff.mp h with
        ⟨hnot, rfl, rfl⟩ | ⟨u, p, after, v, qs, hopen, hread, hclose, hmore, rfl⟩
      · refine ⟨Text.trimStart t, readPredicates_eq_ok_iff.mpr (.inl ⟨fun hhead => hnot ?_, rfl,
          rfl⟩), hR.trimStart hst⟩
        exact hR.head?_of_told (by decide) (hR.trimStart hst) hhead
      · have hle := (suffix_of_readPredicate hread hclose).length_le
        have hlength := hopen.length_add_le
        rw [List.length_singleton] at hlength
        obtain ⟨u', hopen', hu⟩ := hR.sign (by decide) hst hopen
        obtain ⟨after', v', hread', hclose', hv⟩ := hR.readPredicate hu hread hclose
        obtain ⟨r', hmore', hr⟩ := ih v.length (by omega) hv hmore rfl
        exact ⟨r', readPredicates_eq_ok_iff.mpr
          (.inr ⟨u', p, after', v', qs, hopen', hread', hclose', hmore', rfl⟩), hr⟩

/-! ### Node tests -/

/-- A name in front of a bracket is a kind of node, and otherwise it is a tag name. -/
theorem readNodeTest_eq_ok_iff {name t left : Text} {test : NodeTest} :
    readNodeTest name t = .ok (test, left) ↔ name ≠ [] ∧
      ((∃ r, t = '(' :: r ∧ Sign [')'] r left ∧
          (name = "node".toList ∧ test = .node ∨ name = "text".toList ∧ test = .text)) ∨
        t.head? ≠ some '(' ∧ test = .name name ∧ left = t) := by
  have hne : "text".toList ≠ "node".toList := by decide
  constructor
  · intro h
    rw [readNodeTest.eq_def] at h
    split at h
    · cases h
    · rename_i hname
      refine ⟨hname, ?_⟩
      split at h
      · rename_i r
        split at h
        · rename_i hnode
          obtain ⟨rest, hclose, h⟩ := Outcome.map_eq_ok.mp h
          obtain ⟨rfl, rfl⟩ := Prod.mk.inj h
          exact .inl ⟨r, rfl, readSign_eq_ok_iff.mp hclose, .inl ⟨hnode, rfl⟩⟩
        · split at h
          · rename_i htext
            obtain ⟨rest, hclose, h⟩ := Outcome.map_eq_ok.mp h
            obtain ⟨rfl, rfl⟩ := Prod.mk.inj h
            exact .inl ⟨r, rfl, readSign_eq_ok_iff.mp hclose, .inr ⟨htext, rfl⟩⟩
          · cases h
      · rename_i hopen
        obtain ⟨rfl, rfl⟩ := Prod.mk.inj (Except.ok.inj h)
        refine .inr ⟨fun hhead => ?_, rfl, rfl⟩
        obtain ⟨r, heq⟩ := List.head?_eq_some_iff.mp hhead
        exact hopen r heq
  · rintro ⟨hname, ⟨r, rfl, hclose, ⟨rfl, rfl⟩ | ⟨rfl, rfl⟩⟩ | ⟨hopen, rfl, rfl⟩⟩
    · exact Outcome.map_eq_ok.mpr ⟨left, readSign_eq_ok_iff.mpr hclose, rfl⟩
    · exact Outcome.map_eq_ok.mpr ⟨left, readSign_eq_ok_iff.mpr hclose, rfl⟩
    · rw [readNodeTest.eq_def, if_neg hname]
      split
      · exact absurd rfl hopen
      · rfl

theorem isEndBlind_readNodeTest (name : Text) : IsEndBlind (readNodeTest name) where
  suffix h := by
    rcases (readNodeTest_eq_ok_iff.mp h).2 with ⟨r, rfl, hclose, -⟩ | ⟨-, -, rfl⟩
    · exact hclose.suffix.trans (List.suffix_cons _ _)
    · exact List.suffix_rfl
  same {R} hR {s t r a} hst h := by
    obtain ⟨hname, ⟨r, rfl, hclose, htest⟩ | ⟨hopen, htest, rfl⟩⟩ := readNodeTest_eq_ok_iff.mp h
    · obtain ⟨u, rfl, hu⟩ := hR.exists_cons (by decide) hst
      obtain ⟨r', hclose', hr⟩ := hR.sign (by decide) hu hclose
      exact ⟨r', readNodeTest_eq_ok_iff.mpr ⟨hname, .inl ⟨u, rfl, hclose', htest⟩⟩, hr⟩
    · refine ⟨_, readNodeTest_eq_ok_iff.mpr ⟨hname, .inr ⟨fun hhead => hopen ?_, htest, rfl⟩⟩,
        hst⟩
      exact hR.head?_of_told (by decide) hst hhead

theorem readTestOnAxis_of_head? {t : Text} (h : t.head? ≠ some '*') :
    readTestOnAxis t = readNodeTest (takeName t).1 (takeName t).2 := by
  rw [readTestOnAxis.eq_def]
  split
  · exact absurd rfl h
  · rfl

theorem isEndBlind_readTestOnAxis : IsEndBlind readTestOnAxis where
  suffix {t r test} h := by
    by_cases hstar : t.head? = some '*'
    · obtain ⟨u, rfl⟩ := List.head?_eq_some_iff.mp hstar
      obtain ⟨-, rfl⟩ := Prod.mk.inj (Except.ok.inj h)
      exact List.suffix_cons _ _
    · rw [readTestOnAxis_of_head? hstar] at h
      exact ((isEndBlind_readNodeTest _).suffix h).trans (suffix_of_takeName rfl)
  same {R} hR {s t r test} hst h := by
    by_cases hstar : s.head? = some '*'
    · obtain ⟨u, rfl⟩ := List.head?_eq_some_iff.mp hstar
      obtain ⟨rfl, rfl⟩ := Prod.mk.inj (Except.ok.inj h)
      obtain ⟨r', rfl, hr⟩ := hR.exists_cons (by decide) hst
      exact ⟨r', rfl, hr⟩
    · have hstar' : t.head? ≠ some '*' := fun hhead => hstar (hR.head?_of_told (by decide) hst hhead)
      rw [readTestOnAxis_of_head? hstar] at h
      obtain ⟨u, hname, hu⟩ := hR.takeName hst (Prod.eta (takeName s)).symm
      rw [readTestOnAxis_of_head? hstar', hname]
      exact (isEndBlind_readNodeTest _).same hR hu h

theorem readAxisAndTest_of_head? {t : Text} (h : t.head? ≠ some '*') :
    readAxisAndTest t =
      match Text.dropLead? "::".toList (takeName t).2 with
      | none => (readNodeTest (takeName t).1 (takeName t).2).map
          fun (test, rest) => ((.child, test), rest)
      | some r =>
        match Axis.ofText? (takeName t).1 with
        | none => .error ⟨.unsupportedAxis (takeName t).1, r⟩
        | some axis => (readTestOnAxis r).map fun (test, rest) => ((axis, test), rest) := by
  rw [readAxisAndTest.eq_def]
  split
  · exact absurd rfl h
  · rfl

theorem isEndBlind_readAxisAndTest : IsEndBlind readAxisAndTest where
  suffix {t r found} h := by
    by_cases hstar : t.head? = some '*'
    · obtain ⟨u, rfl⟩ := List.head?_eq_some_iff.mp hstar
      obtain ⟨-, rfl⟩ := Prod.mk.inj (Except.ok.inj h)
      exact List.suffix_cons _ _
    · have hbehind : (takeName t).2 <:+ t := suffix_of_takeName rfl
      rw [readAxisAndTest_of_head? hstar] at h
      split at h
      · exact (((isEndBlind_readNodeTest _).map _).suffix h).trans hbehind
      · rename_i u hcolons
        split at h
        · cases h
        · refine ((isEndBlind_readTestOnAxis.map _).suffix h).trans (.trans ?_ hbehind)
          rw [dropLead?_eq_some_iff.mp hcolons]
          exact List.suffix_append _ _
  same {R} hR {s t r found} hst h := by
    by_cases hstar : s.head? = some '*'
    · obtain ⟨u, rfl⟩ := List.head?_eq_some_iff.mp hstar
      obtain ⟨rfl, rfl⟩ := Prod.mk.inj (Except.ok.inj h)
      obtain ⟨r', rfl, hr⟩ := hR.exists_cons (by decide) hst
      exact ⟨r', rfl, hr⟩
    · have hstar' : t.head? ≠ some '*' := fun hhead => hstar (hR.head?_of_told (by decide) hst hhead)
      obtain ⟨u, hname, hu⟩ := hR.takeName hst (Prod.eta (takeName s)).symm
      rw [readAxisAndTest_of_head? hstar] at h
      rw [readAxisAndTest_of_head? hstar', hname]
      cases hcolons : Text.dropLead? "::".toList (takeName s).2 with
      | none =>
        have hnone : Text.dropLead? "::".toList u = none := by
          refine Option.eq_none_iff_forall_ne_some.mpr fun v hv => ?_
          rw [dropLead?_eq_some_iff.mp hv] at hu
          have htold : ∀ c ∈ "::".toList, IsTold c := List.forall_mem_cons.mpr
            ⟨(by decide : IsTold ':'), List.forall_mem_singleton.mpr (by decide : IsTold ':')⟩
          obtain ⟨w, hw, -⟩ := hR.append_of_told htold hu
          rw [dropLead?_eq_some_iff.mpr hw] at hcolons
          cases hcolons
        rw [hcolons] at h
        rw [hnone]
        exact ((isEndBlind_readNodeTest _).map _).same hR hu h
      | some v =>
        rw [dropLead?_eq_some_iff.mp hcolons] at hu
        obtain ⟨w, hw, hv⟩ := hR.append (by decide) hu
        rw [hcolons] at h
        rw [dropLead?_eq_some_iff.mpr hw]
        dsimp only at h ⊢
        split at h
        · cases h
        · exact (isEndBlind_readTestOnAxis.map _).same hR hv h

/-! ### Steps -/

theorem readStep_eq_ok_iff {t left : Text} {step : Step} :
    readStep t = .ok (step, left) ↔
      Sign "..".toList t left ∧ step = .toParent ∨
        Sign ".".toList t left ∧ left.head? ≠ some '.' ∧ step = .toSelf ∨
        (Text.trimStart t).head? ≠ some '.' ∧ (Text.trimStart t).head? ≠ some '@' ∧
          ∃ axis test r ps, readAxisAndTest (Text.trimStart t) = .ok ((axis, test), r) ∧
            readPredicates r = .ok (ps, left) ∧ step = ⟨axis, test, ps⟩ := by
  constructor
  · intro h
    rw [readStep.eq_def] at h
    split at h
    · rename_i r hhead
      obtain ⟨rfl, rfl⟩ := Prod.mk.inj (Except.ok.inj h)
      exact .inl ⟨hhead, rfl⟩
    · rename_i r hnot hhead
      obtain ⟨rfl, rfl⟩ := Prod.mk.inj (Except.ok.inj h)
      refine .inr (.inl ⟨hhead, fun hdot => ?_, rfl⟩)
      obtain ⟨u, rfl⟩ := List.head?_eq_some_iff.mp hdot
      exact hnot u rfl
    · cases h
    · rename_i hdots hdot hat
      obtain ⟨⟨⟨axis, test⟩, r⟩, htest, h⟩ := Outcome.bind_eq_ok.mp h
      obtain ⟨⟨ps, rest⟩, hpredicates, h⟩ := Outcome.bind_eq_ok.mp h
      obtain ⟨rfl, rfl⟩ := Prod.mk.inj (Except.ok.inj h)
      refine .inr (.inr ⟨fun hhead => ?_, fun hhead => ?_, axis, test, r, ps, htest, hpredicates,
        rfl⟩)
      · obtain ⟨u, heq⟩ := List.head?_eq_some_iff.mp hhead
        exact hdot u heq
      · obtain ⟨u, heq⟩ := List.head?_eq_some_iff.mp hhead
        exact hat u heq
  · rintro (⟨hsign, rfl⟩ | ⟨hsign, hdot, rfl⟩ | ⟨hdot, hat, axis, test, r, ps, htest, hps, rfl⟩)
    · rw [readStep.eq_def, hsign]
      rfl
    · have hhead : Text.trimStart t = '.' :: left := hsign
      rw [readStep.eq_def, hhead]
      split
      · rename_i heq
        rw [(List.cons.inj heq).2] at hdot
        exact absurd rfl hdot
      · rename_i heq
        rw [(List.cons.inj heq).2]
      · rename_i heq
        exact absurd (List.cons.inj heq).1 (by decide)
      · rename_i hnot _
        exact absurd rfl (hnot left)
    · exact readStep_of_not_dot hdot hat htest hps

theorem isEndBlind_readStep : IsEndBlind readStep where
  suffix {t left step} h := by
    rcases readStep_eq_ok_iff.mp h with
      ⟨hsign, -⟩ | ⟨hsign, -, -⟩ | ⟨-, -, axis, test, r, ps, htest, hps, -⟩
    · exact hsign.suffix
    · exact hsign.suffix
    · exact ((isEndBlind_readPredicates.suffix hps).trans
        (isEndBlind_readAxisAndTest.suffix htest)).trans (List.dropWhile_suffix _)
  same {R} hR {s t left step} hst h := by
    rcases readStep_eq_ok_iff.mp h with
      ⟨hsign, rfl⟩ | ⟨hsign, hdot, rfl⟩ | ⟨hdot, hat, axis, test, r, ps, htest, hps, rfl⟩
    · obtain ⟨r', hsign', hr⟩ := hR.sign (by decide) hst hsign
      exact ⟨r', readStep_eq_ok_iff.mpr (.inl ⟨hsign', rfl⟩), hr⟩
    · obtain ⟨r', hsign', hr⟩ := hR.sign (by decide) hst hsign
      refine ⟨r', readStep_eq_ok_iff.mpr (.inr (.inl ⟨hsign', fun hhead => hdot ?_, rfl⟩)), hr⟩
      exact hR.head?_of_told (by decide) hr hhead
    · obtain ⟨u, htest', hu⟩ := isEndBlind_readAxisAndTest.same hR (hR.trimStart hst) htest
      obtain ⟨r', hps', hr⟩ := isEndBlind_readPredicates.same hR hu hps
      refine ⟨r', readStep_eq_ok_iff.mpr (.inr (.inr ⟨fun hhead => hdot ?_, fun hhead => hat ?_,
        axis, test, u, ps, htest', hps', rfl⟩)), hr⟩
      · exact hR.head?_of_told (by decide) (hR.trimStart hst) hhead
      · exact hR.head?_of_told (by decide) (hR.trimStart hst) hhead

/-- Behind a step stands a slash, two, or none. -/
theorem readSteps_eq_ok_iff {t left : Text} {ss : List Step} :
    readSteps t = .ok (ss, left) ↔ ∃ step rest, readStep t = .ok (step, rest) ∧
      ((∃ u more, Sign "//".toList rest u ∧ readSteps u = .ok (more, left) ∧
          ss = step :: .toAllBelow :: more) ∨
        (∃ u more, Sign "/".toList rest u ∧ u.head? ≠ some '/' ∧
          readSteps u = .ok (more, left) ∧ ss = step :: more) ∨
        (Text.trimStart rest).head? ≠ some '/' ∧ left = Text.trimStart rest ∧ ss = [step]) := by
  have hshorter : ∀ {step rest u} {lead : Text}, lead ≠ [] → readStep t = .ok (step, rest) →
      Sign lead rest u → u.length < t.length := by
    intro step rest u lead hne hstep hsign
    have hle := (isEndBlind_readStep.suffix hstep).length_le
    have hpos := List.length_pos_of_ne_nil hne
    have hlength := hsign.length_add_le
    omega
  constructor
  · intro h
    rw [readSteps] at h
    split at h
    · cases h
    · rename_i step rest hstep
      refine ⟨step, rest, hstep, ?_⟩
      dsimp only at h
      split at h
      · rename_i u hslashes
        split at h
        · obtain ⟨⟨more, r⟩, hmore, h⟩ := Outcome.map_eq_ok.mp h
          obtain ⟨rfl, rfl⟩ := Prod.mk.inj h
          exact .inl ⟨u, more, hslashes, hmore, rfl⟩
        · cases h
      · rename_i u hnot hslash
        split at h
        · obtain ⟨⟨more, r⟩, hmore, h⟩ := Outcome.map_eq_ok.mp h
          obtain ⟨rfl, rfl⟩ := Prod.mk.inj h
          refine .inr (.inl ⟨u, more, hslash, fun hhead => ?_, hmore, rfl⟩)
          obtain ⟨v, rfl⟩ := List.head?_eq_some_iff.mp hhead
          exact hnot v rfl
        · cases h
      · rename_i hslashes hslash
        obtain ⟨rfl, rfl⟩ := Prod.mk.inj (Except.ok.inj h)
        refine .inr (.inr ⟨fun hhead => ?_, rfl, rfl⟩)
        obtain ⟨v, heq⟩ := List.head?_eq_some_iff.mp hhead
        exact hslash v heq
  · rintro ⟨step, rest, hstep, ⟨u, more, hsign, hmore, rfl⟩ |
      ⟨u, more, hsign, hslash, hmore, rfl⟩ | ⟨hend, rfl, rfl⟩⟩
    · have hhead : Text.trimStart rest = '/' :: '/' :: u := hsign
      rw [readSteps, hstep]
      simp only [hhead, dif_pos (hshorter (by decide) hstep hsign), hmore]
      rfl
    · have hhead : Text.trimStart rest = '/' :: u := hsign
      rw [readSteps, hstep]
      dsimp only
      rw [hhead]
      split
      · rename_i heq
        rw [(List.cons.inj heq).2] at hslash
        exact absurd rfl hslash
      · rename_i heq
        obtain rfl := (List.cons.inj heq).2
        rw [dif_pos (hshorter (by decide) hstep hsign), hmore]
        rfl
      · rename_i hnot
        exact absurd rfl (hnot u)
    · rw [readSteps, hstep]
      dsimp only
      split
      · rename_i heq
        rw [heq] at hend
        exact absurd rfl hend
      · rename_i heq
        rw [heq] at hend
        exact absurd rfl hend
      · rfl

theorem isEndBlind_readSteps : IsEndBlind readSteps where
  suffix {t left ss} h := by
    induction hlength : t.length using Nat.strongRecOn generalizing t ss with
    | _ n ih =>
      subst hlength
      obtain ⟨step, rest, hstep, hcases⟩ := readSteps_eq_ok_iff.mp h
      have hrest := isEndBlind_readStep.suffix hstep
      rcases hcases with ⟨u, more, hsign, hmore, -⟩ | ⟨u, more, hsign, -, hmore, -⟩ | ⟨-, rfl, -⟩
      · have hlength : 2 + u.length ≤ rest.length := hsign.length_add_le
        have hle := hrest.length_le
        exact ((ih u.length (by omega) hmore rfl).trans hsign.suffix).trans hrest
      · have hlength : 1 + u.length ≤ rest.length := hsign.length_add_le
        have hle := hrest.length_le
        exact ((ih u.length (by omega) hmore rfl).trans hsign.suffix).trans hrest
      · exact (List.dropWhile_suffix _).trans hrest
  same {R} hR {s t left ss} hst h := by
    induction hlength : s.length using Nat.strongRecOn generalizing s t ss with
    | _ n ih =>
      subst hlength
      obtain ⟨step, rest, hstep, hcases⟩ := readSteps_eq_ok_iff.mp h
      obtain ⟨rest', hstep', hrest⟩ := isEndBlind_readStep.same hR hst hstep
      have hle := (isEndBlind_readStep.suffix hstep).length_le
      rcases hcases with ⟨u, more, hsign, hmore, rfl⟩ |
        ⟨u, more, hsign, hslash, hmore, rfl⟩ | ⟨hend, rfl, rfl⟩
      · have hlength : 2 + u.length ≤ rest.length := hsign.length_add_le
        obtain ⟨u', hsign', hu⟩ := hR.sign (by decide) hrest hsign
        obtain ⟨left', hmore', hleft⟩ := ih u.length (by omega) hu hmore rfl
        exact ⟨left', readSteps_eq_ok_iff.mpr
          ⟨step, rest', hstep', .inl ⟨u', more, hsign', hmore', rfl⟩⟩, hleft⟩
      · have hlength : 1 + u.length ≤ rest.length := hsign.length_add_le
        obtain ⟨u', hsign', hu⟩ := hR.sign (by decide) hrest hsign
        obtain ⟨left', hmore', hleft⟩ := ih u.length (by omega) hu hmore rfl
        refine ⟨left', readSteps_eq_ok_iff.mpr ⟨step, rest', hstep',
          .inr (.inl ⟨u', more, hsign', fun hhead => hslash ?_, hmore', rfl⟩)⟩, hleft⟩
        exact hR.head?_of_told (by decide) hu hhead
      · refine ⟨Text.trimStart rest', readSteps_eq_ok_iff.mpr ⟨step, rest', hstep',
          .inr (.inr ⟨fun hhead => hend ?_, rfl, rfl⟩)⟩, hR.trimStart hrest⟩
        exact hR.head?_of_told (by decide) (hR.trimStart hrest) hhead

/-! ### Paths and unions -/

/-- Neither a step nor another path follows: nothing does, or a bar. -/
def EndsPath (t : Text) : Prop := t.head?.all (· == '|') = true

/-- A bar may follow in the one text and nothing in the other: either way the path ends. -/
theorem DiffersAtEnd.endsPath {R : Text → Text → Prop} (hR : DiffersAtEnd R) {s t : Text}
    (h : R s t) (ht : ∀ c ∈ t.head?, Text.isBlank c = false) (hs : EndsPath s) : EndsPath t := by
  unfold EndsPath at hs ⊢
  rw [Option.all_eq_true]
  intro c hc
  rw [beq_iff_eq]
  by_contra hbar
  rw [hR.head?_of_told ⟨ht c hc, hbar⟩ h hc] at hs
  exact hbar (beq_iff_eq.mp hs)

theorem DiffersAtEnd.endsPath_of {R : Text → Text → Prop} (hR : DiffersAtEnd R) {s t : Text}
    (h : R s t) (hs : ∀ c ∈ s.head?, Text.isBlank c = false) (ht : EndsPath t) : EndsPath s := by
  unfold EndsPath at ht ⊢
  cases hhead : s.head? with
  | none => rfl
  | some c =>
    rw [hR.head?_eq (hs c hhead) h hhead] at ht
    exact ht

theorem readPath_eq_ok_iff {t left : Text} {path : LocationPath} :
    readPath t = .ok (path, left) ↔
      (∃ u ss, Sign "//".toList t u ∧ readSteps u = .ok (ss, left) ∧
          path = ⟨true, .toAllBelow :: ss⟩) ∨
        (∃ u, Sign "/".toList t u ∧ u.head? ≠ some '/' ∧
          (EndsPath (Text.trimStart u) ∧ left = Text.trimStart u ∧ path = ⟨true, []⟩ ∨
            ¬ EndsPath (Text.trimStart u) ∧
              ∃ ss, readSteps (Text.trimStart u) = .ok (ss, left) ∧ path = ⟨true, ss⟩)) ∨
        (Text.trimStart t).head? ≠ some '/' ∧
          ∃ ss, readSteps (Text.trimStart t) = .ok (ss, left) ∧ path = ⟨false, ss⟩ := by
  constructor
  · intro h
    rw [readPath.eq_def] at h
    split at h
    · rename_i u hslashes
      obtain ⟨⟨ss, r⟩, hread, h⟩ := Outcome.map_eq_ok.mp h
      obtain ⟨rfl, rfl⟩ := Prod.mk.inj h
      exact .inl ⟨u, ss, hslashes, hread, rfl⟩
    · rename_i u hnot hslash
      refine .inr (.inl ⟨u, hslash, fun hhead => ?_, ?_⟩)
      · obtain ⟨v, rfl⟩ := List.head?_eq_some_iff.mp hhead
        exact hnot v rfl
      · dsimp only at h
        split at h
        · rename_i hend
          obtain ⟨rfl, rfl⟩ := Prod.mk.inj (Except.ok.inj h)
          exact .inl ⟨hend, rfl, rfl⟩
        · rename_i hend
          obtain ⟨⟨ss, r⟩, hread, h⟩ := Outcome.map_eq_ok.mp h
          obtain ⟨rfl, rfl⟩ := Prod.mk.inj h
          exact .inr ⟨hend, ss, hread, rfl⟩
    · rename_i hslashes hslash
      obtain ⟨⟨ss, r⟩, hread, h⟩ := Outcome.map_eq_ok.mp h
      obtain ⟨rfl, rfl⟩ := Prod.mk.inj h
      refine .inr (.inr ⟨fun hhead => ?_, ss, hread, rfl⟩)
      obtain ⟨v, heq⟩ := List.head?_eq_some_iff.mp hhead
      exact hslash v heq
  · rintro (⟨u, ss, hsign, hread, rfl⟩ | ⟨u, hsign, hslash, hcases⟩ | ⟨hslash, ss, hread, rfl⟩)
    · have hhead : Text.trimStart t = '/' :: '/' :: u := hsign
      rw [readPath.eq_def, hhead]
      exact Outcome.map_eq_ok.mpr ⟨_, hread, rfl⟩
    · rw [readPath_slash hsign fun v heq => hslash (by rw [heq]; rfl)]
      rcases hcases with ⟨hend, rfl, rfl⟩ | ⟨hend, ss, hread, rfl⟩
      · exact if_pos hend
      · exact (if_neg hend).trans (Outcome.map_eq_ok.mpr ⟨_, hread, rfl⟩)
    · rw [readPath.eq_def]
      split
      · rename_i heq
        rw [heq] at hslash
        exact absurd rfl hslash
      · rename_i heq
        rw [heq] at hslash
        exact absurd rfl hslash
      · exact Outcome.map_eq_ok.mpr ⟨_, hread, rfl⟩

theorem isEndBlind_readPath : IsEndBlind readPath where
  suffix {t left path} h := by
    have htrim : ∀ r, Text.trimStart r <:+ r := fun r => List.dropWhile_suffix _
    rcases readPath_eq_ok_iff.mp h with ⟨u, ss, hsign, hread, -⟩ |
      ⟨u, hsign, -, ⟨-, rfl, -⟩ | ⟨-, ss, hread, -⟩⟩ | ⟨-, ss, hread, -⟩
    · exact (isEndBlind_readSteps.suffix hread).trans hsign.suffix
    · exact (htrim u).trans hsign.suffix
    · exact ((isEndBlind_readSteps.suffix hread).trans (htrim u)).trans hsign.suffix
    · exact (isEndBlind_readSteps.suffix hread).trans (htrim t)
  same {R} hR {s t left path} hst h := by
    have hstart : ∀ u, ∀ c ∈ (Text.trimStart u).head?, Text.isBlank c = false := by
      intro u c hc
      obtain ⟨r, hr⟩ := List.head?_eq_some_iff.mp hc
      exact Text.not_blank_of_trimStart hr
    rcases readPath_eq_ok_iff.mp h with ⟨u, ss, hsign, hread, rfl⟩ |
      ⟨u, hsign, hslash, hcases⟩ | ⟨hslash, ss, hread, rfl⟩
    · obtain ⟨u', hsign', hu⟩ := hR.sign (by decide) hst hsign
      obtain ⟨left', hread', hleft⟩ := isEndBlind_readSteps.same hR hu hread
      exact ⟨left', readPath_eq_ok_iff.mpr (.inl ⟨u', ss, hsign', hread', rfl⟩), hleft⟩
    · obtain ⟨u', hsign', hu⟩ := hR.sign (by decide) hst hsign
      have hslash' : u'.head? ≠ some '/' := fun hhead => hslash (hR.head?_of_told (by decide) hu hhead)
      rcases hcases with ⟨hend, rfl, rfl⟩ | ⟨hend, ss, hread, rfl⟩
      · have hend' := hR.endsPath (hR.trimStart hu) (hstart u') hend
        exact ⟨Text.trimStart u', readPath_eq_ok_iff.mpr
          (.inr (.inl ⟨u', hsign', hslash', .inl ⟨hend', rfl, rfl⟩⟩)), hR.trimStart hu⟩
      · have hend' := fun hend' => hend (hR.endsPath_of (hR.trimStart hu) (hstart u) hend')
        obtain ⟨left', hread', hleft⟩ := isEndBlind_readSteps.same hR (hR.trimStart hu) hread
        exact ⟨left', readPath_eq_ok_iff.mpr
          (.inr (.inl ⟨u', hsign', hslash', .inr ⟨hend', ss, hread', rfl⟩⟩)), hleft⟩
    · obtain ⟨left', hread', hleft⟩ := isEndBlind_readSteps.same hR (hR.trimStart hst) hread
      refine ⟨left', readPath_eq_ok_iff.mpr
        (.inr (.inr ⟨fun hhead => hslash ?_, ss, hread', rfl⟩)), hleft⟩
      exact hR.head?_of_told (by decide) (hR.trimStart hst) hhead

/-- A path with the bar behind it takes a part of the text. -/
theorem length_lt_of_readPath {t rest r : Text} {path : LocationPath}
    (hpath : readPath t = .ok (path, rest)) (hsign : Sign ['|'] rest r) :
    r.length < t.length := by
  have hle := (isEndBlind_readPath.suffix hpath).length_le
  have hlength : 1 + r.length ≤ rest.length := hsign.length_add_le
  omega

/-- A union is one path, or a path, a bar and a union. -/
theorem readPaths_eq_ok_iff {t : Text} {paths : List LocationPath} :
    readPaths t = .ok paths ↔ ∃ path rest, readPath t = .ok (path, rest) ∧
      (Text.trimStart rest = [] ∧ paths = [path] ∨
        ∃ r more, Sign ['|'] rest r ∧ readPaths r = .ok more ∧ paths = path :: more) := by
  constructor
  · intro h
    rw [readPaths] at h
    split at h
    · cases h
    · rename_i path rest hpath
      refine ⟨path, rest, hpath, ?_⟩
      split at h
      · rename_i hnil
        exact .inl ⟨hnil, (Except.ok.inj h).symm⟩
      · rename_i c r hcons
        split at h
        · rename_i hbar
          obtain ⟨rfl, -⟩ := hbar
          obtain ⟨more, hmore, rfl⟩ := Outcome.map_eq_ok.mp h
          exact .inr ⟨r, more, hcons, hmore, rfl⟩
        · cases h
  · rintro ⟨path, rest, hpath, ⟨hnil, rfl⟩ | ⟨r, more, hsign, hmore, rfl⟩⟩
    · rw [readPaths, hpath]
      dsimp only
      rw [hnil]
    · have hlt := length_lt_of_readPath hpath hsign
      have hbar : Text.trimStart rest = '|' :: r := hsign
      rw [readPaths, hpath]
      dsimp only
      rw [hbar]
      dsimp only
      rw [if_pos ⟨rfl, hlt⟩, hmore]
      rfl

/-- Blanks in front of an expression do not count. -/
theorem readPaths_trimStart_eq_ok_iff {t : Text} {paths : List LocationPath} :
    readPaths (Text.trimStart t) = .ok paths ↔ readPaths t = .ok paths := by
  have hpath : readPath (Text.trimStart t) = readPath t := by
    rw [readPath.eq_def, Text.trimStart_trimStart, ← readPath.eq_def]
  rw [readPaths_eq_ok_iff, readPaths_eq_ok_iff, hpath]

theorem ofText_eq_ok_iff {t : Text} {x : XPath} : ofText t = .ok x ↔ readPaths t = .ok x.paths := by
  rw [ofText]
  cases readPaths t with
  | error e => simp
  | ok paths =>
    rw [Except.ok.injEq, Except.ok.injEq]
    exact ⟨fun heq => heq ▸ rfl, fun heq => by rw [heq]⟩

end XPath
end CosmeticFilter
