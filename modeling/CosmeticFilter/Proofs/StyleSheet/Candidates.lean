import CosmeticFilter.Proofs.StyleSheet.BlockStart

/-!
# The brace that decides

Each opening brace of a rule is judged by itself: no two braces leave texts with one normal form in
front of them, so within a rule the cache never answers for another text than the one that is asked
for. The first brace from the right that makes a rule decides, and if there is none, the error of
the rightmost brace is reported, whatever stands in front of it.

The rightmost brace with a selector in front of it therefore decides if its block is good. If the
block is not, then its error is reported only if no brace stands to the right of it; and braces to
the left of it are still tried. They can only have a selector in front of them if a backslash
escapes the brace.

* `judge`: what a rule comes to if its block begins at a given brace;
* `leavesSelector`: a selector stands in front of a brace;
* `normalForm_ne_of_stripRemoval`: the selectors of two braces are never taken for one another;
* `find?_judge`: the first good brace counts, or else the rightmost one;
* `compileRule_rightmost`: what becomes of the rightmost brace with a selector in front of it.
-/

namespace CosmeticFilter
namespace StyleSheet

open Extended (Selector Cache normalForm endsInEscape)

variable {t u rule before after selector : Text} {marked : Bool} {tree : Selector} {cache : Cache}

/-! ### One brace -/

/-- What a rule comes to if its block begins at the brace between two texts. -/
def judge (rule : Text) (c : Text × Text) : Except Error Rule :=
  (compileCandidate .empty rule c.1 c.2).1

/-- A selector stands in front of a brace, with the removal mark or without it. -/
def leavesSelector (before : Text) : Bool :=
  match stripRemoval before with
  | .error _ => false
  | .ok (selector, _) => (Selector.ofText selector).isOk

theorem leavesSelector_iff :
    leavesSelector before = true ↔ ∃ selector marked tree,
      stripRemoval before = .ok (selector, marked) ∧ Selector.ofText selector = .ok tree := by
  unfold leavesSelector
  rcases hstrip : stripRemoval before with e | ⟨selector, marked⟩
  · simp
  · rcases hread : Selector.ofText selector with e | tree
    · simp [hread, Except.isOk, Except.toBool]
    · simp [hread, Except.isOk, Except.toBool]

theorem ne_nil_of_ofText (h : Selector.ofText t = .ok tree) : Text.trim t ≠ [] := by
  obtain ⟨c, r, heq, -⟩ := Extended.exists_trim_of_readAll (Selector.ofText_eq_ok.mp h)
  rw [heq]
  exact List.cons_ne_nil c r

/-- A brace behind a selector is judged by its block. -/
theorem judge_of_selector (rule after : Text)
    (hstrip : stripRemoval before = .ok (selector, marked))
    (hread : Selector.ofText selector = .ok tree) :
    judge rule (before, after) = ruleOf rule selector marked tree after := by
  have hne : selector ≠ [] := by
    rintro rfl
    exact ne_nil_of_ofText hread rfl
  have hanswer : Cache.empty.read selector = (.ok tree, (Cache.empty.read selector).2) :=
    Prod.ext hread rfl
  simp only [judge, compileCandidate, hstrip, if_neg hne, readSelector]
  rw [hanswer]

/-- A brace that is not behind a selector is refused, and not for its block. -/
theorem judge_of_not_leavesSelector (rule : Text) {c : Text × Text}
    (h : leavesSelector c.1 = false) :
    ∃ e, judge rule c = .error e ∧ (∀ e', e ≠ .style e') ∧ ∀ t, e ≠ .unclosedBlock t := by
  unfold leavesSelector at h
  rcases hstrip : stripRemoval c.1 with e | ⟨selector, marked⟩ <;> rw [hstrip] at h
  · refine ⟨e, by simp only [judge, compileCandidate, hstrip], ?_⟩
    unfold stripRemoval at hstrip
    simp only at hstrip
    split at hstrip
    · exact absurd hstrip (by simp)
    · split_ifs at hstrip
      obtain rfl := Except.error.inj hstrip
      simp
    · obtain rfl := Except.error.inj hstrip
      simp
  · simp only [judge, compileCandidate, hstrip]
    split_ifs with hempty
    · exact ⟨_, rfl, by simp, by simp⟩
    · have hread : (Cache.empty.read selector).1 = Selector.ofText selector := Cache.read_empty _
      rcases hanswer : Cache.empty.read selector with ⟨e | tree, cache'⟩ <;> rw [hanswer] at hread
      · simp only [readSelector, hanswer]
        exact ⟨_, rfl, by simp, by simp⟩
      · simp only at h hread
        rw [← hread] at h
        exact absurd h.symm Bool.false_ne_true

/-- A brace makes a rule only behind a selector. -/
theorem leavesSelector_of_isOk {c : Text × Text} (h : (judge rule c).isOk = true) :
    leavesSelector c.1 = true := by
  by_contra hnone
  obtain ⟨e, herror, -⟩ := judge_of_not_leavesSelector rule (Bool.eq_false_iff.mpr hnone)
  rw [herror] at h
  exact absurd h Bool.false_ne_true

/-! ### Two braces -/

/-- No mark counts in front of a brace, if the text goes on behind it to what may be a selector. -/
theorem removalMarks_eq_nil_of_stripRemoval
    (h : stripRemoval (t ++ '\x7b' :: u) = .ok (selector, marked)) : removalMarks t = [] := by
  have hhead : ∀ c ∈ ('\x7b' :: Text.trimEnd u).head?, c.toLower ∉ "remove()".toList := by
    rintro c ⟨⟩
    decide
  by_contra hne
  obtain ⟨⟨x, y⟩, later, hfirst⟩ :=
    List.exists_cons_of_ne_nil (mt (removalMarks_trimStart_eq_nil_iff t).mp hne)
  have hmarks : ∃ later', removalMarks (Text.trimStart t ++ '\x7b' :: Text.trimEnd u) =
      (x, y ++ '\x7b' :: Text.trimEnd u) :: later' := by
    rw [removalMarks, marksFrom_append hhead, ← removalMarks, hfirst, List.map_cons,
      List.cons_append]
    exact ⟨_, rfl⟩
  obtain ⟨later', hmarks⟩ := hmarks
  have hlast : y ++ '\x7b' :: Text.trimEnd u ≠ [] :=
    List.append_ne_nil_of_right_ne_nil _ (List.cons_ne_nil _ _)
  unfold stripRemoval at h
  rw [Text.trim_append_cons (by decide)] at h
  simp only [hmarks] at h
  split at h
  · rename_i hnil
    exact absurd hnil (List.cons_ne_nil _ _)
  · rename_i hone
    obtain ⟨-, rfl⟩ := Prod.mk.inj (List.cons.inj hone).1
    rw [if_neg hlast] at h
    exact absurd h (by simp)
  · exact absurd h (by simp)

/-- The texts that two braces leave as selectors are never taken for one another. -/
theorem normalForm_ne_of_stripRemoval {selector' : Text} {marked' : Bool}
    (h : stripRemoval t = .ok (selector, marked))
    (h' : stripRemoval (t ++ '\x7b' :: u) = .ok (selector', marked')) :
    normalForm selector' ≠ normalForm selector := by
  have hmarks := removalMarks_eq_nil_of_stripRemoval h'
  obtain ⟨v, rfl⟩ := exists_of_stripRemoval hmarks h'
  rw [stripRemoval_of_no_marks hmarks] at h
  obtain ⟨rfl, -⟩ := Prod.mk.inj (Except.ok.inj h)
  exact normalForm_append_cons_ne (by decide) t v

/-- Of two braces behind selectors, the left one is escaped. -/
theorem endsInEscape_of_leavesSelector (h : leavesSelector t = true)
    (h' : leavesSelector (t ++ '\x7b' :: u) = true) : endsInEscape t = true := by
  obtain ⟨selector, marked, tree, hstrip, hread⟩ := leavesSelector_iff.mp h
  obtain ⟨selector', marked', tree', hstrip', hread'⟩ := leavesSelector_iff.mp h'
  have hmarks := removalMarks_eq_nil_of_stripRemoval hstrip'
  obtain ⟨v, rfl⟩ := exists_of_stripRemoval hmarks hstrip'
  rw [stripRemoval_of_no_marks hmarks] at hstrip
  obtain ⟨rfl, -⟩ := Prod.mk.inj (Except.ok.inj hstrip)
  have hstart : Extended.readAll .top (Text.trimStart t) = .ok tree.branches := by
    rw [← Extended.readAll_trim, Text.trim_trimStart]
    exact Selector.ofText_eq_ok.mp hread
  by_contra hescape
  exact Extended.not_readAll_append hstart
    ((Css.IsRest.trimStart t).escape (Bool.eq_false_iff.mpr hescape)) (by decide) v tree'.branches
    (Selector.ofText_eq_ok.mp hread')

/-- The text in front of a brace goes on to the next one. -/
theorem pairwise_braceSplits (t : Text) :
    (braceSplits t).Pairwise fun c c' => ∃ v, c'.1 = c.1 ++ '\x7b' :: v := by
  induction t with
  | nil => exact List.Pairwise.nil
  | cons c r ih =>
    have hlater : ((braceSplits r).map (Text.onto c)).Pairwise
        fun c c' => ∃ v, c'.1 = c.1 ++ '\x7b' :: v := by
      refine List.pairwise_map.mpr (ih.imp ?_)
      rintro ⟨x, y⟩ ⟨x', y'⟩ ⟨v, hv⟩
      exact ⟨v, congrArg (List.cons c) hv⟩
    rw [braceSplits]
    split_ifs with hc
    · refine List.pairwise_cons.mpr ⟨fun d hd => ?_, hlater⟩
      obtain ⟨⟨x, y⟩, -, rfl⟩ := List.mem_map.mp hd
      exact ⟨x, by rw [hc]; rfl⟩
    · exact hlater

/-! ### From right to left -/

/-- The cache answers for the text in front of a brace as if it had not been asked before. -/
def Unbiased (cache : Cache) (before : Text) : Prop :=
  ∀ selector marked, stripRemoval before = .ok (selector, marked) →
    (cache.read selector).1 = Selector.ofText selector

theorem compileCandidate_of_unbiased (h : Unbiased cache before) (rule after : Text) :
    (compileCandidate cache rule before after).1 = judge rule (before, after) := by
  unfold judge compileCandidate
  rcases hstrip : stripRemoval before with e | ⟨selector, marked⟩
  · rfl
  · simp only
    split_ifs with hempty
    · rfl
    · have hanswer := h selector marked hstrip
      rw [← Cache.read_empty] at hanswer
      unfold readSelector
      rcases hcache : cache.read selector with ⟨answer, cache'⟩
      rcases hfresh : Cache.empty.read selector with ⟨answer', cache''⟩
      rw [hcache, hfresh] at hanswer
      obtain rfl : answer = answer' := hanswer
      cases answer <;> rfl

/-- A brace further to the left is not touched by what a brace asks for. -/
theorem Unbiased.compileCandidate (h : Unbiased cache t) (rule after : Text) :
    Unbiased (compileCandidate cache rule (t ++ '\x7b' :: u) after).2 t := by
  intro selector marked hstrip
  unfold StyleSheet.compileCandidate
  rcases hstrip' : stripRemoval (t ++ '\x7b' :: u) with e | ⟨selector', marked'⟩
  · exact h selector marked hstrip
  · simp only
    split_ifs with hempty
    · exact h selector marked hstrip
    · have hanswer := Cache.read_read cache selector' selector
      rw [if_neg (normalForm_ne_of_stripRemoval hstrip hstrip').symm,
        h selector marked hstrip] at hanswer
      unfold readSelector
      rcases hcache : cache.read selector' with ⟨answer, cache'⟩
      rw [hcache] at hanswer
      cases answer <;> exact hanswer

/-- Of braces from right to left, the first good one counts, or else the first of all. -/
theorem compileFirst_of_unbiased (rule : Text) {cs : List (Text × Text)}
    (hpairs : cs.Pairwise fun c c' => ∃ v, c.1 = c'.1 ++ '\x7b' :: v)
    (h : ∀ c ∈ cs, Unbiased cache c.1) :
    (compileFirst cache rule cs).1 =
      ((cs.map (judge rule)).find? Except.isOk).or (cs.map (judge rule)).head? := by
  induction cs generalizing cache with
  | nil => rfl
  | cons c r ih =>
    obtain ⟨before, after⟩ := c
    obtain ⟨hfirst, hlater⟩ := List.pairwise_cons.mp hpairs
    have hjudge := compileCandidate_of_unbiased (h _ List.mem_cons_self) rule after
    have hnext : ∀ d ∈ r, Unbiased (compileCandidate cache rule before after).2 d.1 := by
      intro d hd
      obtain ⟨v, hv⟩ := hfirst d hd
      simp only at hv
      rw [hv]
      exact (h d (List.mem_cons_of_mem _ hd)).compileCandidate rule after
    have hrest := ih hlater hnext
    rw [compileFirst, List.map_cons, ← hjudge]
    rcases hdone : compileCandidate cache rule before after with ⟨e | compiled, cache'⟩
    · rw [hdone] at hrest
      simp only at hrest ⊢
      rw [List.find?_cons_of_neg Bool.false_ne_true, List.head?_cons]
      rcases hfind : (r.map (judge rule)).find? Except.isOk with _ | found
      · -- what the braces to the left report is an error
        rw [hfind, Option.none_or] at hrest
        rcases hcompiled : compileFirst cache' rule r with ⟨_ | e' | compiled, cache''⟩
        · rfl
        · rfl
        · rw [hcompiled] at hrest
          exact absurd rfl (List.find?_eq_none.mp hfind _ (List.mem_of_mem_head? hrest.symm))
      · rw [hfind, Option.some_or] at hrest
        have hok := List.find?_some hfind
        rcases found with e' | compiled
        · exact absurd hok Bool.false_ne_true
        · rcases hcompiled : compileFirst cache' rule r with ⟨result, cache''⟩
          rw [hcompiled] at hrest
          simp only at hrest
          rw [hrest]
          rfl
    · rw [List.find?_cons_of_pos (by rfl)]
      rfl

/-- **The brace that decides.** From right to left, the first brace that makes a rule counts, or
else the rightmost one. -/
theorem find?_judge (hhead : (Text.trim t).head? ≠ some '\x7b')
    (hsupported : checkSupported (Text.trim t) = .ok ()) (hbrace : '\x7b' ∈ Text.trim t) :
    (((braceSplits (Text.trim t)).reverse.map (judge (Text.trim t))).find? Except.isOk).or
        ((braceSplits (Text.trim t)).reverse.map (judge (Text.trim t))).head? =
      some (compileRule .empty t).1 := by
  have hne : Text.trim t ≠ [] := List.ne_nil_of_mem hbrace
  have hunbiased : ∀ c ∈ (braceSplits (Text.trim t)).reverse, Unbiased .empty c.1 :=
    fun c _ selector _ _ => Cache.read_empty selector
  have hfirst := compileFirst_of_unbiased (Text.trim t)
    (List.pairwise_reverse.mpr (pairwise_braceSplits (Text.trim t))) hunbiased
  rw [← hfirst]
  have hcandidates : (braceSplits (Text.trim t)).reverse ≠ [] :=
    mt List.reverse_eq_nil_iff.mp (mt braceSplits_eq_nil_iff.mp (not_not.mpr hbrace))
  unfold compileRule
  simp only [if_neg hne, if_neg hhead, hsupported]
  rcases hcompiled : compileFirst .empty (Text.trim t) (braceSplits (Text.trim t)).reverse with
    ⟨_ | result, cache'⟩
  · exact absurd (congrArg Prod.fst hcompiled) (compileFirst_ne_none hcandidates)
  · rfl

/-! ### The rightmost brace behind a selector -/

/-- The braces to the right of one, the brace itself, and those to the left of it. -/
def IsSplit (rule : Text) (later : List (Text × Text)) (c : Text × Text)
    (earlier : List (Text × Text)) : Prop :=
  (braceSplits rule).reverse = later ++ c :: earlier

instance (rule : Text) (later : List (Text × Text)) (c : Text × Text)
    (earlier : List (Text × Text)) : Decidable (IsSplit rule later c earlier) :=
  inferInstanceAs (Decidable ((braceSplits rule).reverse = later ++ c :: earlier))

theorem IsSplit.exists_of_mem {later earlier : List (Text × Text)} {c d : Text × Text}
    (h : IsSplit rule later c earlier) (hd : d ∈ earlier) : ∃ v, c.1 = d.1 ++ '\x7b' :: v := by
  have hpairs := List.pairwise_reverse.mpr (pairwise_braceSplits rule)
  rw [h] at hpairs
  exact (List.pairwise_cons.mp (List.pairwise_append.mp hpairs).2.1).1 d hd

theorem IsSplit.mem {later earlier : List (Text × Text)} {c : Text × Text}
    (h : IsSplit rule later c earlier) : '\x7b' ∈ rule := by
  by_contra hbrace
  rw [IsSplit, braceSplits_eq_nil_iff.mpr hbrace] at h
  exact absurd h.symm (List.append_ne_nil_of_right_ne_nil _ (List.cons_ne_nil _ _))

/-- A good block decides, whatever stands around it. -/
theorem compileRule_of_isSplit {later earlier : List (Text × Text)} {c : Text × Text}
    {compiled : Rule} (hhead : (Text.trim t).head? ≠ some '\x7b')
    (hsupported : checkSupported (Text.trim t) = .ok ())
    (hsplit : IsSplit (Text.trim t) later c earlier)
    (hlater : ∀ d ∈ later, leavesSelector d.1 = false)
    (hjudge : judge (Text.trim t) c = .ok compiled) : (compileRule .empty t).1 = .ok compiled := by
  have hresult := find?_judge hhead hsupported hsplit.mem
  have hnone : (later.map (judge (Text.trim t))).find? Except.isOk = none := by
    refine List.find?_eq_none.mpr fun result hmem hok => ?_
    obtain ⟨d, hd, rfl⟩ := List.mem_map.mp hmem
    exact absurd (leavesSelector_of_isOk hok) (Bool.eq_false_iff.mp (hlater d hd))
  rw [hsplit, List.map_append, List.map_cons, List.find?_append, hnone, Option.none_or, hjudge,
    List.find?_cons_of_pos (by rfl), Option.some_or] at hresult
  exact (Option.some_inj.mp hresult).symm

/-- A bad block is reported only if its brace is the rightmost one, and no brace to the left of it
makes a rule. -/
theorem compileRule_eq_error_iff {later earlier : List (Text × Text)} {c : Text × Text}
    {e : Error} (hhead : (Text.trim t).head? ≠ some '\x7b')
    (hsupported : checkSupported (Text.trim t) = .ok ())
    (hsplit : IsSplit (Text.trim t) later c earlier)
    (hlater : ∀ d ∈ later, leavesSelector d.1 = false)
    (hjudge : judge (Text.trim t) c = .error e)
    (hcause : (∃ e', e = .style e') ∨ ∃ t, e = .unclosedBlock t) :
    (compileRule .empty t).1 = .error e ↔
      later = [] ∧ ∀ d ∈ earlier, (judge (Text.trim t) d).isOk = false := by
  have hresult := find?_judge hhead hsupported hsplit.mem
  rw [hsplit, List.map_append, List.map_cons, hjudge] at hresult
  constructor
  · intro herror
    rw [herror] at hresult
    have hnone : (later.map (judge (Text.trim t)) ++
        .error e :: earlier.map (judge (Text.trim t))).find? Except.isOk = none := by
      rw [Option.eq_none_iff_forall_ne_some]
      intro found hfound
      rw [hfound, Option.some_or] at hresult
      rw [Option.some_inj.mp hresult] at hfound
      exact absurd (List.find?_some hfound) Bool.false_ne_true
    rw [hnone, Option.none_or] at hresult
    refine ⟨?_, fun d hd => ?_⟩
    · rcases later with _ | ⟨d, later⟩
      · rfl
      · obtain ⟨e', hrefused, hstyle, hblock⟩ :=
          judge_of_not_leavesSelector (Text.trim t) (hlater d List.mem_cons_self)
        rw [List.map_cons, List.cons_append, List.head?_cons, hrefused] at hresult
        obtain rfl := Except.error.inj (Option.some_inj.mp hresult)
        rcases hcause with ⟨e'', rfl⟩ | ⟨t, rfl⟩
        · exact absurd rfl (hstyle e'')
        · exact absurd rfl (hblock t)
    · exact Bool.eq_false_iff.mpr (List.find?_eq_none.mp hnone _ (List.mem_append_right _
        (List.mem_cons_of_mem _ (List.mem_map_of_mem hd))))
  · rintro ⟨rfl, hearlier⟩
    have hnone : (earlier.map (judge (Text.trim t))).find? Except.isOk = none := by
      refine List.find?_eq_none.mpr fun result hmem hok => ?_
      obtain ⟨d, hd, rfl⟩ := List.mem_map.mp hmem
      exact absurd hok (Bool.eq_false_iff.mp (hearlier d hd))
    rw [List.map_nil, List.nil_append,
      List.find?_cons_of_neg Bool.false_ne_true, hnone, Option.none_or,
      List.head?_cons] at hresult
    exact (Option.some_inj.mp hresult).symm

/-- A rule that does not end in a closing brace is none, wherever its block begins. -/
theorem isOk_judge_of_isSplit {later earlier : List (Text × Text)} {c d : Text × Text}
    (h : IsSplit rule later c earlier) (hd : d ∈ earlier) (hlast : c.2.getLast? ≠ some '\x7d') :
    (judge rule d).isOk = false := by
  have hc : rule = c.1 ++ '\x7b' :: c.2 := eq_append_of_mem_braceSplits
    (List.mem_reverse.mp (h ▸ List.mem_append_right _ List.mem_cons_self))
  have hmem : d ∈ (braceSplits rule).reverse :=
    h ▸ List.mem_append_right _ (List.mem_cons_of_mem _ hd)
  have hrule := eq_append_of_mem_braceSplits (List.mem_reverse.mp hmem)
  rw [Bool.eq_false_iff]
  intro hok
  rcases hjudge : judge rule d with e | compiled <;> rw [hjudge] at hok
  · exact absurd hok Bool.false_ne_true
  · obtain ⟨selector, marked, tree, -, -, -, hblock⟩ := compileCandidate_eq_ok hjudge
    have hend : rule.getLast? = some '\x7d' := by
      have hbrace := getLast?_of_ruleOf hblock
      rw [hrule, List.getLast?_append_of_ne_nil _ (List.cons_ne_nil _ _), List.getLast?_cons,
        hbrace]
      rfl
    rw [hc, List.getLast?_append_of_ne_nil _ (List.cons_ne_nil _ _), List.getLast?_cons] at hend
    rcases hnone : c.2.getLast? with _ | z <;> rw [hnone] at hend hlast
    · exact absurd hend (by decide)
    · exact hlast hend

/-- **The rightmost brace with a selector in front of it.** If its block is good, then it is the
rule. A block with a bad declaration is reported exactly if no brace stands to the right of it and
no escaped brace to the left of it makes a rule; a block that is not closed exactly if no brace
stands to the right of it. -/
theorem compileRule_rightmost {later earlier : List (Text × Text)}
    (hhead : (Text.trim t).head? ≠ some '\x7b')
    (hsupported : checkSupported (Text.trim t) = .ok ())
    (hsplit : IsSplit (Text.trim t) later (before, after) earlier)
    (hlater : ∀ d ∈ later, leavesSelector d.1 = false)
    (hstrip : stripRemoval before = .ok (selector, marked))
    (hread : Selector.ofText selector = .ok tree) :
    (∀ block ds, after = block ++ ['\x7d'] →
        Declaration.readBlock (marked || tree.hasRemoval) block = .ok ds →
        (compileRule .empty t).1 =
          .ok ⟨normalForm selector, tree, ds, marked || tree.hasRemoval⟩) ∧
      (∀ block e, after = block ++ ['\x7d'] →
        Declaration.readBlock (marked || tree.hasRemoval) block = .error e →
        ((compileRule .empty t).1 = .error (.style e) ↔
          later = [] ∧ ∀ d ∈ earlier, endsInEscape d.1 = true →
            (judge (Text.trim t) d).isOk = false)) ∧
      (after.getLast? ≠ some '\x7d' →
        ((compileRule .empty t).1 = .error (.unclosedBlock (Text.trim t)) ↔ later = [])) := by
  have hjudge := judge_of_selector (Text.trim t) after hstrip hread
  have hleaves : leavesSelector before = true :=
    leavesSelector_iff.mpr ⟨selector, marked, tree, hstrip, hread⟩
  have hdrop : ∀ block : Text, dropBrace? (block ++ ['\x7d']) = some block := fun block => by
    rw [dropBrace?, List.getLast?_concat, if_pos rfl, List.dropLast_concat]
  refine ⟨?_, ?_, fun hlast => ?_⟩
  · rintro block ds rfl hblock
    refine compileRule_of_isSplit hhead hsupported hsplit hlater ?_
    simp only [hjudge, ruleOf, hdrop, hblock]
  · rintro block e rfl hblock
    have herror : judge (Text.trim t) (before, block ++ ['\x7d']) = .error (.style e) := by
      simp only [hjudge, ruleOf, hdrop, hblock]
    rw [compileRule_eq_error_iff hhead hsupported hsplit hlater herror (Or.inl ⟨e, rfl⟩)]
    refine and_congr_right fun _ => forall₂_congr fun d hd => ⟨fun h _ => h, fun h => ?_⟩
    by_contra hok
    have hok := Bool.not_eq_false _ |>.mp hok
    obtain ⟨v, hv⟩ := hsplit.exists_of_mem hd
    simp only at hv
    have hescape := endsInEscape_of_leavesSelector (leavesSelector_of_isOk hok) (hv ▸ hleaves)
    exact absurd hok (Bool.eq_false_iff.mp (h hescape))
  · have herror : judge (Text.trim t) (before, after) = .error (.unclosedBlock (Text.trim t)) := by
      simp only [hjudge, ruleOf, dropBrace?, if_neg hlast]
    rw [compileRule_eq_error_iff hhead hsupported hsplit hlater herror (Or.inr ⟨_, rfl⟩)]
    exact ⟨And.left, fun h => ⟨h, fun d hd => isOk_judge_of_isSplit hsplit hd hlast⟩⟩

/-- Of three braces the one in the middle begins the block. The block of the second text ends in a
declaration without a colon; only because of the brace in its value this is not reported. -/
theorem compileRule_rightmost_braces :
    let selector := "p:contains(\x7b)".toList
    let tree : Selector := ⟨[[.fragment "p".toList, .textual .contains "\x7b".toList]]⟩
    let before := "p:contains(\x7b):remove() ".toList
    let good := " content: \"\x7b\"".toList
    let bad := " content: \"\x7b\"; color".toList
    stripRemoval before = .ok (selector, true) ∧ Selector.ofText selector = .ok tree ∧
      (compileRule .empty (before ++ '\x7b' :: good ++ ['\x7d'])).1 =
        .ok ⟨selector, tree, [⟨"content".toList, "\"\x7b\"".toList⟩], true⟩ ∧
      Declaration.readBlock true bad = .error (.unclosed "color".toList) ∧
      (compileRule .empty (before ++ '\x7b' :: bad ++ ['\x7d'])).1 ≠
        .error (.style (.unclosed "color".toList)) := by
  intro selector tree before good bad
  have hstrip : stripRemoval before = .ok (selector, true) := by decide +kernel
  have hread : Selector.ofText selector = .ok tree := by decide +kernel
  have hbad : Declaration.readBlock true bad = .error (.unclosed "color".toList) := by
    decide +kernel
  have hgoodSplit : IsSplit (Text.trim (before ++ '\x7b' :: good ++ ['\x7d']))
      [(before ++ '\x7b' :: " content: \"".toList, "\"\x7d".toList)]
      (before, good ++ ['\x7d'])
      [("p:contains(".toList, "):remove() \x7b content: \"\x7b\"\x7d".toList)] := by
    decide +kernel
  have hbadSplit : IsSplit (Text.trim (before ++ '\x7b' :: bad ++ ['\x7d']))
      [(before ++ '\x7b' :: " content: \"".toList, "\"; color\x7d".toList)]
      (before, bad ++ ['\x7d'])
      [("p:contains(".toList, "):remove() \x7b content: \"\x7b\"; color\x7d".toList)] := by
    decide +kernel
  refine ⟨hstrip, hread, ?_, hbad, fun herror => ?_⟩
  · exact (compileRule_rightmost (by decide) (by decide) hgoodSplit (by decide +kernel) hstrip
      hread).1 good _ rfl (by decide +kernel)
  · have hiff := (compileRule_rightmost (by decide) (by decide) hbadSplit (by decide +kernel)
      hstrip hread).2.1 bad _ rfl hbad
    exact absurd (hiff.mp herror).1 (List.cons_ne_nil _ _)

/-- A brace stands in place of the colon. The block behind `p` has no good declaration, but what is
reported is that `p { color` is no selector. -/
theorem not_compileRule_rightmost :
    ¬ ∀ (t before after selector : Text) (marked : Bool) (tree : Selector)
        (later earlier : List (Text × Text)),
      (Text.trim t).head? ≠ some '\x7b' → checkSupported (Text.trim t) = .ok () →
      IsSplit (Text.trim t) later (before, after) earlier →
      (∀ d ∈ later, leavesSelector d.1 = false) →
      stripRemoval before = .ok (selector, marked) → Selector.ofText selector = .ok tree →
      (compileRule .empty t).1 = ruleOf (Text.trim t) selector marked tree after := by
  intro h
  have hresult := h "p \x7b color \x7b red \x7d".toList "p ".toList " color \x7b red \x7d".toList
    "p".toList false ⟨[[.fragment "p".toList]]⟩ [("p \x7b color ".toList, " red \x7d".toList)] []
    (by decide) (by decide) (by decide +kernel) (by decide +kernel)
    (by decide +kernel) (by decide +kernel)
  revert hresult
  decide +kernel

end StyleSheet
end CosmeticFilter
