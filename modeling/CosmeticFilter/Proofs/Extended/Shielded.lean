import CosmeticFilter.Proofs.Extended.BlankRuns

/-!
# Shielded texts

The normal form of a text shortens every run of blanks that its reader finds outside quotes and
brackets. That reader counts all brackets and quotes, also those that the reader of selectors takes
for text, so that it may come upon such a run inside a group that is kept as it is. In a shielded
text it does not, and such a text is read like its normal form.

* `branchesArgument?`: an argument that is not kept as it is, but read as branches;
* `isShielded`: no group that is kept as it is holds a blank to be shortened;
* `readAll_normalForm`: a shielded text is read like its normal form.
-/

namespace CosmeticFilter
namespace Extended

open Nesting (Settled settled_top isTop_iff)

/-- The content of a group, if it is the argument of a pseudo-class that reads it as branches. -/
def branchesArgument? (h : Held) (k : Chunk) : Option Text :=
  match h, k with
  | .pseudoClass name, .group .parens content true =>
    (Name.ofText? name).bind fun n =>
      if n.argumentKind content = .relative then some content else none
  | _, _ => none

/-- The chunk is a group. -/
def Chunk.isGroup : Chunk → Bool
  | mark _ => false
  | word _ => false
  | group _ _ _ => true

/-- No blank is shortened in a group that is kept as it is; `inner` says so of an argument that is
read as branches. -/
def shields (inner : Nesting → Text → Bool) : Held → Nesting → List Chunk → Bool
  | _, _, [] => true
  | h, s, k :: r =>
    (match branchesArgument? h k with
      | some content => inner (s.step .roundAndSquare '(') content
      | none => !k.isGroup || isQuiet s k.text) &&
    shields inner (h.feed k).2 (s.after .roundAndSquare k.text) r

/-- No blank is shortened in a group that is kept as it is, where arguments nest less than `depth`
deep. -/
def isShieldedWithin : Nat → Nesting → Text → Bool
  | 0, _, _ => false
  | depth + 1, s, t => shields (isShieldedWithin depth) .nothing s (chunks (Text.trim t))

/-- No blank is shortened in a group that is kept as it is. -/
def isShielded (t : Text) : Bool := isShieldedWithin (t.length + 1) .top t

/-! ### The steps of a run -/

section

variable {R : BranchReader} {sc : Scope} {h : Held} {p : Progress}

theorem writeSpace_writeSpace (d : Draft) : d.writeSpace.writeSpace = d.writeSpace := by
  unfold Draft.writeSpace
  split
  · rfl
  · rw [if_pos]
    simp [Draft.write]

/-- All blanks are read alike. -/
theorem run_blank {c d : Char} (hc : Text.isBlank c = true) (hd : Text.isBlank d = true)
    (ks : List Chunk) : run R sc h p (.mark c :: ks) = run R sc h p (.mark d :: ks) := by
  rw [run_cons, run_cons, feed_blank hc, feed_blank hd]

theorem run_space {d : Char} (hd : Text.isBlank d = true) (ks : List Chunk) :
    run R sc .nothing p (.mark d :: ks) =
      run R sc .nothing ⟨p.branches, p.draft.writeSpace⟩ ks := by
  rw [run_cons, feed_blank hd]
  rfl

/-- Two blanks are read like one. -/
theorem run_blank_blank {c d : Char} (hc : Text.isBlank c = true) (hd : Text.isBlank d = true)
    (ks : List Chunk) :
    run R sc h p (.mark c :: .mark d :: ks) = run R sc h p (.mark c :: ks) := by
  rw [run_cons, run_cons, feed_blank hc, List.foldlM_append, bind_assoc, bind_assoc]
  congr 1
  funext p'
  show run R sc .nothing ⟨p'.branches, p'.draft.writeSpace⟩ (.mark d :: ks) =
    run R sc .nothing ⟨p'.branches, p'.draft.writeSpace⟩ ks
  rw [run_space hd, writeSpace_writeSpace]

/-! ### Shortened runs are read alike -/

/-- The inner reader reads the arguments that `inner` passes like their shortened forms. -/
def ReadsCollapsed (inner : Nesting → Text → Bool) (R : BranchReader) : Prop :=
  ∀ (s : Nesting) (content : Text), Settled s → inner s content = true →
    ∀ sc, R sc (collapse s false content) = R sc content

theorem startsWithMark_collapse {s : Nesting} {t : Text} (ht : startsWithMark t = true) :
    startsWithMark (collapse s false t) = true := by
  have howed : ∀ u : Text, startsWithMark (collapse .top true u) = true := by
    intro u
    induction u with
    | nil => decide
    | cons c u ih =>
      cases hc : Nesting.top.isTop && Text.isBlank c with
      | true => rw [collapse_cons_of_blank (Bool.and_eq_true_iff.mp hc).2]; exact ih
      | false => rw [collapse_cons_of_kept hc]; exact (startsWithMark_cons ' ' _).trans (by decide)
  cases t with
  | nil => rfl
  | cons c r =>
    cases hc : s.isTop && Text.isBlank c with
    | true =>
      have hs := isTop_iff.mp (Bool.and_eq_true_iff.mp hc).1
      subst hs
      rw [collapse_cons_of_blank (Bool.and_eq_true_iff.mp hc).2]
      exact howed r
    | false => rw [collapse_cons_of_kept hc]; exact ht

/-- A number has no space in it. -/
theorem readInt64?_of_space {t : Text} (ht : ' ' ∈ t) : Text.readInt64? t = none := by
  have hnat : ∀ u : Text, ' ' ∈ u → Text.readNat? u = none := by
    intro u hu
    rw [Text.readNat?, if_neg]
    rw [Bool.and_eq_true, List.all_eq_true]
    intro h
    exact absurd (h.2 ' ' hu) (by decide)
  have hint : Text.readInt? t = none := by
    cases t with
    | nil => rfl
    | cons c r =>
      rw [Text.readInt?]
      split
      · rename_i hc
        subst hc
        rw [hnat r ((List.mem_cons.mp ht).resolve_left (by decide))]
        rfl
      · split
        · rename_i hc
          subst hc
          rw [hnat r ((List.mem_cons.mp ht).resolve_left (by decide))]
          rfl
        · rw [hnat _ ht]
          rfl
  rw [Text.readInt64?, Text.readIntWithin?, hint]
  rfl

theorem argumentKind_collapse {s : Nesting} (hs : Settled s) {n : Name} {content : Text}
    (hkind : n.argumentKind content = .relative) :
    n.argumentKind (collapse s false content) = .relative := by
  cases n
  case upward =>
    cases hquiet : isQuiet s (Text.trim content) with
    | true =>
      have hsame : collapse s false (Text.trim content) = Text.trim content := by
        have := collapse_of_isQuiet hquiet []
        rwa [List.append_nil, collapse, if_neg Bool.false_ne_true, List.append_nil] at this
      unfold Name.argumentKind at hkind ⊢
      simp only at hkind ⊢
      rw [trim_collapse hs, hsame]
      exact hkind
    | false =>
      unfold Name.argumentKind
      simp only
      rw [trim_collapse hs, readInt64?_of_space (space_mem_collapse hquiet)]
  all_goals exact hkind

theorem exists_of_branchesArgument? {k : Chunk} {content : Text}
    (hk : branchesArgument? h k = some content) :
    ∃ name n, h = .pseudoClass name ∧ k = .group .parens content true ∧
      Name.ofText? name = some n ∧ n.argumentKind content = .relative := by
  unfold branchesArgument? at hk
  split at hk
  · rename_i name content'
    obtain ⟨n, hn, hcontent⟩ := Option.bind_eq_some_iff.mp hk
    split at hcontent
    · rename_i hkind
      obtain rfl := Option.some_inj.mp hcontent
      exact ⟨name, n, rfl, rfl, hn, hkind⟩
    · exact absurd hcontent (by simp)
  · exact absurd hk (by simp)

/-- An argument is read as branches like its shortened form. -/
theorem addExtended_collapse {s : Nesting} (hs : Settled s) {content : Text} {n : Name}
    (hkind : n.argumentKind content = .relative)
    (hread : ∀ sc, R sc (collapse s false content) = R sc content) (d : Draft) :
    d.addExtended R sc n (collapse s false content) = d.addExtended R sc n content := by
  have hnode : Draft.nodeOf R sc n (collapse s false content) = Draft.nodeOf R sc n content := by
    rw [Draft.nodeOf, Draft.nodeOf, argumentKind_collapse hs hkind, hkind]
    simp only
    rw [hread]
  unfold Draft.addExtended
  rw [isAllBlank_collapse hs, hnode]

variable {inner : Nesting → Text → Bool}

/-- A run of blanks that has been passed over is read as the space that stands for it. -/
theorem run_collapse_owed {t : Text} (ht : ∀ c ∈ t.head?, Text.isBlank c = false)
    (hread : ∀ p, run R sc .nothing p (chunks (collapse .top false t)) =
      run R sc .nothing p (chunks t)) :
    run R sc h p (chunks (collapse .top true t)) = run R sc h p (.mark ' ' :: chunks t) := by
  rw [collapse_of_owed ht, chunks_of_mark (by decide) (by decide), run_cons, run_cons,
    feed_blank (by decide)]
  simp only [hread]

theorem shields_cons_blank {s : Nesting} (hs : Settled s) {c : Char} (hc : Text.isBlank c = true)
    {ks : List Chunk} (hk : shields inner h s (.mark c :: ks) = true) :
    shields inner .nothing s ks = true := by
  rw [shields, Bool.and_eq_true, feed_blank hc] at hk
  have := hk.2
  rwa [Chunk.text, Nesting.after_cons, hs.step_of_blank hc, Nesting.after_nil] at this

/-- A chunk in which nothing is shortened is read as it is. -/
theorem run_collapse_kept {s : Nesting} {k : Chunk} {y : Text} (hquiet : isQuiet s k.text = true)
    (hcut : ∀ z, z = y ∨ z = collapse (s.after .roundAndSquare k.text) false y →
      chunks (k.text ++ z) = k :: chunks z)
    (hrest : ∀ p', run R sc (h.feed k).2 p'
        (chunks (collapse (s.after .roundAndSquare k.text) false y)) =
      run R sc (h.feed k).2 p' (chunks y)) :
    run R sc h p (chunks (collapse s false (k.text ++ y))) =
      run R sc h p (chunks (k.text ++ y)) := by
  rw [collapse_of_isQuiet hquiet, hcut _ (Or.inr rfl), hcut y (Or.inl rfl), run_cons, run_cons]
  simp only [hrest]

/-- An argument that is read as branches is read like its shortened form. -/
theorem run_collapse_argument (hR : ReadsCollapsed inner R) {s : Nesting} (hs : Settled s)
    {name : Text} {n : Name} (hn : Name.ofText? name = some n) {content y : Text}
    (hkind : n.argumentKind content = .relative)
    (hinner : inner (s.step .roundAndSquare '(') content = true)
    (hfills : Inside.Fills ⟨0, none, '('⟩ content)
    (hrest : ∀ p', run R sc .nothing p'
        (chunks (collapse (s.after .roundAndSquare ('(' :: (content ++ [')']))) false y)) =
      run R sc .nothing p' (chunks y)) :
    run R sc (.pseudoClass name) p (chunks (collapse s false ('(' :: (content ++ ')' :: y)))) =
      run R sc (.pseudoClass name) p (chunks ('(' :: (content ++ ')' :: y))) := by
  have hs' : Settled (s.step .roundAndSquare '(') := hs.step (by decide)
  have hshort := (hfills.collapse (j := ⟨0, none, '('⟩) hs').1
    ⟨rfl, rfl, rfl, fun _ hq => absurd hq (by simp)⟩
  rw [Nesting.after_cons, Nesting.after_append, Nesting.after_cons, Nesting.after_nil] at hrest
  rw [collapse_cons_of_kept (kept_of_not_blank (by decide)), if_neg Bool.false_ne_true,
    List.nil_append, collapse_append_cons (kept_of_not_blank (by decide)),
    chunks_closed_group (g := .parens) (by decide) ((Inside.fills_iff _).mp hshort),
    chunks_closed_group (g := .parens) (by decide) ((Inside.fills_iff y).mp hfills),
    run_cons, run_cons]
  simp only [Held.feed, Argument.ofGroup, if_true, List.foldlM_cons, List.foldlM_nil, hrest,
    Progress.step, Draft.addPseudoClass, hn]
  rw [addExtended_collapse hs' hkind fun sc => hR _ _ hs' hinner sc]

theorem run_collapse_word {c : Char} {r : Text} (hmark : isMark c = false) {s : Nesting}
    (hs : Settled s) (hshield : shields inner h s (chunks (c :: r)) = true)
    (hrest : ∀ (s : Nesting) (h : Held) (p : Progress), Settled s →
      shields inner h s (chunks (takeWord (c :: r)).2) = true →
      run R sc h p (chunks (collapse s false (takeWord (c :: r)).2)) =
        run R sc h p (chunks (takeWord (c :: r)).2)) :
    run R sc h p (chunks (collapse s false (c :: r))) = run R sc h p (chunks (c :: r)) := by
  have hword := chunks_takeWord_fst hmark r
  have hquiet := isQuiet_word hs (congrArg Prod.snd (takeWord_fst (c :: r)))
  have happend := takeWord_append (c :: r)
  have hmarked := startsWithMark_takeWord_snd (c :: r)
  rw [chunks_of_word hmark, shields, Bool.and_eq_true] at hshield
  by_cases hnil : (takeWord (c :: r)).2 = []
  · rw [hnil, List.append_nil] at happend
    rw [happend] at hquiet
    have hsame := collapse_of_isQuiet hquiet []
    rw [List.append_nil, collapse, if_neg Bool.false_ne_true, List.append_nil] at hsame
    rw [hsame]
  · have hescape := endsInEscape_takeWord_fst hnil
    rw [← happend]
    refine run_collapse_kept (k := .word (takeWord (c :: r)).1) hquiet (fun z hz => ?_) fun p' =>
      hrest _ _ p' (hs.after hescape) hshield.2
    have hz' : startsWithMark z = true := by
      rcases hz with rfl | rfl
      · exact hmarked
      · exact startsWithMark_collapse hmarked
    rw [Chunk.text, chunks_append _ hescape fun _ _ _ => hz', hword]
    · rfl
    · rw [hword]
      simp [Chunk.isClosed]

theorem run_collapse_group (hR : ReadsCollapsed inner R) {c : Char} {r : Text} {g : Group}
    (hopen : Group.ofMark? c = some g) {s : Nesting} (hs : Settled s)
    (hshield : shields inner h s (chunks (c :: r)) = true)
    (hrest : ∀ (s : Nesting) (h : Held) (p : Progress), Settled s →
      shields inner h s (chunks (groupContent g ⟨0, none, c⟩ r).2.tail) = true →
      run R sc h p (chunks (collapse s false (groupContent g ⟨0, none, c⟩ r).2.tail)) =
        run R sc h p (chunks (groupContent g ⟨0, none, c⟩ r).2.tail)) :
    run R sc h p (chunks (collapse s false (c :: r))) = run R sc h p (chunks (c :: r)) := by
  have hc := ne_backslash_of_isMark (isMark_of_ofMark? hopen)
  have hopening := Group.opening_of_ofMark? hopen
  have hall := groupContent_append g ⟨0, none, c⟩ r
  have hclosing := head?_groupContent_snd g ⟨0, none, c⟩ r
  have hcontent := endsInEscape_groupContent_fst (g := g) (s := ⟨0, none, c⟩) (t := r)
  rw [chunks_of_group hopen, shields, Bool.and_eq_true] at hshield
  cases hgroup : groupContent g ⟨0, none, c⟩ r with
  | mk content rest =>
  rw [hgroup] at hall hclosing hcontent hshield hrest
  simp only at hall hclosing hcontent hshield hrest
  cases rest with
  | nil =>
    have hnone : branchesArgument? h (.group g content (!([] : Text).isEmpty)) = none := by
      cases h <;> cases g <;> rfl
    rw [hnone] at hshield
    have hquiet : isQuiet s (c :: r) = true := by
      have := hshield.1
      simpa [Chunk.isGroup, Chunk.text, hopening, ← hall] using this
    have hsame := collapse_of_isQuiet hquiet []
    rw [List.append_nil, collapse, if_neg Bool.false_ne_true, List.append_nil] at hsame
    rw [hsame]
  | cons d y =>
    obtain rfl := hclosing d rfl
    have hclosed := groupContent_eq_of_closed hgroup
    have hescape : endsInEscape (c :: (content ++ [g.closing])) = false := by
      rw [endsInEscape_cons hc, endsInEscape_append (hcontent (by simp)),
        endsInEscape_cons (Group.closing_ne_backslash hopen)]
      rfl
    have htext : Chunk.text (.group g content true) = c :: (content ++ [g.closing]) := by
      rw [Chunk.text, hopening]
      rfl
    rw [List.isEmpty_cons, Bool.not_false, List.tail_cons] at hshield
    have hy := fun p' => hrest _ _ p' (hs.after hescape) (htext ▸ hshield.2)
    rw [List.tail_cons] at hy
    cases hargument : branchesArgument? h (.group g content true) with
    | some content' =>
      obtain ⟨name, n, rfl, hk, hn, hkind⟩ := exists_of_branchesArgument? hargument
      obtain ⟨rfl, rfl⟩ : g = .parens ∧ content = content' := by
        simpa using hk
      obtain rfl : '(' = c := hopening
      rw [hargument] at hshield
      rw [← hall]
      exact run_collapse_argument hR hs hn hkind hshield.1 (hclosed []) hy
    | none =>
      rw [hargument] at hshield
      have hquiet : isQuiet s (Chunk.text (.group g content true)) = true := by
        simpa [Chunk.isGroup] using hshield.1
      have hwhole : c :: r = Chunk.text (.group g content true) ++ y := by
        rw [htext, ← hall]
        simp
      rw [hwhole]
      refine run_collapse_kept hquiet (fun z _ => ?_) (htext ▸ hy)
      rw [htext, List.cons_append, List.append_assoc, List.singleton_append]
      exact chunks_closed_group hopen (hclosed z)

/-- A mark is read as it is, or starts a run of blanks. -/
theorem run_collapse_mark {c : Char} {r : Text} (hmark : isMark c = true)
    (hopen : Group.ofMark? c = none) {s : Nesting} (hs : Settled s)
    (hend : ∀ d ∈ (c :: r).getLast?, Text.isBlank d = false)
    (hshield : shields inner h s (chunks (c :: r)) = true)
    (hrest : ∀ (s : Nesting) (h : Held) (p : Progress), Settled s →
      shields inner h s (chunks r) = true →
      run R sc h p (chunks (collapse s false r)) = run R sc h p (chunks r))
    (howed : r ≠ [] → shields inner .nothing .top (chunks r) = true →
      run R sc h p (chunks (collapse .top true r)) = run R sc h p (.mark ' ' :: chunks r)) :
    run R sc h p (chunks (collapse s false (c :: r))) = run R sc h p (chunks (c :: r)) := by
  rw [chunks_of_mark hmark hopen] at hshield
  cases hkept : s.isTop && Text.isBlank c with
  | true =>
    obtain ⟨htop, hblank⟩ := Bool.and_eq_true_iff.mp hkept
    obtain rfl := isTop_iff.mp htop
    have hne : r ≠ [] := by
      rintro rfl
      rw [hend c rfl] at hblank
      exact absurd hblank Bool.false_ne_true
    rw [collapse_cons_of_blank hblank, howed hne (shields_cons_blank hs hblank hshield),
      chunks_of_mark hmark hopen]
    exact run_blank (by decide) hblank _
  | false =>
    rw [shields, Bool.and_eq_true] at hshield
    have hquiet : isQuiet s (Chunk.mark c).text = true := by
      rw [Chunk.text, isQuiet, hkept]
      rfl
    exact run_collapse_kept (k := .mark c) (y := r) hquiet
      (fun z _ => chunks_of_mark hmark hopen z)
      fun p' => hrest _ _ p' (hs.step (ne_backslash_of_isMark hmark)) hshield.2

/-- A text is read like the one with its runs of blanks shortened. -/
theorem run_collapse (hR : ReadsCollapsed inner R) (t : Text)
    (hend : ∀ c ∈ t.getLast?, Text.isBlank c = false) :
    (∀ (s : Nesting) (h : Held) (p : Progress), Settled s →
      shields inner h s (chunks t) = true →
      run R sc h p (chunks (collapse s false t)) = run R sc h p (chunks t)) ∧
    (t ≠ [] → shields inner .nothing .top (chunks t) = true → ∀ (h : Held) (p : Progress),
      run R sc h p (chunks (collapse .top true t)) = run R sc h p (.mark ' ' :: chunks t)) := by
  have hlast : ∀ {x y : Text}, (∀ c ∈ (x ++ y).getLast?, Text.isBlank c = false) →
      ∀ c ∈ y.getLast?, Text.isBlank c = false := by
    intro x y hxy c hc
    refine hxy c ?_
    rw [List.getLast?_append, hc]
    rfl
  induction t using chunks_induction with
  | nil => exact ⟨fun _ _ _ _ _ => rfl, fun hne => absurd rfl hne⟩
  | word c r hmark ih =>
    have hrest := ih (hlast (x := (takeWord (c :: r)).1) (by rw [takeWord_append]; exact hend))
    refine ⟨fun s h p hs hshield => run_collapse_word hmark hs hshield hrest.1,
      fun _ hshield h p => run_collapse_owed (fun d hd => ?_) fun p' =>
        run_collapse_word hmark settled_top hshield hrest.1⟩
    rw [isMark, Bool.or_eq_false_iff] at hmark
    rw [← Option.some_inj.mp hd]
    exact hmark.1
  | mark c r hmark hopen ih =>
    have hrest := ih (hlast (x := [c]) hend)
    refine ⟨fun s h p hs hshield => run_collapse_mark hmark hopen hs hend hshield hrest.1
      fun hne hshield' => hrest.2 hne hshield' h p, fun _ hshield h p => ?_⟩
    cases hblank : Text.isBlank c with
    | false =>
      refine run_collapse_owed (fun d hd => ?_) fun p' => run_collapse_mark hmark hopen settled_top
        hend hshield hrest.1 fun hne hshield' => hrest.2 hne hshield' .nothing p'
      rw [← Option.some_inj.mp hd]
      exact hblank
    | true =>
      have hne : r ≠ [] := by
        rintro rfl
        rw [hend c rfl] at hblank
        exact absurd hblank Bool.false_ne_true
      rw [chunks_of_mark hmark hopen] at hshield ⊢
      rw [collapse_cons_of_blank hblank, hrest.2 hne (shields_cons_blank settled_top hblank hshield),
        run_blank_blank (by decide) hblank]
  | group c r g hopen ih =>
    have hrest := ih (hlast (x := c :: (groupContent g ⟨0, none, c⟩ r).1 ++
      (groupContent g ⟨0, none, c⟩ r).2.take 1) (by
        rw [List.append_assoc, ← List.drop_one, List.take_append_drop, List.cons_append,
          groupContent_append]
        exact hend))
    refine ⟨fun s h p hs hshield => run_collapse_group hR hopen hs hshield hrest.1,
      fun _ hshield h p => run_collapse_owed (fun d hd => ?_) fun p' =>
        run_collapse_group hR hopen settled_top hshield hrest.1⟩
    rw [← Option.some_inj.mp hd]
    exact not_blank_of_ofMark? hopen

end

/-! ### Whole texts -/

/-- A shielded text is read like the one with its runs of blanks shortened. -/
theorem readBranches_collapse {depth : Nat} {s : Nesting} (hs : Settled s) {t : Text}
    (ht : isShieldedWithin depth s t = true) (n : Nat) (sc : Scope) :
    readBranches n sc (collapse s false t) = readBranches n sc t := by
  induction n generalizing depth s t sc with
  | zero => rfl
  | succ n ih =>
    cases depth with
    | zero => exact absurd ht Bool.false_ne_true
    | succ depth =>
      have hR : ReadsCollapsed (isShieldedWithin depth) (readBranches n) :=
        fun s' content hs' hcontent sc' => ih hs' hcontent sc'
      rw [readBranches_succ, readBranches_succ, trim_collapse hs]
      rw [(run_collapse hR (Text.trim t) fun _ hc => Text.not_blank_of_getLast?_trim hc).1 s
        .nothing .start hs ht]

theorem normalForm_eq (t : Text) : normalForm t = collapse .top false (Text.trim t) := by
  have hsame : ∀ (u : Text) (s : Nesting) (owed : Bool),
      (∀ c ∈ u.getLast?, Text.isBlank c = false) → (u = [] → owed = false) →
      normalFrom s owed u = collapse s owed u := by
    intro u
    induction u with
    | nil =>
      intro s owed _ howed
      rw [howed rfl]
      rfl
    | cons c r ih =>
      intro s owed hend _
      have hr : ∀ d ∈ r.getLast?, Text.isBlank d = false :=
        fun d hd => hend d (mem_getLast?_cons hd c)
      rw [normalFrom, collapse]
      split
      · rename_i hblank
        refine ih s true hr fun hnil => ?_
        subst hnil
        rw [hend c rfl, Bool.and_false] at hblank
        exact absurd hblank Bool.false_ne_true
      · rw [ih _ false hr fun _ => rfl]
  exact hsame _ _ _ (fun _ hc => Text.not_blank_of_getLast?_trim hc) fun _ => rfl

theorem readBranches_trim (n : Nat) (sc : Scope) (t : Text) :
    readBranches n sc (Text.trim t) = readBranches n sc t := by
  cases n with
  | zero => rfl
  | succ n => rw [readBranches_succ, readBranches_succ, Text.trim_trim]

/-- A shielded text is read like its normal form. -/
theorem readAll_normalForm {t : Text} (ht : isShielded t = true) (sc : Scope) :
    readAll sc (normalForm t) = readAll sc t := by
  have hsame := readBranches_collapse settled_top ht
    ((normalForm t).length + t.length + 1) sc
  rw [← readBranches_trim, trim_collapse settled_top, ← normalForm_eq] at hsame
  rwa [readBranches_eq_readAll (by omega), readBranches_eq_readAll (by omega)] at hsame

end Extended
end CosmeticFilter
