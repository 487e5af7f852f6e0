import CosmeticFilter.Extended.Reader
import CosmeticFilter.Proofs.Extended.Pieces
import CosmeticFilter.Proofs.Text.Trim

/-!
# Reading without a bound

The reader of selectors carries a bound on how deep arguments nest. An argument is shorter than the
text it stands in, so any bound above the length of the text gives the same answer, and the reader
that takes this bound reads arguments by itself.

* `Piece.argument?`: the text that the reader of a piece may read as branches;
* `Progress.step_congr`: a piece is read alike by two readers that agree on what is not longer;
* `readBranches_eq`: the bound does not matter;
* `readAll`, `readAll_eq`: the reader without a bound, and its equation.
-/

namespace CosmeticFilter
namespace Text

theorem length_stripQuotes? {t u : Text} (h : stripQuotes? t = some u) :
    u.length ≤ t.length := by
  cases t with
  | nil => exact absurd h (by simp [stripQuotes?])
  | cons q r =>
    rw [stripQuotes?] at h
    split at h
    · rw [← Option.some_inj.mp h, List.length_dropLast, List.length_cons]
      omega
    · exact absurd h (by simp)

theorem length_dropEscapes_le (c : Char) (t : Text) : (dropEscapes c t).length ≤ t.length := by
  fun_induction dropEscapes c t with
  | case1 => exact Nat.le_refl _
  | case2 x => exact Nat.le_refl _
  | case3 x y r _ ih =>
    simp only [List.length_cons]
    omega
  | case4 x y r _ ih =>
    simp only [List.length_cons] at ih ⊢
    omega

theorem length_cutFirst_snd_le {p : Char → Bool} {t x y : Text}
    (h : cutFirst p t = some (x, y)) : y.length ≤ t.length := by
  obtain ⟨c, -, rfl⟩ := cutFirst_eq_some h
  rw [List.length_append, List.length_cons]
  omega

end Text

namespace Extended

/-- A reader of the branches in an argument. -/
abbrev BranchReader := Scope → Text → Except Cause (List (List Node))

/-- What stands in the brackets of an argument. -/
def Argument.content? : Argument → Option Text
  | absent => none
  | given content => some content
  | unclosed => none

/-- The text in a piece that may be read as branches. -/
def Piece.argument? : Piece → Option Text
  | verbatim _ => none
  | space => none
  | comma => none
  | pseudoClass _ argument => argument.content?
  | pseudoElement _ argument => argument.content?
  | attributeTest content => some content
  | unbalanced => none
  | unclosedQuote _ => none

/-- The content of a group. -/
def Chunk.content? : Chunk → Option Text
  | mark _ => none
  | word _ => none
  | group _ content _ => some content

/-! ### Arguments are short -/

theorem length_content_lt {t : Text} {k : Chunk} (hk : k ∈ chunks t) {a : Text}
    (ha : a ∈ k.content?) : a.length < t.length := by
  have hlength : k.text.length ≤ t.length := by
    have hsub : k.text.Sublist ((chunks t).flatMap Chunk.text) :=
      List.sublist_flatten_of_mem (List.mem_map_of_mem hk)
    rw [flatMap_text_chunks] at hsub
    exact hsub.length_le
  cases k with
  | mark c => exact absurd ha (by simp [Chunk.content?])
  | word w => exact absurd ha (by simp [Chunk.content?])
  | group g content closed =>
    rw [← Option.some_inj.mp ha]
    simp only [Chunk.text, List.length_append, List.length_cons] at hlength
    omega

theorem Held.argument?_release (h : Held) : ∀ q ∈ h.release, q.argument? = none := by
  cases h <;> simp [release, Piece.argument?, Argument.content?]

theorem argument?_ofGroup {content : Text} {closed : Bool} {a : Text}
    (h : a ∈ (Argument.ofGroup content closed).content?) : a = content := by
  cases closed with
  | true => exact (Option.some_inj.mp h).symm
  | false => exact absurd h (by simp [Argument.ofGroup, Argument.content?])

theorem Piece.argument?_ofMark (c : Char) : (ofMark c).argument? = none := by
  unfold ofMark
  split
  · rfl
  · split
    · rfl
    · split <;> rfl

theorem Piece.argument?_ofChunkGroup {g : Group} {content : Text} {closed : Bool} {a : Text}
    (h : a ∈ (ofGroup g content closed).argument?) : a = content := by
  cases g <;> cases closed <;> simp_all [ofGroup, argument?]

/-- The argument of a piece is the content of the chunk that completes it. -/
theorem Held.argument?_feed {h : Held} {k : Chunk} {q : Piece} (hq : q ∈ (h.feed k).1) {a : Text}
    (ha : a ∈ q.argument?) : a ∈ k.content? := by
  have hrestart : ∀ q ∈ (restart k).1, a ∈ q.argument? → a ∈ k.content? := by
    intro q hq ha
    cases k with
    | mark c =>
      rw [restart] at hq
      split at hq
      · exact absurd hq (by simp)
      · rw [List.mem_singleton.mp hq, Piece.argument?_ofMark] at ha
        exact absurd ha (by simp)
    | word w =>
      rw [List.mem_singleton.mp hq] at ha
      exact absurd ha (by simp [Piece.argument?])
    | group g content closed =>
      rw [List.mem_singleton.mp hq] at ha
      rw [Piece.argument?_ofChunkGroup ha]
      rfl
  unfold feed at hq
  split at hq
  · exact absurd hq (by simp)
  · exact absurd hq (by simp)
  · exact absurd hq (by simp)
  · rw [List.mem_singleton.mp hq] at ha
    rw [argument?_ofGroup ha]
    rfl
  · rw [List.mem_singleton.mp hq] at ha
    rw [argument?_ofGroup ha]
    rfl
  · rcases List.mem_append.mp hq with hq | hq
    · rw [argument?_release h q hq] at ha
      exact absurd ha (by simp)
    · exact hrestart q hq ha

theorem length_argument_lt {t : Text} {q : Piece} (hq : q ∈ piecesOf (chunks t)) {a : Text}
    (ha : a ∈ q.argument?) : a.length < t.length := by
  have hmem : ∀ (ks : List Chunk) (h : Held), q ∈ piecesFrom h ks →
      ∃ k ∈ ks, a ∈ k.content? := by
    intro ks
    induction ks with
    | nil =>
      intro h hq
      rw [Held.argument?_release h q hq] at ha
      exact absurd ha (by simp)
    | cons k r ih =>
      intro h hq
      rcases List.mem_append.mp hq with hq | hq
      · exact ⟨k, List.mem_cons_self .., Held.argument?_feed hq ha⟩
      · obtain ⟨k', hk', hmem⟩ := ih _ hq
        exact ⟨k', List.mem_cons_of_mem _ hk', hmem⟩
  rw [piecesOf_eq] at hq
  obtain ⟨k, hk, hcontent⟩ := hmem _ _ hq
  exact length_content_lt hk hcontent

/-! ### Readers that agree -/

theorem length_nameAndValue_snd_le (body : Text) :
    (Draft.nameAndValue body).2.length ≤ body.length := by
  unfold Draft.nameAndValue
  cases hcut : Text.cutFirst (· == '=') body with
  | none => simp
  | some parts =>
    simp only [Option.map_some, Option.getD_some]
    exact Nat.le_trans (Text.length_trim_le _) (Text.length_cutFirst_snd_le hcut)

theorem length_unquote_le (value : Text) : (Draft.unquote value).length ≤ value.length := by
  unfold Draft.unquote
  split
  · rename_i inner quote hinner _
    exact Nat.le_trans (Text.length_dropEscapes_le _ _) (Text.length_stripQuotes? hinner)
  · exact Nat.le_refl _

theorem length_extendedBody? {content body : Text}
    (h : Draft.extendedBody? content = some body) : body.length ≤ content.length := by
  unfold Draft.extendedBody? at h
  simp only at h
  split at h
  · rw [← Option.some_inj.mp h, List.length_drop]
    have := Text.length_trim_le content
    omega
  · exact absurd h (by simp)

variable {inner inner' : BranchReader}

/-- An empty argument is never read as branches. -/
theorem addExtended_congr {s : Scope} {d : Draft} {name : Name} {argument : Text}
    (h : argument ≠ [] → ∀ s', inner s' argument = inner' s' argument) :
    d.addExtended inner s name argument = d.addExtended inner' s name argument := by
  by_cases hnil : argument = []
  · subst hnil
    unfold Draft.addExtended
    cases hrequired : name.requiresArgument with
    | true => rfl
    | false =>
      have hname : name = .remove := by
        cases name <;> first | rfl | exact absurd hrequired (by decide)
      subst hname
      rfl
  · have hnode : Draft.nodeOf inner s name argument = Draft.nodeOf inner' s name argument := by
      unfold Draft.nodeOf
      rw [h hnil]
    unfold Draft.addExtended
    rw [hnode]

theorem addPseudoClass_congr {s : Scope} {d : Draft} {name : Text} {argument : Argument}
    (h : ∀ a ∈ argument.content?, ∀ s', inner s' a = inner' s' a) :
    d.addPseudoClass inner s name argument = d.addPseudoClass inner' s name argument := by
  unfold Draft.addPseudoClass
  cases hname : Name.ofText? name with
  | none => rfl
  | some n =>
    cases argument with
    | unclosed => rfl
    | given content => exact addExtended_congr fun _ => h content rfl
    | absent => exact addExtended_congr fun hnil => absurd rfl hnil

theorem addAttribute_congr {s : Scope} {d : Draft} {content : Text}
    (h : ∀ b : Text, b.length ≤ content.length → ∀ s', inner s' b = inner' s' b) :
    d.addAttribute inner s content = d.addAttribute inner' s content := by
  unfold Draft.addAttribute
  cases hbody : Draft.extendedBody? content with
  | none => rfl
  | some body =>
    simp only
    cases hname : Name.ofText? (Draft.nameAndValue body).1 with
    | none => rfl
    | some name =>
      refine addExtended_congr fun hne => ?_
      by_cases hremove : name = .remove
      · rw [if_pos hremove] at hne
        exact absurd rfl hne
      · rw [if_neg hremove]
        exact h _ (Nat.le_trans (length_unquote_le _)
          (Nat.le_trans (length_nameAndValue_snd_le body) (length_extendedBody? hbody)))

/-- A piece is read alike by two readers that agree on all texts that are not longer than its
argument. -/
theorem Progress.step_congr {s : Scope} {q : Piece}
    (h : ∀ a ∈ q.argument?, ∀ b : Text, b.length ≤ a.length → ∀ s', inner s' b = inner' s' b)
    (p : Progress) : p.step inner s q = p.step inner' s q := by
  cases q with
  | verbatim t => rfl
  | space => rfl
  | comma => rfl
  | pseudoElement name argument => rfl
  | unbalanced => rfl
  | unclosedQuote quote => rfl
  | pseudoClass name argument =>
    unfold step
    simp only
    rw [addPseudoClass_congr fun a ha => h a ha a (Nat.le_refl _)]
  | attributeTest content =>
    unfold step
    simp only
    rw [addAttribute_congr (h content rfl)]

/-! ### Runs -/

section Runs

variable {s : Scope} {p p' : Progress} {q : Piece} {qs rs : List Piece}

theorem foldlM_append_eq_ok :
    (qs ++ rs).foldlM (Progress.step inner s) p = .ok p' ↔
      ∃ m, qs.foldlM (Progress.step inner s) p = .ok m ∧
        rs.foldlM (Progress.step inner s) m = .ok p' := by
  rw [List.foldlM_append]
  exact Outcome.bind_eq_ok

theorem foldlM_cons_eq_ok :
    (q :: qs).foldlM (Progress.step inner s) p = .ok p' ↔
      ∃ m, p.step inner s q = .ok m ∧ qs.foldlM (Progress.step inner s) m = .ok p' := by
  rw [List.foldlM_cons]
  exact Outcome.bind_eq_ok

theorem foldlM_singleton_eq_ok :
    [q].foldlM (Progress.step inner s) p = .ok p' ↔ p.step inner s q = .ok p' := by
  rw [foldlM_cons_eq_ok]
  exact ⟨fun ⟨_, hstep, hm⟩ => Except.ok.inj hm ▸ hstep, fun hstep => ⟨p', hstep, rfl⟩⟩

/-- What each piece keeps is kept by all. -/
theorem foldlM_keeps {P : Progress → Prop}
    (hstep : ∀ {p p' q}, P p → Progress.step inner s p q = .ok p' → P p') (hp : P p)
    (hrun : qs.foldlM (Progress.step inner s) p = .ok p') : P p' := by
  induction qs generalizing p with
  | nil => exact Except.ok.inj hrun ▸ hp
  | cons q r ih =>
    obtain ⟨mid, hmid, hrest⟩ := foldlM_cons_eq_ok.mp hrun
    exact ih (hstep hp hmid) hrest

/-- What has been read has been read piece by piece. -/
theorem exists_step_of_mem (hq : q ∈ qs) (hrun : qs.foldlM (Progress.step inner s) p = .ok p') :
    ∃ m m', Progress.step inner s m q = .ok m' := by
  obtain ⟨before, after, rfl⟩ := List.append_of_mem hq
  obtain ⟨m, -, hrest⟩ := foldlM_append_eq_ok.mp hrun
  obtain ⟨m', hstep, -⟩ := foldlM_cons_eq_ok.mp hrest
  exact ⟨m, m', hstep⟩

end Runs

/-- Reads chunks, where some are held back already. -/
def run (inner : BranchReader) (s : Scope) (h : Held) (p : Progress) (ks : List Chunk) :
    Except Cause Progress :=
  (piecesFrom h ks).foldlM (Progress.step inner s) p

theorem run_cons (s : Scope) (h : Held) (p : Progress) (k : Chunk) (ks : List Chunk) :
    run inner s h p (k :: ks) =
      (h.feed k).1.foldlM (Progress.step inner s) p >>= fun p' =>
        run inner s (h.feed k).2 p' ks := by
  rw [run, piecesFrom, List.foldlM_append]
  rfl

theorem ofMark_of_blank {c : Char} (hc : Text.isBlank c = true) : Piece.ofMark c = .space := by
  have hne : ∀ d : Char, Text.isBlank d = false → c ≠ d := by
    rintro d hd rfl
    rw [hc] at hd
    exact absurd hd (by simp)
  rw [Piece.ofMark, if_neg (hne ',' (by decide)), if_neg, if_pos hc]
  rintro (heq | heq)
  · exact hne ')' (by decide) heq
  · exact hne ']' (by decide) heq

theorem feed_blank {c : Char} (hc : Text.isBlank c = true) (h : Held) :
    h.feed (.mark c) = (h.release ++ [.space], .nothing) := by
  have hne : c ≠ ':' := by
    rintro rfl
    exact absurd hc (by decide)
  rw [feed_mark hne, ofMark_of_blank hc]

/-- Completes the branch after a run. -/
def finish (s : Scope) : Except Cause Progress → Except Cause (List (List Node))
  | .error e => .error e
  | .ok p => p.endBranch s

theorem readBranches_succ (n : Nat) (s : Scope) (t : Text) :
    readBranches (n + 1) s t =
      finish s (run (readBranches n) s .nothing .start (chunks (Text.trim t))) := by
  rw [readBranches, pieces, piecesOf_eq]
  rfl

theorem foldlM_congr {s : Scope} {qs : List Piece}
    (h : ∀ q ∈ qs, ∀ p : Progress, p.step inner s q = p.step inner' s q) (p : Progress) :
    qs.foldlM (Progress.step inner s) p = qs.foldlM (Progress.step inner' s) p := by
  induction qs generalizing p with
  | nil => rfl
  | cons q r ih =>
    rw [List.foldlM_cons, List.foldlM_cons, h q (List.mem_cons_self ..)]
    congr 1
    funext p'
    exact ih (fun q' hq' => h q' (List.mem_cons_of_mem _ hq')) p'

/-- Any bound above the length of the text gives the same answer. -/
theorem readBranches_eq {n m : Nat} {t : Text} (hn : t.length < n) (hm : t.length < m)
    (s : Scope) : readBranches n s t = readBranches m s t := by
  induction n generalizing m s t with
  | zero => exact absurd hn (Nat.not_lt_zero _)
  | succ n ih =>
    cases m with
    | zero => exact absurd hm (Nat.not_lt_zero _)
    | succ m =>
      rw [readBranches_succ, readBranches_succ, run, run, foldlM_congr]
      intro q hq
      rw [← piecesOf_eq] at hq
      refine Progress.step_congr fun a ha b hb s' => ?_
      have hlength := length_argument_lt hq ha
      have htrim := Text.length_trim_le t
      exact ih (by omega) (by omega) s'

/-- Reads a list of branches, however deep arguments nest. -/
def readAll (s : Scope) (t : Text) : Except Cause (List (List Node)) :=
  readBranches (t.length + 1) s t

theorem readBranches_eq_readAll {n : Nat} {t : Text} (h : t.length < n) (s : Scope) :
    readBranches n s t = readAll s t :=
  readBranches_eq h (Nat.lt_succ_self _) s

/-- The reader without a bound reads arguments by itself. -/
theorem readAll_eq (s : Scope) (t : Text) :
    readAll s t = finish s (run readAll s .nothing .start (chunks (Text.trim t))) := by
  rw [readAll, readBranches_succ, run, run, foldlM_congr]
  intro q hq
  rw [← piecesOf_eq] at hq
  refine Progress.step_congr fun a ha b hb s' => ?_
  have hlength := length_argument_lt hq ha
  have htrim := Text.length_trim_le t
  exact readBranches_eq_readAll (by omega) s'

theorem readAll_eq_ok {s : Scope} {t : Text} {bs : List (List Node)} :
    readAll s t = .ok bs ↔
      ∃ p, run readAll s .nothing .start (chunks (Text.trim t)) = .ok p ∧
        p.endBranch s = .ok bs := by
  rw [readAll_eq]
  cases run readAll s .nothing .start (chunks (Text.trim t)) with
  | error e => simp [finish]
  | ok p => simp [finish]

/-- Blanks around a text do not count. -/
theorem readAll_trim (s : Scope) (t : Text) : readAll s (Text.trim t) = readAll s t := by
  rw [readAll_eq, Text.trim_trim, ← readAll_eq]

theorem Selector.ofText_eq (t : Text) :
    Selector.ofText t =
      match readAll .top t with
      | .ok branches => .ok ⟨branches⟩
      | .error cause => .error ⟨t, cause⟩ := rfl

theorem Selector.ofText_eq_ok {t : Text} {s : Selector} :
    Selector.ofText t = .ok s ↔ readAll .top t = .ok s.branches := by
  rw [Selector.ofText_eq]
  cases readAll .top t with
  | error cause => simp
  | ok branches =>
    simp only [Except.ok.injEq]
    constructor
    · rintro rfl
      rfl
    · rintro rfl
      rfl

end Extended
end CosmeticFilter
