import CosmeticFilter.Proofs.Extended.NativeText
import CosmeticFilter.Proofs.Text.Trim

/-!
# Blanks that are respaced

A native fragment has the text of its pieces, with one space for each run of blanks. Whatever stands
together in it without a space, stands together in the text that it has been read from.

* `Respaced`: what stands together in one text does so in the other;
* `flatMap_text_piecesFrom`: pieces have the text of their chunks;
* `infix_of_native`: a word of a fragment stands in the text of the selector.
-/

namespace CosmeticFilter
namespace Extended

/-- What stands together in a text without a blank, does so in the text that it has been made from,
and both have the same end up to a blank. -/
def Respaced (raw out : Text) : Prop :=
  ∀ u : Text, (∀ c ∈ u, Text.isBlank c = false) →
    (u <:+: out → u <:+: raw) ∧ (u <:+ out ↔ u <:+ raw)

theorem infix_append_cases {u a b : Text} (h : u <:+: a ++ b) :
    u <:+: a ∨ u <:+: b ∨ ∃ v w, u = v ++ w ∧ w ≠ [] ∧ v ≠ [] ∧ v <:+ a ∧ w <+: b := by
  obtain ⟨x, y, heq⟩ := h
  rcases List.append_eq_append_iff.mp heq with ⟨a', rfl, rfl⟩ | ⟨c', hxu, rfl⟩
  · exact Or.inl ⟨x, a', rfl⟩
  · rcases List.append_eq_append_iff.mp hxu with ⟨a', rfl, rfl⟩ | ⟨c'', rfl, rfl⟩
    · by_cases ha : a' = []
      · subst ha
        exact Or.inr (Or.inl ⟨[], y, rfl⟩)
      · by_cases hc : c' = []
        · subst hc
          rw [List.append_nil]
          exact Or.inl ⟨x, [], by rw [List.append_nil]⟩
        · exact Or.inr (Or.inr ⟨a', c', rfl, hc, ha, ⟨x, rfl⟩, ⟨y, rfl⟩⟩)
    · exact Or.inr (Or.inl ⟨c'', y, rfl⟩)

theorem suffix_append_cases {u a b : Text} (h : u <:+ a ++ b) :
    u <:+ b ∨ ∃ v, u = v ++ b ∧ v <:+ a := by
  obtain ⟨x, heq⟩ := h
  rcases List.append_eq_append_iff.mp heq with ⟨a', rfl, rfl⟩ | ⟨c', rfl, rfl⟩
  · exact Or.inr ⟨a', rfl, ⟨x, rfl⟩⟩
  · exact Or.inl ⟨c', rfl⟩

variable {raw mid out : Text}

theorem Respaced.nil : Respaced [] [] := fun _ _ => ⟨id, Iff.rfl⟩

theorem Respaced.trans (h : Respaced raw mid) (h' : Respaced mid out) : Respaced raw out :=
  fun u hu => ⟨fun hinfix => (h u hu).1 ((h' u hu).1 hinfix), (h' u hu).2.trans (h u hu).2⟩

/-- The same text behind both. -/
theorem Respaced.append (h : Respaced raw out) (t : Text) : Respaced (raw ++ t) (out ++ t) := by
  intro u hu
  refine ⟨fun hinfix => ?_, fun hsuffix => ?_, fun hsuffix => ?_⟩
  · rcases infix_append_cases hinfix with hout | ht | ⟨v, w, rfl, -, -, hv, hw⟩
    · exact ((h u hu).1 hout).trans ⟨[], t, rfl⟩
    · exact ht.trans ⟨raw, [], by rw [List.append_nil]⟩
    · obtain ⟨x, rfl⟩ := (h v fun c hc => hu c (List.mem_append_left _ hc)).2.mp hv
      obtain ⟨y, rfl⟩ := hw
      exact ⟨x, y, by simp only [List.append_assoc]⟩
  · rcases suffix_append_cases hsuffix with ht | ⟨v, rfl, hv⟩
    · exact ht.trans (List.suffix_append ..)
    · obtain ⟨x, rfl⟩ := (h v fun c hc => hu c (List.mem_append_left _ hc)).2.mp hv
      exact ⟨x, by rw [List.append_assoc]⟩
  · rcases suffix_append_cases hsuffix with ht | ⟨v, rfl, hv⟩
    · exact ht.trans (List.suffix_append ..)
    · obtain ⟨x, rfl⟩ := (h v fun c hc => hu c (List.mem_append_left _ hc)).2.mpr hv
      exact ⟨x, by rw [List.append_assoc]⟩

theorem eq_nil_of_infix_blank {u : Text} {c : Char} (hu : ∀ d ∈ u, Text.isBlank d = false)
    (hc : Text.isBlank c = true) (h : u <:+: [c]) : u = [] := by
  cases u with
  | nil => rfl
  | cons d v =>
    have hd := hu d (List.mem_cons_self ..)
    rw [List.mem_singleton.mp (h.subset (List.mem_cons_self ..)), hc] at hd
    exact absurd hd (by simp)

theorem eq_nil_of_suffix_blank {u t : Text} {c : Char} (hu : ∀ d ∈ u, Text.isBlank d = false)
    (hc : Text.isBlank c = true) (h : u <:+ t ++ [c]) : u = [] := by
  rcases suffix_append_cases h with hc' | ⟨v, rfl, -⟩
  · exact eq_nil_of_infix_blank hu hc hc'.isInfix
  · rw [hu c (List.mem_append_right _ (List.mem_singleton_self _))] at hc
    exact absurd hc (by simp)

/-- A blank in one, a space in the other. -/
theorem Respaced.blank (h : Respaced raw out) {c : Char} (hc : Text.isBlank c = true) :
    Respaced (raw ++ [c]) (out ++ [' ']) := by
  intro u hu
  refine ⟨fun hinfix => ?_, fun hsuffix => ?_, fun hsuffix => ?_⟩
  · rcases infix_append_cases hinfix with hout | ht | ⟨v, w, rfl, hne, -, -, hw⟩
    · exact ((h u hu).1 hout).trans ⟨[], [c], rfl⟩
    · rw [eq_nil_of_infix_blank hu (by decide) ht]
      exact List.nil_infix
    · exact absurd (eq_nil_of_infix_blank (fun d hd => hu d (List.mem_append_right _ hd))
        (by decide) hw.isInfix) hne
  · rw [eq_nil_of_suffix_blank hu (by decide) hsuffix]
    exact List.nil_suffix
  · rw [eq_nil_of_suffix_blank hu hc hsuffix]
    exact List.nil_suffix

/-- A blank in one, nothing in the other, where no word goes on. -/
theorem Respaced.dropped (h : Respaced raw out) {c : Char} (hc : Text.isBlank c = true)
    (hout : out = [] ∨ out.getLast? = some ' ') : Respaced (raw ++ [c]) out := by
  intro u hu
  refine ⟨fun hinfix => ((h u hu).1 hinfix).trans ⟨[], [c], rfl⟩, fun hsuffix => ?_,
    fun hsuffix => ?_⟩
  · have hnil : u = [] := by
      by_contra hne
      rcases hout with rfl | hlast
      · exact hne (List.suffix_nil.mp hsuffix)
      · obtain ⟨x, rfl⟩ := hsuffix
        rw [List.getLast?_append_of_ne_nil x hne] at hlast
        exact absurd (hu ' ' (List.mem_of_getLast? hlast)) (by decide)
    rw [hnil]
    exact List.nil_suffix
  · rw [eq_nil_of_suffix_blank hu hc hsuffix]
    exact List.nil_suffix

/-! ### Pieces and chunks -/

/-- The piece is no comma, and all of its brackets and quotes are closed. -/
def Piece.isClean : Piece → Bool
  | verbatim _ => true
  | space => true
  | comma => false
  | pseudoClass _ argument => argument != .unclosed
  | pseudoElement _ argument => argument != .unclosed
  | attributeTest _ => true
  | unbalanced => false
  | unclosedQuote _ => false

/-- A piece that is read is a comma, or it is clean. -/
theorem isClean_of_step {inner : BranchReader} {s : Scope} {p p' : Progress} {q : Piece}
    (h : p.step inner s q = .ok p') : q = .comma ∨ q.isClean = true := by
  cases q with
  | verbatim t => exact Or.inr rfl
  | space => exact Or.inr rfl
  | comma => exact Or.inl rfl
  | pseudoClass name argument =>
    cases argument with
    | absent => exact Or.inr rfl
    | given content => exact Or.inr rfl
    | unclosed =>
      simp only [Progress.step, Draft.addPseudoClass] at h
      split at h
      · exact absurd h (by simp [Except.map])
      · split at h <;> exact absurd h (by simp [Except.map, Draft.writeArgument])
  | pseudoElement name argument =>
    cases argument with
    | absent => exact Or.inr rfl
    | given content => exact Or.inr rfl
    | unclosed => exact absurd h (by
        simp [Progress.step, Draft.addPseudoElement, Except.map, Draft.writeArgument])
  | attributeTest content => exact Or.inr rfl
  | unbalanced => exact absurd h (by simp [Progress.step])
  | unclosedQuote q => exact absurd h (by simp [Progress.step])

theorem isClean_of_isNative {inner : BranchReader} {s : Scope} {q : Piece}
    (h : q.IsNative inner s) : q.isClean = true := by
  refine (isClean_of_step (h .start)).resolve_left ?_
  rintro rfl
  exact absurd (h .start) (by simp [Progress.step, Progress.endBranch, Draft.cutAtEnd,
    Progress.start, Draft.empty, Except.map, Text.trimEnd])

/-- Commas and clean pieces leave no group open. -/
theorem isClosed_of_piecesFrom {h : Held} {ks : List Chunk}
    (hpieces : ∀ q ∈ piecesFrom h ks, q = .comma ∨ q.isClean = true) :
    ∀ k ∈ ks, k.isClosed = true := by
  induction ks generalizing h with
  | nil => exact fun k hk => absurd hk List.not_mem_nil
  | cons k r ih =>
    intro k' hk'
    rcases List.mem_cons.mp hk' with rfl | hk'
    · cases k' with
      | mark c => rfl
      | word w => rfl
      | group g content closed =>
        cases closed with
        | true => rfl
        | false =>
          have hfeed : ∀ q ∈ (h.feed (.group g content false)).1, q = .comma ∨ q.isClean = true :=
            fun q hq => hpieces q (List.mem_append_left _ hq)
          rcases h.feed_cases (.group g content false) with heq | ⟨-, hk, -⟩ | ⟨_, -, hk, -⟩ |
            ⟨_, -, hk, -⟩ | ⟨_, _, _, -, hk, heq⟩ | ⟨_, _, _, -, hk, heq⟩
          · rw [heq] at hfeed
            have hunclosed := hfeed _ (List.mem_append_right _ (List.mem_singleton_self _))
            cases g <;> exact absurd hunclosed (by simp [Piece.ofGroup, Piece.isClean])
          · exact absurd hk (by simp)
          · exact absurd hk (by simp)
          · exact absurd hk (by simp)
          · obtain ⟨rfl, rfl, rfl⟩ := Chunk.group.inj hk
            rw [heq] at hfeed
            exact absurd (hfeed _ (List.mem_singleton_self _)) (by
              simp [Argument.ofGroup, Piece.isClean])
          · obtain ⟨rfl, rfl, rfl⟩ := Chunk.group.inj hk
            rw [heq] at hfeed
            exact absurd (hfeed _ (List.mem_singleton_self _)) (by
              simp [Argument.ofGroup, Piece.isClean])
    · exact ih (fun q hq => hpieces q (List.mem_append_right _ hq)) k' hk'

theorem isClosed_of_isClean {h : Held} {ks : List Chunk}
    (hclean : ∀ q ∈ piecesFrom h ks, q.isClean = true) : ∀ k ∈ ks, k.isClosed = true :=
  isClosed_of_piecesFrom fun q hq => Or.inr (hclean q hq)

/-- The text that is held back. -/
def Held.text : Held → Text
  | nothing => []
  | colon => [':']
  | colons => [':', ':']
  | pseudoClass name => ':' :: name
  | pseudoElement name => ':' :: ':' :: name

/-- The text of a chunk, a space for a blank. -/
def Chunk.spaced : Chunk → Text
  | mark c => if Text.isBlank c then [' '] else [c]
  | word w => w
  | group g content closed => (group g content closed).text

theorem flatMap_text_release (h : Held) : h.release.flatMap Piece.text = h.text := by
  cases h <;> simp [Held.release, Held.text, Piece.text, Argument.text]

theorem text_restart {k : Chunk} (h : ∀ q ∈ (Held.restart k).1, q.isClean = true) :
    (Held.restart k).1.flatMap Piece.text ++ (Held.restart k).2.text = k.spaced := by
  cases k with
  | mark c =>
    unfold Held.restart at h ⊢
    simp only at h ⊢
    by_cases hcolon : c = ':'
    · subst hcolon
      rfl
    · rw [if_neg hcolon] at h ⊢
      have hclean := h _ (List.mem_singleton_self _)
      unfold Piece.ofMark at hclean ⊢
      by_cases hcomma : c = ','
      · rw [if_pos hcomma] at hclean
        exact absurd hclean (by decide)
      rw [if_neg hcomma] at hclean ⊢
      by_cases hclose : c = ')' ∨ c = ']'
      · rw [if_pos hclose] at hclean
        exact absurd hclean (by decide)
      rw [if_neg hclose] at hclean ⊢
      by_cases hblank : Text.isBlank c = true
      · rw [if_pos hblank, Chunk.spaced, if_pos hblank]
        rfl
      · rw [if_neg hblank, Chunk.spaced, if_neg hblank]
        rfl
  | word w =>
    simp [Held.restart, Piece.text, Held.text, Chunk.spaced]
  | group g content closed =>
    have hclean := h _ (List.mem_singleton_self _)
    cases closed with
    | false => cases g <;> exact absurd hclean (by simp [Piece.ofGroup, Piece.isClean])
    | true =>
      cases g <;> simp [Held.restart, Piece.ofGroup, Piece.text, Held.text, Chunk.spaced,
        Chunk.text, Group.opening, Group.closing]

/-- A chunk adds its text to what is complete and what is held back. -/
theorem text_feed {h : Held} {k : Chunk} (hclean : ∀ q ∈ (h.feed k).1, q.isClean = true) :
    (h.feed k).1.flatMap Piece.text ++ (h.feed k).2.text = h.text ++ k.spaced := by
  rcases h.feed_cases k with heq | ⟨rfl, rfl, heq⟩ | ⟨name, rfl, rfl, heq⟩ | ⟨name, rfl, rfl, heq⟩ |
    ⟨name, content, closed, rfl, rfl, heq⟩ | ⟨name, content, closed, rfl, rfl, heq⟩
  · rw [heq] at hclean ⊢
    rw [List.flatMap_append, flatMap_text_release, List.append_assoc,
      text_restart fun q hq => hclean q (List.mem_append_right _ hq)]
  · rw [heq]
    decide
  · rw [heq]
    rfl
  · rw [heq]
    rfl
  · rw [heq] at hclean ⊢
    cases closed with
    | false => exact absurd (hclean _ (List.mem_singleton_self _)) Bool.false_ne_true
    | true => simp [Piece.text, Argument.ofGroup, Argument.text, Held.text, Chunk.spaced,
        Chunk.text, Group.opening, Group.closing]
  · rw [heq] at hclean ⊢
    cases closed with
    | false => exact absurd (hclean _ (List.mem_singleton_self _)) Bool.false_ne_true
    | true => simp [Piece.text, Argument.ofGroup, Argument.text, Held.text, Chunk.spaced,
        Chunk.text, Group.opening, Group.closing]

/-- Pieces have the text of their chunks. -/
theorem flatMap_text_piecesFrom {h : Held} {ks : List Chunk}
    (hclean : ∀ q ∈ piecesFrom h ks, q.isClean = true) :
    (piecesFrom h ks).flatMap Piece.text = h.text ++ ks.flatMap Chunk.spaced := by
  induction ks generalizing h with
  | nil =>
    rw [List.flatMap_nil, List.append_nil]
    exact flatMap_text_release h
  | cons k r ih =>
    rw [piecesFrom] at hclean ⊢
    rw [List.flatMap_append, ih fun q hq => hclean q (List.mem_append_right _ hq),
      ← List.append_assoc, text_feed fun q hq => hclean q (List.mem_append_left _ hq),
      List.append_assoc, List.flatMap_cons]

theorem respaced_spaced (ks : List Chunk) (h : Respaced raw out) :
    Respaced (raw ++ ks.flatMap Chunk.text) (out ++ ks.flatMap Chunk.spaced) := by
  induction ks generalizing raw out with
  | nil =>
    rw [List.flatMap_nil, List.flatMap_nil, List.append_nil, List.append_nil]
    exact h
  | cons k r ih =>
    rw [List.flatMap_cons, List.flatMap_cons, ← List.append_assoc, ← List.append_assoc]
    refine ih ?_
    cases k with
    | mark c =>
      rw [Chunk.spaced]
      split
      · rename_i hc
        exact h.blank hc
      · exact h.append [c]
    | word w => exact h.append w
    | group g content closed => exact h.append _

theorem respaced_addText (qs : List Piece) {d : Draft} (h : Respaced raw d.pending) :
    Respaced (raw ++ qs.flatMap Piece.text) (qs.foldl Draft.addText d).pending := by
  induction qs generalizing raw d with
  | nil =>
    rw [List.flatMap_nil, List.append_nil]
    exact h
  | cons q r ih =>
    rw [List.flatMap_cons, ← List.append_assoc]
    refine ih ?_
    unfold Draft.addText
    by_cases hq : q = .space
    · subst hq
      rw [if_pos rfl]
      unfold Draft.writeSpace
      split
      · rename_i hdropped
        refine h.dropped (by decide) ?_
        rcases Bool.or_eq_true_iff.mp hdropped with hempty | hlast
        · exact Or.inl (List.isEmpty_iff.mp (Bool.and_eq_true_iff.mp hempty).1)
        · exact Or.inr (beq_iff_eq.mp hlast)
      · exact h.append [' ']
    · rw [if_neg hq]
      exact h.append q.text

/-- The text of the chunks, but for its blanks. -/
theorem flatMap_text_of_native {s : Scope} {t g : Text} (hs : s.mayLead = false)
    (h : readAll s t = .ok [[.fragment g]]) :
    (pieces t).flatMap Piece.text = (chunks (Text.trim t)).flatMap Chunk.spaced := by
  obtain ⟨hnative, -, -, -, -⟩ := native_of_readAll hs h
  have hpieces : pieces t = piecesFrom .nothing (chunks (Text.trim t)) := piecesOf_eq _
  rw [hpieces]
  refine flatMap_text_piecesFrom ?_
  rw [← hpieces]
  exact fun q hq => isClean_of_isNative (hnative q hq)

/-- A fragment is the text of the selector, but for its blanks. -/
theorem respaced_of_native {s : Scope} {t g : Text} (hs : s.mayLead = false)
    (h : readAll s t = .ok [[.fragment g]]) :
    Respaced (Text.trim t) ((pieces t).foldl Draft.addText .empty).pending := by
  have hspaced := respaced_spaced (chunks (Text.trim t)) Respaced.nil
  have hadded := respaced_addText (pieces t) (d := .empty) Respaced.nil
  rw [flatMap_text_of_native hs h] at hadded
  rw [flatMap_text_chunks] at hspaced
  exact hspaced.trans hadded

theorem withoutBlanks_spaced (ks : List Chunk) :
    Text.withoutBlanks (ks.flatMap Chunk.spaced) = Text.withoutBlanks (ks.flatMap Chunk.text) := by
  induction ks with
  | nil => rfl
  | cons k r ih =>
    rw [List.flatMap_cons, List.flatMap_cons, Text.withoutBlanks_append, Text.withoutBlanks_append,
      ih]
    refine congrArg (· ++ _) ?_
    cases k with
    | mark c =>
      rw [Chunk.spaced]
      split
      · rename_i hc
        have hspace : Text.withoutBlanks [' '] = [] := by decide
        rw [hspace]
        refine (Text.withoutBlanks_eq_nil fun d hd => ?_).symm
        rw [List.mem_singleton.mp hd]
        exact hc
      · rfl
    | word w => rfl
    | group g content closed => rfl

theorem withoutBlanks_addText (qs : List Piece) (d : Draft) :
    Text.withoutBlanks (qs.foldl Draft.addText d).pending =
      Text.withoutBlanks (d.pending ++ qs.flatMap Piece.text) := by
  induction qs generalizing d with
  | nil => rw [List.foldl_nil, List.flatMap_nil, List.append_nil]
  | cons q r ih =>
    have hadd : Text.withoutBlanks (d.addText q).pending =
        Text.withoutBlanks (d.pending ++ q.text) := by
      unfold Draft.addText
      by_cases hq : q = .space
      · subst hq
        have hspace : Text.withoutBlanks Piece.space.text = [] := by decide
        rw [if_pos rfl, Text.withoutBlanks_append, hspace, List.append_nil]
        unfold Draft.writeSpace
        split
        · rfl
        · show Text.withoutBlanks (d.pending ++ Piece.space.text) = _
          rw [Text.withoutBlanks_append, hspace, List.append_nil]
      · rw [if_neg hq]
        rfl
    rw [List.foldl_cons, ih, List.flatMap_cons, Text.withoutBlanks_append, hadd,
      ← Text.withoutBlanks_append, List.append_assoc]

/-- What stands together in a fragment without a blank, does so in the text of the selector. -/
theorem infix_of_native {s : Scope} {t u g : Text} (hs : s.mayLead = false)
    (h : readAll s t = .ok [[.fragment g]]) (hu : ∀ c ∈ u, Text.isBlank c = false)
    (hg : u <:+: g) : u <:+: t := by
  obtain ⟨-, rfl, -, -, -⟩ := native_of_readAll hs h
  obtain ⟨x, -, hx⟩ := Text.exists_append_trimEnd ((pieces t).foldl Draft.addText .empty).pending
  have hpending : u <:+: ((pieces t).foldl Draft.addText .empty).pending := by
    rw [hx]
    exact hg.trans ⟨[], x, rfl⟩
  exact ((respaced_of_native hs h u hu).1 hpending).trans (Text.infix_trim t)

/-- The text of a selector is trimmed, so its fragment is all that has been pending. -/
theorem pending_of_native {s : Scope} {t g : Text} (hs : s.mayLead = false)
    (h : readAll s t = .ok [[.fragment g]]) :
    ((pieces t).foldl Draft.addText .empty).pending = g ∧
      ∀ c ∈ g.getLast?, Text.isBlank c = false := by
  obtain ⟨-, hg, hne, -, -⟩ := native_of_readAll hs h
  have hrespaced := respaced_of_native hs h
  have hlast : ∀ c ∈ ((pieces t).foldl Draft.addText .empty).pending.getLast?,
      Text.isBlank c = false := by
    intro c hc
    by_cases hnil : Text.trim t = []
    · rw [pieces, hnil, chunks_nil] at hg
      exact absurd (hg.trans (by rw [piecesOf_eq]; rfl)) hne
    · have hd := Text.not_blank_of_getLast?_trim (List.getLast?_eq_some_getLast hnil)
      have hsuffix : [(Text.trim t).getLast hnil] <:+ Text.trim t :=
        ⟨(Text.trim t).dropLast, List.dropLast_concat_getLast hnil⟩
      obtain ⟨x, hx⟩ := (hrespaced _ fun e he => by rw [List.mem_singleton.mp he, hd]).2.mpr hsuffix
      rw [← hx, List.getLast?_append_of_ne_nil x (List.cons_ne_nil _ _)] at hc
      rw [← Option.some_inj.mp hc]
      exact hd
  rw [hg, Text.trimEnd_eq_self hlast]
  exact ⟨rfl, hlast⟩

/-- A fragment has all characters of the selector that are no blanks. -/
theorem withoutBlanks_of_native {s : Scope} {t g : Text} (hs : s.mayLead = false)
    (h : readAll s t = .ok [[.fragment g]]) : Text.withoutBlanks g = Text.withoutBlanks t := by
  obtain ⟨hpending, -⟩ := pending_of_native hs h
  have hadded := withoutBlanks_addText (pieces t) .empty
  rw [hpending, flatMap_text_of_native hs h] at hadded
  rw [hadded]
  show Text.withoutBlanks ((chunks (Text.trim t)).flatMap Chunk.spaced) = _
  rw [withoutBlanks_spaced, flatMap_text_chunks, Text.withoutBlanks_trim]

end Extended
end CosmeticFilter
