import CosmeticFilter.Proofs.Extended.NativePieces

/-!
# Where the readers of a text agree

Two readers go through the text of a fragment: the reader of extended selectors cuts it into chunks,
and the reader of native selectors reads conditions and combinators. They have different opinions on
quotes in round brackets, for the first one opens a string only where a value may start, and the
second one opens it anywhere. As long as both end every argument at the same bracket, the reader of
native selectors comes to places only that are outside all groups of the text, so what is a mark
behind such a place is a mark of the text.

* `endsAlike`: both readers end the groups in round brackets of a text at the same brackets;
* `mem_chunks_append`: chunks behind a place outside groups are chunks of the text;
* `IsPlace`: such a place, and what is left to read from there;
* `IsPlace.readConditions`, `IsPlace.readChain`: native reading leads from place to place;
* `mark_mem_chunks`: what stands behind a selector stands outside the groups of the text;
* `endsAlike_of_no_quotes`: without quotes there is nothing to disagree on.
-/

namespace CosmeticFilter
namespace Extended

variable {f v p r t u : Text} {c : Char}

/-! ### Groups that end alike -/

/-- If the group is in round brackets, the bracket behind its content ends it for the reader of
native selectors. -/
def Chunk.endsAlike : Chunk → Bool
  | group .parens content _ => Css.takeArgument? .top (content ++ [')']) == some (content, [])
  | _ => true

/-- Both readers end the groups in round brackets at the same brackets. -/
def endsAlike (t : Text) : Bool := (chunks t).all Chunk.endsAlike

/-! ### Places outside groups -/

theorem mem_chunks_takeWord_snd {k : Chunk} (hk : k ∈ chunks t) (hword : k.isWord = false) :
    k ∈ chunks (takeWord t).2 := by
  cases t with
  | nil => exact hk
  | cons c r =>
    cases hmark : isMark c with
    | true => rwa [takeWord_of_mark hmark]
    | false =>
      rw [chunks_of_word hmark] at hk
      rcases List.mem_cons.mp hk with rfl | hk
      · exact absurd hword (by simp [Chunk.isWord])
      · exact hk

/-- Behind a text that ends outside groups, the same chunks are found, but for a word that goes on
there. -/
theorem mem_chunks_append (hclosed : ∀ k ∈ chunks p, k.isClosed = true)
    (hescape : endsInEscape p = false) {k : Chunk} (hk : k ∈ chunks u)
    (hword : k.isWord = false) : k ∈ chunks (p ++ u) := by
  induction p using chunks_induction with
  | nil => exact hk
  | word c r hmark ih =>
    rw [chunks_of_word hmark] at hclosed
    rw [List.cons_append, chunks_of_word hmark, ← List.cons_append]
    refine List.mem_cons_of_mem _ ?_
    by_cases hrest : (takeWord (c :: r)).2 = []
    · rw [takeWord_append_of_word hrest hescape]
      exact mem_chunks_takeWord_snd hk hword
    · rw [takeWord_append_of_seam fun hnil => absurd hnil hrest]
      exact ih (fun k hk => hclosed k (List.mem_cons_of_mem _ hk))
        (endsInEscape_takeWord_snd hescape)
  | mark c r hmark hopen ih =>
    rw [chunks_of_mark hmark hopen] at hclosed
    rw [endsInEscape_cons (ne_backslash_of_isMark hmark)] at hescape
    rw [List.cons_append, chunks_of_mark hmark hopen]
    exact List.mem_cons_of_mem _ (ih (fun k hk => hclosed k (List.mem_cons_of_mem _ hk)) hescape)
  | group c r g hopen ih =>
    rw [chunks_of_group hopen] at hclosed
    have hrest : (groupContent g ⟨0, none, c⟩ r).2 ≠ [] := by
      simpa [Chunk.isClosed] using hclosed _ List.mem_cons_self
    obtain ⟨d, y, hd⟩ := List.exists_cons_of_ne_nil hrest
    rw [hd, List.tail_cons] at ih hclosed
    rw [List.cons_append, chunks_of_group hopen, groupContent_append_of_closed hrest, hd]
    exact List.mem_cons_of_mem _ (ih (fun k hk => hclosed k (List.mem_cons_of_mem _ hk))
      (endsInEscape_group hopen hd hescape))

theorem isClosed_of_isUnmarked (h : isUnmarked p = true) : ∀ k ∈ chunks p, k.isClosed = true := by
  intro k hk
  have hk := List.all_eq_true.mp h k hk
  cases k with
  | group g content closed => exact absurd hk Bool.false_ne_true
  | _ => rfl

theorem isWord_of_isUnmarked {k : Chunk} (h : k.isUnmarked = false) : k.isWord = false :=
  (Bool.or_eq_false_iff.mp h).1

theorem isUnmarked_of_blanks (h : ∀ c ∈ p, Text.isBlank c = true) : isUnmarked p = true := by
  induction p with
  | nil => exact isUnmarked_nil
  | cons c p ih =>
    obtain ⟨hc, hp⟩ := List.forall_mem_cons.mp h
    rw [isUnmarked_blank hc, ih hp]

theorem endsInEscape_of_blanks (h : ∀ c ∈ p, Text.isBlank c = true) : endsInEscape p = false :=
  Css.endsInEscape_of_plain fun c hc => ne_backslash_of_isMark (isMark_of_blank (h c hc))

/-- A blank at the end makes no mark, even if a backslash takes it. -/
theorem isUnmarked_concat (hc : Text.isBlank c = true) (h : isUnmarked p = true) :
    isUnmarked (p ++ [c]) = true := by
  induction p using escape_induction with
  | nil => exact isUnmarked_of_blanks fun d hd => by rwa [List.mem_singleton.mp hd]
  | lone => exact (isUnmarked_escape c []).trans isUnmarked_nil
  | escape e r ih =>
    rw [isUnmarked_escape] at h
    exact (isUnmarked_escape e _).trans (ih h)
  | plain d r hd ih =>
    cases hmark : isMark d with
    | false =>
      rw [isUnmarked_cons hmark hd] at h
      exact (isUnmarked_cons hmark hd _).trans (ih h)
    | true =>
      have hblank : Text.isBlank d = true := by
        by_contra hnot
        rw [Bool.not_eq_true] at hnot
        cases hopen : Group.ofMark? d with
        | none =>
          rw [isUnmarked, chunks_of_mark hmark hopen, List.all_cons, Bool.and_eq_true] at h
          exact hnot ▸ h.1 |> Bool.false_ne_true
        | some g =>
          rw [isUnmarked, chunks_of_group hopen, List.all_cons, Bool.and_eq_true] at h
          exact Bool.false_ne_true h.1
      rw [isUnmarked_blank hblank] at h
      exact (isUnmarked_blank hblank _).trans (ih h)

/-- A place in the text `f` outside its groups: up to `v`, the text `r` is left to read. A backslash
at its end would take a blank from `v`. -/
structure IsPlace (f v r : Text) : Prop where
  /-- No mark is taken by a backslash. -/
  escape : endsInEscape r = true → v.head?.any Text.isBlank = true
  /-- Marks, apart from blanks, and groups behind the place are those of the text. -/
  chunk : ∀ k ∈ chunks (r ++ v), k.isUnmarked = false → k ∈ chunks f

namespace IsPlace

/-- Behind a part that ends outside groups there is a place again. -/
theorem behind (h : IsPlace f v (p ++ r)) (hclosed : ∀ k ∈ chunks p, k.isClosed = true)
    (hescape : endsInEscape p = false) : IsPlace f v r where
  escape hr := h.escape ((endsInEscape_append hescape r).trans hr)
  chunk k hk hunmarked := by
    refine h.chunk k ?_ hunmarked
    rw [List.append_assoc]
    exact mem_chunks_append hclosed hescape hk (isWord_of_isUnmarked hunmarked)

/-- So there is at the end of a name, though a backslash there may have taken a blank. -/
theorem atEnd (h : IsPlace f v p) (hp : isUnmarked p = true) : IsPlace f v [] := by
  cases hescape : endsInEscape p with
  | false =>
    rw [← List.append_nil p] at h
    exact h.behind (isClosed_of_isUnmarked hp) hescape
  | true =>
    have hblank := h.escape hescape
    cases v with
    | nil => exact absurd hblank (by simp)
    | cons e w =>
      have he : Text.isBlank e = true := hblank
      refine ⟨fun hnil => absurd hnil Bool.false_ne_true,
        fun k hk hunmarked => h.chunk k ?_ hunmarked⟩
      rw [List.nil_append, chunks_of_mark (isMark_of_blank he) (ofMark?_of_blank he)] at hk
      rw [List.append_cons]
      refine mem_chunks_append (isClosed_of_isUnmarked (isUnmarked_concat he hp))
        (endsInEscape_concat (ne_backslash_of_isMark (isMark_of_blank he)) p) ?_
        (isWord_of_isUnmarked hunmarked)
      refine (List.mem_cons.mp hk).resolve_left fun heq => ?_
      rw [heq, Chunk.isUnmarked, Chunk.isBlank, he, Bool.or_true] at hunmarked
      exact absurd hunmarked (by simp)

/-- Behind a character that opens no group. -/
theorem cons (h : IsPlace f v (c :: r)) (hc : c ≠ '\\') (hopen : Group.ofMark? c = none) :
    IsPlace f v r := by
  refine behind (p := [c]) h (fun k hk => ?_) ((endsInEscape_cons hc []).trans rfl)
  cases hmark : isMark c with
  | true =>
    rw [chunks_of_mark hmark hopen, chunks_nil] at hk
    rw [List.mem_singleton.mp hk, Chunk.isClosed]
  | false =>
    have hword : takeWord [c] = ([c], []) := takeWord_of_not_mark hmark hc []
    rw [chunks_of_word hmark, hword, chunks_nil] at hk
    rw [List.mem_singleton.mp hk, Chunk.isClosed]

/-- Behind a group. -/
theorem group {g : Group} {content : Text} (hopen : Group.ofMark? c = some g)
    (hgroup : groupContent g ⟨0, none, c⟩ (content ++ [g.closing]) = (content, [g.closing]))
    (h : IsPlace f v (c :: (content ++ g.closing :: r))) : IsPlace f v r := by
  refine behind (p := c :: content ++ [g.closing]) (by simpa using h) (fun k hk => ?_)
    (endsInEscape_concat (Group.closing_ne_backslash hopen) _)
  rw [List.cons_append, chunks_closed_group hopen hgroup, chunks_nil] at hk
  rw [List.mem_singleton.mp hk, Chunk.isClosed]

theorem trimStart (h : IsPlace f v t) : IsPlace f v (Text.trimStart t) := by
  induction t with
  | nil => exact h
  | cons c r ih =>
    cases hc : Text.isBlank c with
    | false => rwa [Text.trimStart_cons_of_not_blank hc]
    | true =>
      rw [Text.trimStart_cons_of_blank hc]
      exact ih (h.cons (ne_backslash_of_isMark (isMark_of_blank hc)) (ofMark?_of_blank hc))

/-! ### Native reading -/

theorem takeIdent (h : IsPlace f v t) : IsPlace f v (Css.takeIdent t).2 := by
  obtain ⟨p, hp, hunmarked, hescape⟩ := isUnmarked_takeIdent t
  by_cases hrest : (Css.takeIdent t).2 = []
  · rw [hrest, List.append_nil] at hp
    rw [hrest]
    exact (hp ▸ h).atEnd hunmarked
  · exact (hp ▸ h : IsPlace f v (p ++ _)).behind (isClosed_of_isUnmarked hunmarked) (hescape hrest)

theorem readIdent {kind : Css.NameKind} {name : Text} (h : IsPlace f v t)
    (hread : Css.readIdent kind t = .ok (name, u)) : IsPlace f v u := by
  have hplace := h.takeIdent
  rwa [(Css.readIdent_eq_ok.mp hread).1] at hplace

theorem readAttribute {x : Css.AttributeTest} (h : IsPlace f v ('[' :: t))
    (hread : Css.readAttribute t = .ok (x, u)) : IsPlace f v u := by
  obtain ⟨content, rfl, hgroup⟩ := Css.exists_group_of_readAttribute hread
  exact group (g := .square) rfl (hgroup []).1 h

end IsPlace

theorem eq_append_of_takeArgument? {s : Nesting} {a : Text}
    (h : Css.takeArgument? s t = some (a, u)) : t = a ++ ')' :: u := by
  induction t generalizing s a with
  | nil => exact absurd h (by simp [Css.takeArgument?])
  | cons c r ih =>
    rw [Css.takeArgument?] at h
    split at h
    · rename_i hclose
      obtain ⟨rfl, rfl⟩ := Prod.mk.inj (Option.some_inj.mp h)
      rw [hclose.2]
      rfl
    · obtain ⟨⟨a', u'⟩, htail, heq⟩ := Option.map_eq_some_iff.mp h
      obtain ⟨rfl, rfl⟩ := Prod.mk.inj heq
      rw [ih htail]
      rfl

/-- Where both readers end a group alike, an argument is the content of the group. -/
theorem groupContent_of_takeArgument? {a : Text} {k : Chunk}
    (hk : (chunks ('(' :: t)).head? = some k) (halike : k.endsAlike = true)
    (h : Css.takeArgument? .top t = some (a, u)) :
    groupContent .parens ⟨0, none, '('⟩ (a ++ [')']) = (a, [')']) := by
  obtain rfl := eq_append_of_takeArgument? h
  have happend := groupContent_append .parens ⟨0, none, '('⟩ (a ++ ')' :: u)
  have hclosing := head?_groupContent_snd .parens ⟨0, none, '('⟩ (a ++ ')' :: u)
  rw [chunks_of_group (g := .parens) rfl, List.head?_cons, Option.some_inj] at hk
  rw [← hk, Chunk.endsAlike, beq_iff_eq] at halike
  rcases hinside : groupContent .parens ⟨0, none, '('⟩ (a ++ ')' :: u) with ⟨content, rest⟩
  rw [hinside] at happend hclosing halike
  simp only at happend hclosing halike
  cases rest with
  | nil =>
    -- the bracket of the argument stands in the content, so it is not the one behind the content
    rw [List.append_nil] at happend
    rw [happend, List.append_assoc, List.cons_append,
      Css.takeArgument?_append h (u ++ [')']), Option.some_inj, Prod.mk.injEq] at halike
    exact absurd halike.2 (List.append_ne_nil_of_right_ne_nil _ (List.cons_ne_nil _ _))
  | cons d y =>
    obtain rfl : d = ')' := hclosing d rfl
    have hcontent := Css.takeArgument?_append halike y
    rw [happend, h] at hcontent
    obtain ⟨rfl, -⟩ := Prod.mk.inj (Option.some_inj.mp hcontent)
    exact groupContent_eq_of_closed hinside []

namespace IsPlace

theorem readArgument {a : Option Text} (hf : endsAlike f = true) (h : IsPlace f v t)
    (hread : Css.readArgument t = .ok (a, u)) : IsPlace f v u := by
  cases t with
  | nil =>
    obtain ⟨-, rfl⟩ := Prod.mk.inj (Except.ok.inj hread)
    exact h
  | cons c r =>
    by_cases hc : c = '('
    · subst hc
      rw [Css.readArgument, if_pos rfl] at hread
      cases hargument : Css.takeArgument? .top r with
      | none => rw [hargument] at hread; exact absurd hread (by simp)
      | some taken =>
        obtain ⟨content, rest⟩ := taken
        rw [hargument] at hread
        obtain ⟨-, rfl⟩ := Prod.mk.inj (Except.ok.inj hread)
        obtain rfl := eq_append_of_takeArgument? hargument
        have hlonger := Css.takeArgument?_append hargument (rest ++ v)
        have hhead : ∃ k, (chunks ('(' :: (content ++ ')' :: (rest ++ v)))).head? = some k ∧
            k ∈ chunks f := by
          have hchunk := h.chunk
          rw [List.cons_append, List.append_assoc, List.cons_append,
            chunks_of_group (g := .parens) rfl] at hchunk
          rw [chunks_of_group (g := .parens) rfl]
          exact ⟨_, rfl, hchunk _ List.mem_cons_self rfl⟩
        obtain ⟨k, hk, hmem⟩ := hhead
        exact group (g := .parens) rfl
          (groupContent_of_takeArgument? hk (List.all_eq_true.mp hf k hmem) hlonger) h
    · rw [Css.readArgument_cons hc] at hread
      obtain ⟨-, rfl⟩ := Prod.mk.inj (Except.ok.inj hread)
      exact h

theorem readNamed {isElement : Bool} {x : Css.Simple} (hf : endsAlike f = true)
    (h : IsPlace f v t) (hread : Css.readNamed isElement t = .ok (x, u)) : IsPlace f v u := by
  obtain ⟨name, mid, a, hname, hargument, -⟩ := Css.readNamed_eq_ok.mp hread
  exact readArgument hf (h.readIdent hname) hargument

theorem readPseudo {x : Css.Simple} (hf : endsAlike f = true) (h : IsPlace f v t)
    (hread : Css.readPseudo t = .ok (x, u)) : IsPlace f v u := by
  rw [Css.readPseudo_eq] at hread
  split at hread
  · rename_i hcolon
    obtain ⟨r, rfl⟩ := List.head?_eq_some_iff.mp hcolon
    exact readNamed hf (h.cons (by decide) (by decide)) hread
  · exact readNamed hf h hread

theorem readSimple {isFirst : Bool} {x : Css.Simple} (hf : endsAlike f = true)
    (h : IsPlace f v t) (hread : Css.readSimple isFirst t = .ok (some (x, u))) :
    IsPlace f v u := by
  cases Css.readsSimple_of_readSimple hread with
  | universal => exact h.cons (by decide) (by decide)
  | hasClass hname => exact (h.cons (by decide) (by decide)).readIdent hname
  | hasId hname => exact (h.cons (by decide) (by decide)).readIdent hname
  | test hattribute => exact h.readAttribute hattribute
  | pseudo hpseudo => exact readPseudo hf (h.cons (by decide) (by decide)) hpseudo
  | tag _ hname => exact h.readIdent hname

theorem readConditions {isFirst : Bool} {x : Css.Compound} (hf : endsAlike f = true)
    (h : IsPlace f v t) (hread : Css.readConditions isFirst t = .ok (x, u)) : IsPlace f v u := by
  have hconditions := Css.readsConditions_of_readConditions hread
  clear hread
  induction hconditions with
  | done => exact h
  | more hsimple _ ih => exact ih (readSimple hf h hsimple)

theorem readCombinator {k : Css.Combinator} (h : IsPlace f v t)
    (hread : Css.readCombinator t = .ok (some (k, u))) : IsPlace f v u := by
  have hstart := h.trimStart
  obtain ⟨c, r, heq, ⟨hchar, rfl, -⟩ | ⟨-, -, rfl, -⟩⟩ := Css.readCombinator_eq_some hread
  · rw [heq] at hstart
    obtain ⟨hc, -, hopen⟩ := Css.plain_of_ofChar? hchar
    exact (hstart.cons hc hopen).trimStart
  · rwa [heq] at hstart

/-- A selector that is read to its end ends at a place outside groups. -/
theorem readChain {left : List (Css.Combinator × Css.Compound)} {x : Css.Complex}
    (hf : endsAlike f = true) (h : IsPlace f v t) (hread : Css.readChain left t = .ok x) :
    IsPlace f v [] := by
  have hchain := Css.readsChain_of_readChain hread
  clear hread
  induction hchain with
  | last hcompound hend =>
    have hrest := (readConditions hf h (Css.readCompound_eq_ok.mp hcompound).1).trimStart
    rwa [hend] at hrest
  | more hcompound hcombinator _ ih =>
    exact ih ((readConditions hf h (Css.readCompound_eq_ok.mp hcompound).1).readCombinator
      hcombinator)

/-- The same from the start of a selector. -/
theorem complex {x : Css.Complex} (hf : endsAlike f = true) (h : IsPlace f v (Text.trim t))
    (hread : Css.Complex.ofText t = .ok x) : IsPlace f v [] := by
  unfold Css.Complex.ofText at hread
  split at hread
  · exact absurd hread (by simp)
  · rename_i c r htrim
    rw [htrim] at h
    split at hread
    · rename_i k hchar
      obtain ⟨hc, -, hopen⟩ := Css.plain_of_ofChar? hchar
      exact readChain hf (h.cons hc hopen).trimStart hread
    · exact readChain hf h hread

end IsPlace

/-- A mark behind a selector stands outside the groups of the text, if both readers end those in
front of it alike. -/
theorem mark_mem_chunks {x : Css.Complex} (hmark : isMark c = true)
    (hopen : Group.ofMark? c = none) (hblank : Text.isBlank c = false)
    (hf : endsAlike (t ++ c :: u) = true) (hescape : endsInEscape t = false)
    (hread : Css.Complex.ofText t = .ok x) : .mark c ∈ chunks (t ++ c :: u) := by
  obtain ⟨a, b, ha, hb, heq⟩ := Text.exists_append_trim_append t
  have hwhole : t ++ c :: u = (a ++ Text.trim t) ++ (b ++ c :: u) := by
    conv_lhs => rw [heq]
    simp only [List.append_assoc]
  have hstart : IsPlace (t ++ c :: u) (b ++ c :: u) (a ++ Text.trim t) := by
    refine ⟨fun hends => ?_, fun k hk _ => by rwa [hwhole]⟩
    cases b with
    | nil =>
      rw [heq, List.append_nil, hends] at hescape
      exact absurd hescape (by simp)
    | cons e b => exact hb e List.mem_cons_self
  have hplace := hstart.behind (isClosed_of_isUnmarked (isUnmarked_of_blanks ha))
    (endsInEscape_of_blanks ha)
  refine (IsPlace.complex hf hplace hread).chunk _ ?_ ?_
  · refine mem_chunks_append (isClosed_of_isUnmarked (isUnmarked_of_blanks hb))
      (endsInEscape_of_blanks hb) ?_ rfl
    rw [chunks_of_mark hmark hopen]
    exact List.mem_cons_self
  · rw [Chunk.isUnmarked, Chunk.isBlank, hblank]
    rfl

/-! ### Texts without quotes -/

/-- Without quotes, both readers count brackets. -/
theorem takeArgument?_of_no_quotes {depth : Nat} {previous : Char} {content y : Text}
    (hquotes : ∀ c ∈ t, c ≠ '"' ∧ c ≠ '\'')
    (h : groupContent .parens ⟨depth, none, previous⟩ t = (content, ')' :: y)) :
    Css.takeArgument? ⟨none, depth, false⟩ (content ++ [')']) = some (content, []) := by
  induction t using escape_induction generalizing depth previous content with
  | nil => exact absurd (Prod.mk.inj h).2 (by simp)
  | lone => exact absurd (Prod.mk.inj h).2 (by simp)
  | escape e r ih =>
    rw [groupContent_escape] at h
    obtain ⟨rfl, hrest⟩ := Prod.mk.inj h
    have hr := ih (fun c hc => hquotes c (List.mem_cons_of_mem _ (List.mem_cons_of_mem _ hc)))
      (Prod.ext rfl hrest)
    simp only [Text.onto_fst, List.cons_append, Css.takeArgument?]
    rw [if_neg (by simp), if_neg (by simp [Nesting.step, Nesting.isTop])]
    simp only [Nesting.step, Bool.false_eq_true, if_false, if_true, hr]
    rfl
  | plain c r hc ih =>
    obtain ⟨hquote, hr⟩ := List.forall_mem_cons.mp hquotes
    have hstring : ¬ (c = '"' ∨ c = '\'') := not_or.mpr hquote
    -- a character that does not close the group changes the count in the same way
    have hnext : ∀ depth' : Nat, (c = ')' → depth ≠ 0) →
        Nesting.step .round ⟨none, depth, false⟩ c = ⟨none, depth', false⟩ →
        groupContent .parens ⟨depth, none, previous⟩ (c :: r) =
          Text.onto c (groupContent .parens ⟨depth', none, c⟩ r) →
        Css.takeArgument? ⟨none, depth, false⟩ (content ++ [')']) = some (content, []) := by
      intro depth' hopen hstep hgroup
      rw [hgroup] at h
      obtain ⟨rfl, hrest⟩ := Prod.mk.inj h
      rw [List.cons_append, Css.takeArgument?, hstep, ih hr (Prod.ext rfl hrest), if_neg]
      · rfl
      · rintro ⟨htop, hclose⟩
        exact hopen hclose (by simpa [Nesting.isTop] using htop)
    by_cases hopening : c = '('
    · subst hopening
      exact hnext (depth + 1) (fun hfalse => absurd hfalse (by decide)) rfl rfl
    by_cases hclosing : c = ')'
    · subst hclosing
      cases depth with
      | zero =>
        obtain ⟨rfl, -⟩ := Prod.mk.inj h
        rfl
      | succ depth => exact hnext depth (fun _ => Nat.succ_ne_zero depth) rfl rfl
    · refine hnext depth (fun hfalse => absurd hfalse hclosing) ?_ ?_
      · simp [Nesting.step, hc, hquote, Brackets.opens, Brackets.closes, hopening, hclosing]
      · rw [groupContent_cons hc]
        simp [Inside.step, hquote, hopening, hclosing]

/-- Without quotes there is nothing to disagree on. -/
theorem endsAlike_of_no_quotes (hclosed : ∀ k ∈ chunks t, k.isClosed = true)
    (hquotes : ∀ c ∈ t, c ≠ '"' ∧ c ≠ '\'') : endsAlike t = true := by
  unfold endsAlike
  induction t using chunks_induction with
  | nil => rw [chunks_nil]; rfl
  | word c r hmark ih =>
    rw [chunks_of_word hmark] at hclosed ⊢
    rw [List.all_cons, Bool.and_eq_true]
    refine ⟨rfl, ih (fun k hk => hclosed k (List.mem_cons_of_mem _ hk)) fun d hd => hquotes d ?_⟩
    rw [← takeWord_append (c :: r)]
    exact List.mem_append_right _ hd
  | mark c r hmark hopen ih =>
    rw [chunks_of_mark hmark hopen] at hclosed ⊢
    rw [List.all_cons, Bool.and_eq_true]
    exact ⟨rfl, ih (fun k hk => hclosed k (List.mem_cons_of_mem _ hk))
      fun d hd => hquotes d (List.mem_cons_of_mem _ hd)⟩
  | group c r g hopen ih =>
    have hsplit := groupContent_append g ⟨0, none, c⟩ r
    have hclosing := head?_groupContent_snd g ⟨0, none, c⟩ r
    rw [chunks_of_group hopen] at hclosed ⊢
    rcases hinside : groupContent g ⟨0, none, c⟩ r with ⟨content, rest⟩
    rw [hinside] at ih hsplit hclosing hclosed
    cases rest with
    | nil => exact absurd (hclosed _ List.mem_cons_self) (by simp [Chunk.isClosed])
    | cons d y =>
      have hr : ∀ e ∈ r, e ≠ '"' ∧ e ≠ '\'' := fun e he => hquotes e (List.mem_cons_of_mem _ he)
      rw [List.all_cons, Bool.and_eq_true]
      refine ⟨?_, ih (fun k hk => hclosed k (List.mem_cons_of_mem _ hk)) fun e he => hr e ?_⟩
      · cases g with
        | parens =>
          obtain rfl : d = ')' := hclosing d rfl
          rw [Chunk.endsAlike, beq_iff_eq]
          exact takeArgument?_of_no_quotes hr hinside
        | _ => rfl
      · rw [← hsplit]
        exact List.mem_append_right _ (List.mem_cons_of_mem _ he)

/-- With quotes there may be: only one of the readers opens a string behind a letter. -/
example : endsAlike "x:lang(a 'b')".toList = true ∧
    endsAlike "x:lang(a' 'b),y:lang(c'd')".toList = false := by decide +kernel

end Extended
end CosmeticFilter
