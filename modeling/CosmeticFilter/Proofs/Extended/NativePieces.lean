import CosmeticFilter.Proofs.Css.ReadAlike

/-!
# The pieces of a native selector

The reader of extended selectors cuts a native selector into pieces that only add their text. That
is seen one condition after the other: what the reader of native selectors takes for a name, an
attribute test or an argument is made of whole pieces, and what it leaves unread is cut by itself.

Not every native selector is let through. An argument of a pseudo-element may be refused for what it
holds, and the name of a pseudo-class is compared as it is written, escapes included.

* `Piece.isTransparent`: the piece is neither of these two;
* `Leads`: the pieces of a text are native up to what has been left of it;
* `leads_takeIdent`, `leads_readSimple`, `leads_readChain`: names, conditions and whole selectors;
* `isNative_of_readChain`: the pieces of a native selector are native.
-/

namespace CosmeticFilter
namespace Css

open Extended (Group groupContent groupContent_append head?_groupContent_snd)

/-- The name of an attribute selector is reserved for the extended ones: it starts with `-ext-`. -/
def Simple.isReserved : Simple → Bool
  | .attribute test => Extended.Draft.attributeLead.isPrefixOf test.name
  | _ => false

/-- An attribute selector in one of the compounds has a reserved name. -/
def Complex.isReserved (s : Complex) : Bool := s.compounds.any fun c => c.any Simple.isReserved

variable {c : Char} {t : Text}

theorem not_isMark_of_isIdentChar (hident : isIdentChar c = true)
    (hblank : Text.isBlank c = false) : Extended.isMark c = false := by
  have hne : ∀ d, isIdentChar d = false → c ≠ d := by
    rintro d hd rfl
    rw [hident] at hd
    exact absurd hd (by simp)
  rw [Extended.isMark, hblank, Bool.false_or, List.contains_eq_mem, decide_eq_false_iff_not]
  simp only [List.mem_cons, List.not_mem_nil, or_false, not_or]
  exact ⟨hne _ (by decide), hne _ (by decide), hne _ (by decide), hne _ (by decide),
    hne _ (by decide), hne _ (by decide), hne _ (by decide), hne _ (by decide), hne _ (by decide),
    hne _ (by decide), hne _ (by decide), hne _ (by decide), hne _ (by decide), hne _ (by decide),
    hne _ (by decide), hne _ (by decide)⟩

/-- Behind a compound that has been read, a mark follows. -/
theorem startsWithMark_of_readConditions {x : Compound} {u : Text}
    (h : readConditions false t = .ok (x, u)) : Extended.startsWithMark t = true := by
  cases t with
  | nil => rfl
  | cons c r =>
    rw [Extended.startsWithMark_cons]
    rcases readConditions_eq_ok h with ⟨hend, -, -⟩ | ⟨_, _, _, hsimple, -, -⟩
    · rcases (Bool.or_eq_true _ _).mp (readSimple_cons_eq_none_iff.mp hend).1 with
        hblank | hcombinator
      · rw [Extended.isMark, hblank, Bool.true_or]
      · rcases isCombinator_cases hcombinator with rfl | rfl | rfl <;> decide
    · cases readsSimple_of_readSimple hsimple <;> decide

theorem or_of_ite_eq_some {α : Type} {p : Prop} [Decidable p] {x z : α} {y : Option α}
    (h : (if p then some x else y) = some z) : p ∨ y = some z := by
  split at h
  · exact Or.inl ‹p›
  · exact Or.inr h

theorem mem_of_positional? {name : Text} {make : Nth → PseudoClass}
    (h : positional? name = some make) : name ∈ structuralNames := by
  unfold positional? at h
  iterate 4
    rcases or_of_ite_eq_some h with hname | hrest
    · rw [hname]
      decide
    replace h := hrest
  exact absurd h (by simp)

theorem mem_of_plainPseudoClass? {name : Text} {x : PseudoClass}
    (h : plainPseudoClass? name = some x) : name ∈ structuralNames := by
  unfold plainPseudoClass? at h
  iterate 9
    rcases or_of_ite_eq_some h with hname | hrest
    · rw [hname]
      decide
    replace h := hrest
  rcases or_of_ite_eq_some h with hlink | hrest
  · rcases hlink with hname | hname <;> rw [hname] <;> decide
  replace h := hrest
  iterate 5
    rcases or_of_ite_eq_some h with hname | hrest
    · rw [hname]
      decide
    replace h := hrest
  exact absurd h (by simp)

/-- The names that are read as pseudo-classes are those that the browser knows. -/
theorem isPseudoClass_of_pseudoClassOf {name : Text} {a : Option Text} {x : Simple}
    (h : pseudoClassOf (Text.lower name) a = .ok x) : isPseudoClass name = true := by
  have hstructural : Text.lower name ∈ structuralNames → isPseudoClass name = true := fun hmem => by
    rw [isPseudoClass, List.contains_iff_mem.mpr hmem, Bool.true_or, Bool.true_or]
  unfold pseudoClassOf at h
  split at h
  · rename_i hpositional
    exact hstructural (mem_of_positional? hpositional)
  split at h
  · split at h
    · rename_i hplain
      exact hstructural (mem_of_plainPseudoClass? hplain)
    split at h
    · rename_i hstate
      rw [isPseudoClass, Bool.or_assoc, hstate, Bool.or_true]
    · split at h <;> exact absurd h (by simp)
  · split at h
    · rename_i hlang
      exact hstructural (hlang ▸ by decide)
    split at h
    · rename_i hdir
      rw [isPseudoClass, hdir]
      decide
    · split at h <;> exact absurd h (by simp)

/-- No extended pseudo-class has the name of one that the browser knows. -/
theorem ofText?_eq_none_of_isPseudoClass {name : Text} (h : isPseudoClass name = true) :
    Extended.Name.ofText? name = none := by
  by_contra hne
  obtain ⟨n, hn⟩ := Option.ne_none_iff_exists'.mp hne
  rw [isPseudoClass, Extended.Name.lower_of_ofText? hn] at h
  revert h
  cases n <;> decide

/-! ### Reserved names -/

/-- The name of an attribute selector is read at its first character that is no blank. -/
theorem name_of_readAttribute {x : AttributeTest} {u : Text} (h : readAttribute t = .ok (x, u)) :
    x.name = Text.lower (takeIdent (Text.trimStart t)).1 := by
  rcases readAttribute_eq_ok_iff.mp h with ⟨name, mid, hname, -, rfl⟩ |
    ⟨name, k, value, mid, flag, htest, -, rfl⟩
  · rw [(readIdent_eq_ok.mp hname).1]
  · obtain ⟨⟨name', mid'⟩, hname, htest⟩ := Outcome.bind_eq_ok.mp htest
    obtain ⟨_, -, htest⟩ := Outcome.bind_eq_ok.mp htest
    obtain ⟨_, -, htest⟩ := Outcome.bind_eq_ok.mp htest
    have heq : name' = name := congrArg (fun taken => taken.1.1) (Except.ok.inj htest)
    rw [← heq, (readIdent_eq_ok.mp hname).1]

/-- What is taken for an extended pseudo-class starts with `-ext-`, blanks aside. -/
theorem exists_lead_of_extendedBody? {content body : Text}
    (h : Extended.Draft.extendedBody? content = some body) :
    ∃ a w y, content = a ++ (w ++ y) ∧ (∀ c ∈ a, Text.isBlank c = true) ∧
      Text.lower w = Extended.Draft.attributeLead := by
  unfold Extended.Draft.extendedBody? at h
  simp only at h
  split at h
  · rename_i hsame
    obtain ⟨a, b, ha, -, heq⟩ := Text.exists_append_trim_append content
    refine ⟨a, (Text.trim content).take Extended.Draft.attributeLead.length,
      (Text.trim content).drop Extended.Draft.attributeLead.length ++ b, ?_, ha, ?_⟩
    · conv_lhs => rw [heq, ← List.take_append_drop Extended.Draft.attributeLead.length
        (Text.trim content)]
      simp only [List.append_assoc]
    · rw [Text.sameIgnoringCase, beq_iff_eq] at hsame
      exact hsame.trans (by decide)
  · exact absurd h (by simp)

/-- An attribute selector that the reader of extended selectors takes for an extended one has a
reserved name. -/
theorem extendedBody?_eq_none {content rest u : Text} {x : AttributeTest}
    (h : readAttribute (content ++ rest) = .ok (x, u))
    (hname : Simple.isReserved (.attribute x) = false) :
    Extended.Draft.extendedBody? content = none := by
  by_contra hsome
  obtain ⟨body, hbody⟩ := Option.ne_none_iff_exists'.mp hsome
  obtain ⟨a, w, y, rfl, ha, hlower⟩ := exists_lead_of_extendedBody? hbody
  have hlead : Extended.Draft.attributeLead.all isIdentChar = true ∧
      Extended.Draft.attributeLead.any Text.isBlank = false := by decide
  rw [← hlower] at hlead
  have hident : ∀ c ∈ w, isIdentChar c = true := fun c hc =>
    isIdentChar_of_toLower (List.all_eq_true.mp hlead.1 _ (List.mem_map_of_mem hc))
  have hblank := Text.not_blank_of_lower (Text.not_blank_of_any hlead.2)
  -- the name starts where the content does, blanks aside
  have hstart : Text.trimStart (a ++ (w ++ y) ++ rest) = w ++ (y ++ rest) := by
    rw [List.append_assoc, List.append_assoc,
      Text.trimStart_append_of_blank (Text.trimStart_eq_nil_iff.mpr ha)]
    refine Text.trimStart_eq_self fun c hc => ?_
    cases w with
    | nil => exact absurd hlower (by decide)
    | cons d v => exact hblank c (Option.some_inj.mp hc ▸ List.mem_cons_self ..)
  have hprefix : Extended.Draft.attributeLead.isPrefixOf x.name = true := by
    rw [name_of_readAttribute h, hstart, takeIdent_append hident, Text.lower, List.map_append,
      List.isPrefixOf_iff_prefix, ← hlower]
    exact List.prefix_append _ _
  rw [Simple.isReserved, hprefix] at hname
  exact absurd hname (by simp)

end Css

namespace Extended

variable {inner : BranchReader} {s : Scope} {c : Char} {r t u v : Text}

/-- The argument of a pseudo-element hides no scoped pseudo-class, and the name of a pseudo-class
has no escapes. -/
def Piece.isTransparent : Piece → Bool
  | pseudoClass name _ => !name.contains '\\'
  | q => !q.isHidden

/-- If all pieces of the first text are transparent, they are native pieces and those of the second
text, which is what has been left of it. -/
def Leads (inner : BranchReader) (s : Scope) (t u : Text) : Prop :=
  (∀ q ∈ piecesIn t, q.isTransparent = true) →
    ∃ qs, piecesIn t = qs ++ piecesIn u ∧ ∀ q ∈ qs, q.IsNative inner s

theorem Leads.refl (t : Text) : Leads inner s t t :=
  fun _ => ⟨[], rfl, fun _ hq => absurd hq List.not_mem_nil⟩

theorem Leads.trans (h : Leads inner s t u) (h' : Leads inner s u v) : Leads inner s t v := by
  intro htransparent
  obtain ⟨qs, hqs, hnative⟩ := h htransparent
  obtain ⟨qs', hqs', hnative'⟩ := h' fun q hq =>
    htransparent q (by rw [hqs]; exact List.mem_append_right _ hq)
  refine ⟨qs ++ qs', by rw [hqs, hqs', List.append_assoc], fun q hq => ?_⟩
  exact (List.mem_append.mp hq).elim (hnative q) (hnative' q)

/-- One native piece, whatever the pieces are like. -/
theorem Leads.of_cons {q : Piece} (h : piecesIn t = q :: piecesIn u) (hq : q.IsNative inner s) :
    Leads inner s t u :=
  fun _ => ⟨[q], h, fun q' hq' => by rwa [List.mem_singleton.mp hq']⟩

/-! ### Marks and blanks -/

theorem ne_colon_of_blank (hc : Text.isBlank c = true) : c ≠ ':' := by
  rintro rfl
  exact absurd hc (by decide)

theorem piecesIn_blank (hc : Text.isBlank c = true) (r : Text) :
    piecesIn (c :: r) = .space :: piecesIn r := by
  rw [piecesIn_mark (isMark_of_blank hc) (ofMark?_of_blank hc) (ne_colon_of_blank hc),
    ofMark_of_blank hc]

theorem leads_trimStart (t : Text) : Leads inner s t (Text.trimStart t) := by
  induction t with
  | nil => exact Leads.refl []
  | cons c r ih =>
    cases hc : Text.isBlank c with
    | false =>
      rw [Text.trimStart_cons_of_not_blank hc]
      exact Leads.refl _
    | true =>
      rw [Text.trimStart_cons_of_blank hc]
      exact (Leads.of_cons (piecesIn_blank hc r) isNative_space).trans ih

/-- A mark that is text by itself. -/
theorem leads_mark (hc : c = '*' ∨ c = '.' ∨ c = '#' ∨ Css.isCombinator c = true) (r : Text) :
    Leads inner s (c :: r) r := by
  have hmark : isMark c = true ∧ Group.ofMark? c = none ∧ c ≠ ':' ∧
      Piece.ofMark c = .verbatim [c] := by
    rcases hc with rfl | rfl | rfl | hc
    · decide
    · decide
    · decide
    · rcases Css.isCombinator_cases hc with rfl | rfl | rfl <;> decide
  obtain ⟨hmark, hopen, hcolon, hpiece⟩ := hmark
  refine Leads.of_cons (piecesIn_mark hmark hopen hcolon r) ?_
  rw [hpiece]
  exact isNative_verbatim _

/-! ### Names -/

/-- The chunk is a word or a blank. -/
def Chunk.isUnmarked (k : Chunk) : Bool := k.isWord || k.isBlank

/-- The text is made of words and blanks. -/
def isUnmarked (t : Text) : Bool := (chunks t).all Chunk.isUnmarked

/-- A word at the start does not count. -/
theorem isUnmarked_takeWord_snd (t : Text) : isUnmarked (takeWord t).2 = isUnmarked t := by
  cases t with
  | nil => rfl
  | cons c r =>
    cases hmark : isMark c with
    | true => rw [takeWord_of_mark hmark]
    | false =>
      rw [isUnmarked, isUnmarked, chunks_of_word hmark]
      rfl

theorem isUnmarked_nil : isUnmarked [] = true := by
  rw [isUnmarked, chunks_nil]
  rfl

theorem isUnmarked_lone : isUnmarked ['\\'] = true := by
  rw [← isUnmarked_takeWord_snd]
  exact isUnmarked_nil

theorem isUnmarked_escape (e : Char) (r : Text) : isUnmarked ('\\' :: e :: r) = isUnmarked r := by
  rw [← isUnmarked_takeWord_snd, takeWord_escape]
  exact isUnmarked_takeWord_snd r

theorem isUnmarked_cons (hmark : isMark c = false) (hc : c ≠ '\\') (r : Text) :
    isUnmarked (c :: r) = isUnmarked r := by
  rw [← isUnmarked_takeWord_snd, takeWord_of_not_mark hmark hc]
  exact isUnmarked_takeWord_snd r

theorem isUnmarked_blank (hc : Text.isBlank c = true) (r : Text) :
    isUnmarked (c :: r) = isUnmarked r := by
  rw [isUnmarked, chunks_of_mark (isMark_of_blank hc) (ofMark?_of_blank hc), List.all_cons,
    Chunk.isUnmarked, Chunk.isBlank, hc, Bool.or_true, Bool.true_and]
  rfl

variable (inner s) in
/-- Words and blanks are native pieces, and nothing is held back behind them. -/
theorem completed_of_isUnmarked {ks : List Chunk} (h : ∀ k ∈ ks, k.isUnmarked = true) :
    heldAfter .nothing ks = .nothing ∧ ∀ q ∈ completed .nothing ks, q.IsNative inner s := by
  induction ks with
  | nil => exact ⟨rfl, fun q hq => absurd hq List.not_mem_nil⟩
  | cons k ks ih =>
    obtain ⟨hk, hks⟩ := List.forall_mem_cons.mp h
    have hfeed : ∃ q : Piece, Held.nothing.feed k = ([q], .nothing) ∧ q.IsNative inner s := by
      cases k with
      | word w => exact ⟨.verbatim w, rfl, isNative_verbatim w⟩
      | mark c => exact ⟨.space, feed_blank hk .nothing, isNative_space⟩
      | group g content closed => exact absurd hk Bool.false_ne_true
    obtain ⟨q, hfeed, hq⟩ := hfeed
    rw [heldAfter, completed, hfeed]
    obtain ⟨hheld, hcompleted⟩ := ih hks
    exact ⟨hheld, List.forall_mem_cons.mpr ⟨hq, hcompleted⟩⟩

/-- What an escape takes has no marks but blanks, and ends there. -/
theorem isUnmarked_takeEscape (hne : r ≠ []) :
    ∃ p, r = p ++ (Css.takeEscape r).2 ∧
      ∀ v : Text, isUnmarked ('\\' :: (p ++ v)) = isUnmarked v ∧
        endsInEscape ('\\' :: (p ++ v)) = endsInEscape v := by
  rcases Css.escape_cases r with rfl | ⟨c, u, rfl, hc⟩ | ⟨d, ds, v, rfl, hds, hlength, hv⟩
  · exact absurd rfl hne
  · refine ⟨[c], by rw [Css.takeEscape_cons hc]; rfl, fun v => ?_⟩
    exact ⟨isUnmarked_escape c v, endsInEscape_escape c v⟩
  · have hdigits : ∀ z : Text, isUnmarked (ds ++ z) = isUnmarked z ∧
        endsInEscape (ds ++ z) = endsInEscape z := by
      have hall := fun e he => hds e (List.mem_cons_of_mem _ he)
      clear hds hlength hv hne
      intro z
      induction ds with
      | nil => exact ⟨rfl, rfl⟩
      | cons e es ih =>
        obtain ⟨he, hes⟩ := List.forall_mem_cons.mp hall
        have hne := (Css.plain_of_isIdentChar (Css.isIdentChar_of_isHexDigit he)).1
        have hmark := Css.not_isMark_of_isIdentChar (Css.isIdentChar_of_isHexDigit he)
          (Css.not_blank_of_isHexDigit he)
        rw [List.cons_append, isUnmarked_cons hmark hne, endsInEscape_cons hne]
        exact ih hes
    rw [Css.takeEscape_digits hds hlength hv]
    cases v with
    | nil =>
      refine ⟨d :: ds, rfl, fun v => ?_⟩
      rw [List.cons_append, isUnmarked_escape, endsInEscape_escape]
      exact hdigits v
    | cons e u =>
      rw [Css.dropOneBlank]
      split
      · -- the blank that ends the digits is taken with them
        rename_i he
        refine ⟨d :: ds ++ [e], by simp, fun v => ?_⟩
        have hne := ne_backslash_of_isMark (isMark_of_blank he)
        rw [List.append_assoc, List.cons_append, isUnmarked_escape, endsInEscape_escape,
          (hdigits _).1, (hdigits _).2, List.singleton_append, isUnmarked_blank he,
          endsInEscape_cons hne]
        exact ⟨rfl, rfl⟩
      · refine ⟨d :: ds, rfl, fun v => ?_⟩
        rw [List.cons_append, isUnmarked_escape, endsInEscape_escape]
        exact hdigits v

/-- What a name takes is made of words and blanks. -/
theorem isUnmarked_takeIdent (t : Text) :
    ∃ p, t = p ++ (Css.takeIdent t).2 ∧ isUnmarked p = true ∧
      ((Css.takeIdent t).2 ≠ [] → endsInEscape p = false) := by
  fun_induction Css.takeIdent t with
  | case1 => exact ⟨[], rfl, isUnmarked_nil, fun _ => rfl⟩
  | case2 r ih =>
    by_cases hr : r = []
    · subst hr
      exact ⟨['\\'], by simp [Css.takeEscape, Css.takeIdent], isUnmarked_lone,
        fun hne => absurd (by simp [Css.takeEscape, Css.takeIdent]) hne⟩
    · obtain ⟨p, hp, hall⟩ := isUnmarked_takeEscape hr
      obtain ⟨p', hp', hunmarked, hescape⟩ := ih
      refine ⟨'\\' :: (p ++ p'), ?_, (hall p').1.trans hunmarked,
        fun hne => (hall p').2.trans (hescape hne)⟩
      rw [Text.onto_snd, List.cons_append, List.append_assoc, ← hp', ← hp]
  | case3 c r hc hident ih =>
    obtain ⟨p', hp', hunmarked, hescape⟩ := ih
    refine ⟨c :: p', ?_, ?_, fun hne => ?_⟩
    · rw [Text.onto_snd, List.cons_append, ← hp']
    · cases hblank : Text.isBlank c with
      | true => rw [isUnmarked_blank hblank, hunmarked]
      | false => rw [isUnmarked_cons (Css.not_isMark_of_isIdentChar hident hblank) hc, hunmarked]
    · rw [endsInEscape_cons hc]
      exact hescape hne
  | case4 => exact ⟨[], rfl, isUnmarked_nil, fun _ => rfl⟩

/-- The chunks of a name, and those of what follows it. -/
theorem chunks_takeIdent (h : startsWithMark (Css.takeIdent t).2 = true) :
    ∃ ks, chunks t = ks ++ chunks (Css.takeIdent t).2 ∧ ∀ k ∈ ks, k.isUnmarked = true := by
  obtain ⟨p, hp, hunmarked, hescape⟩ := isUnmarked_takeIdent t
  have hall := List.all_eq_true.mp hunmarked
  refine ⟨chunks p, ?_, hall⟩
  by_cases hrest : (Css.takeIdent t).2 = []
  · rw [hrest, List.append_nil] at hp
    rw [hrest, chunks_nil, List.append_nil, hp]
  · conv_lhs => rw [hp]
    refine chunks_append (fun k hk => ?_) (hescape hrest) fun _ _ _ => h
    have hk := hall k hk
    cases k with
    | mark c => rfl
    | word w => rfl
    | group g content closed => exact absurd hk Bool.false_ne_true

theorem leads_takeIdent (h : startsWithMark (Css.takeIdent t).2 = true) :
    Leads inner s t (Css.takeIdent t).2 := by
  intro _
  obtain ⟨ks, hks, hunmarked⟩ := chunks_takeIdent h
  obtain ⟨hheld, hnative⟩ := completed_of_isUnmarked inner s hunmarked
  refine ⟨completed .nothing ks, ?_, hnative⟩
  rw [piecesIn, hks, piecesFrom_append, hheld]
  rfl

/-! ### Conditions -/

/-- An attribute selector is one piece. -/
theorem leads_readAttribute {x : Css.AttributeTest} (h : Css.readAttribute r = .ok (x, u))
    (hx : Css.Simple.isReserved (.attribute x) = false) : Leads inner s ('[' :: r) u := by
  obtain ⟨content, rfl, hall⟩ := Css.exists_group_of_readAttribute h
  refine Leads.of_cons ?_ (isNative_attributeTest (Css.extendedBody?_eq_none h hx))
  rw [piecesIn, chunks_closed_group rfl (hall u).1]
  rfl

/-- There is no argument, or it is a group. -/
theorem readArgument_cases {a : Option Text} (ht : Css.isReadAlike t = true)
    (h : Css.readArgument t = .ok (a, u)) :
    (a = none ∧ u = t ∧ t.head? ≠ some '(') ∨
      ∃ content, a = some content ∧ chunks t = .group .parens content true :: chunks u := by
  cases t with
  | nil =>
    obtain ⟨rfl, rfl⟩ := Prod.mk.inj (Except.ok.inj h)
    exact Or.inl ⟨rfl, rfl, by simp⟩
  | cons c r =>
    by_cases hc : c = '('
    · subst hc
      rw [Css.readArgument, if_pos rfl] at h
      cases hargument : Css.takeArgument? .top r with
      | none =>
        rw [hargument] at h
        exact absurd h (by simp)
      | some taken =>
        rw [hargument] at h
        obtain ⟨rfl, rfl⟩ := Prod.mk.inj (Except.ok.inj h)
        obtain ⟨rfl, hgroup, -⟩ := Css.exists_group_of_takeArgument? ht hargument
        exact Or.inr ⟨_, rfl, chunks_closed_group rfl hgroup⟩
    · rw [Css.readArgument_cons hc] at h
      obtain ⟨rfl, rfl⟩ := Prod.mk.inj (Except.ok.inj h)
      exact Or.inl ⟨rfl, rfl, fun hhead => hc (Option.some_inj.mp hhead)⟩

/-- The argument behind a name. -/
def argumentOf (a : Option Text) : Argument := (a.map Argument.given).getD .absent

theorem argumentOf_ne_unclosed (a : Option Text) : argumentOf a ≠ .unclosed := by
  cases a <;> simp [argumentOf]

theorem takeArgument_chunks {a : Option Text} (ht : Css.isReadAlike t = true)
    (h : Css.readArgument t = .ok (a, u)) :
    takeArgument (chunks t) = (argumentOf a, chunks u) := by
  rcases readArgument_cases ht h with ⟨rfl, rfl, hhead⟩ | ⟨content, rfl, hchunks⟩
  · rw [takeArgument]
    · rfl
    · intro content closed ks hks
      have htext := flatMap_text_chunks u
      rw [hks, List.flatMap_cons] at htext
      exact hhead (by rw [← htext]; rfl)
  · rw [hchunks]
    rfl

/-- By itself, an argument is text. -/
theorem leads_readArgument {a : Option Text} (ht : Css.isReadAlike t = true)
    (h : Css.readArgument t = .ok (a, u)) : Leads inner s t u := by
  rcases readArgument_cases ht h with ⟨-, rfl, -⟩ | ⟨content, -, hchunks⟩
  · exact Leads.refl _
  · refine Leads.of_cons (q := .verbatim ('(' :: content ++ [')'])) ?_ (isNative_verbatim _)
    rw [piecesIn, hchunks]
    rfl

theorem startsWithMark_of_readArgument {a : Option Text} (h : Css.readArgument t = .ok (a, u))
    (hu : startsWithMark u = true) : startsWithMark t = true := by
  cases t with
  | nil => rfl
  | cons c r =>
    by_cases hc : c = '('
    · rw [hc, startsWithMark_cons]
      decide
    · rw [Css.readArgument_cons hc] at h
      rwa [(Prod.mk.inj (Except.ok.inj h)).2]

/-- A name that has no escapes is a word. -/
theorem takeWord_eq_takeIdent (ht : Css.isReadAlike t = true)
    (hstart : Css.startsNameBlank t = false) (hend : startsWithMark (Css.takeIdent t).2 = true)
    (hplain : '\\' ∉ (takeWord t).1) : takeWord t = Css.takeIdent t := by
  induction t with
  | nil =>
    rw [Css.takeIdent]
    rfl
  | cons c r ih =>
    by_cases hc : c = '\\'
    · subst hc
      cases r with
      | nil => exact absurd (List.mem_singleton_self _) hplain
      | cons e r => exact absurd (List.mem_cons_self ..) hplain
    · rw [Css.takeIdent_cons hc] at hend ⊢
      cases hident : Css.isIdentChar c with
      | false =>
        rw [hident, if_neg Bool.false_ne_true] at hend
        rw [if_neg Bool.false_ne_true, takeWord_of_startsWithMark hend]
      | true =>
        have hblank := Css.not_blank_of_startsNameBlank hident hstart
        have hmark := Css.not_isMark_of_isIdentChar hident hblank
        obtain ⟨hnext, halike⟩ :=
          Css.isReadAlike_plain hc (Css.plain_of_isIdentChar hident).2 ht
        rw [hident, if_pos rfl] at hend
        rw [takeWord_of_not_mark hmark hc] at hplain ⊢
        rw [if_pos rfl, ih halike (hnext (by simp [Css.isBeforeName, hident]) hblank) hend
          fun hmem => hplain (List.mem_cons_of_mem _ hmem)]

/-- A name that is not empty starts with a word. -/
theorem chunks_of_name (hstart : Css.startsNameBlank t = false) (hname : (Css.takeIdent t).1 ≠ []) :
    chunks t = .word (takeWord t).1 :: chunks (takeWord t).2 := by
  cases t with
  | nil => exact absurd (by rw [Css.takeIdent]) hname
  | cons c r =>
    refine chunks_of_word ?_ r
    by_cases hc : c = '\\'
    · rw [hc]
      decide
    · rw [Css.takeIdent_cons hc] at hname
      cases hident : Css.isIdentChar c with
      | false =>
        rw [hident] at hname
        exact absurd rfl hname
      | true =>
        exact Css.not_isMark_of_isIdentChar hident (Css.not_blank_of_startsNameBlank hident hstart)

/-- A pseudo-class that the browser knows is one piece, if its name has no escapes. -/
theorem leads_pseudoClass {name : Text} {a : Option Text} (ht : Css.isReadAlike t = true)
    (hstart : Css.startsNameBlank t = false)
    (hname : Css.readIdent .pseudoClassName t = .ok (name, v))
    (hargument : Css.readArgument v = .ok (a, u)) (hu : startsWithMark u = true)
    (hknown : Css.isPseudoClass name = true) : Leads inner s (':' :: t) u := by
  obtain ⟨htake, hne⟩ := Css.readIdent_eq_ok.mp hname
  replace hne : (Css.takeIdent t).1 ≠ [] := by rwa [htake]
  have hpieces : piecesIn (':' :: t) = .pseudoClass (takeWord t).1
      (takeArgument (chunks (takeWord t).2)).1 ::
        piecesFrom .nothing (takeArgument (chunks (takeWord t).2)).2 := by
    rw [piecesIn, chunks_of_mark (by decide) (by decide), chunks_of_name hstart hne,
      ← piecesFrom_pseudoClass]
    rfl
  intro htransparent
  have hplain := htransparent _ (by rw [hpieces]; exact List.mem_cons_self ..)
  simp only [Piece.isTransparent, List.contains_eq_mem, Bool.not_eq_true',
    decide_eq_false_iff_not] at hplain
  have hend : startsWithMark (Css.takeIdent t).2 = true := by
    rw [htake]
    exact startsWithMark_of_readArgument hargument hu
  have hleaves := (Css.takeIdent_squeeze (b := false) ht hstart (by simp)).2.alike
  have hword := (takeWord_eq_takeIdent ht hstart hend hplain).trans htake
  rw [htake] at hleaves
  rw [hword, takeArgument_chunks hleaves hargument] at hpieces
  exact (Leads.of_cons hpieces (isNative_pseudoClass (Css.ofText?_eq_none_of_isPseudoClass hknown)
    hknown (argumentOf_ne_unclosed a))) htransparent

/-- A pseudo-element is one piece, or several if its name has an escape that ends with a blank. -/
theorem leads_pseudoElement {name : Text} {a : Option Text} (ht : Css.isReadAlike t = true)
    (hstart : Css.startsNameBlank t = false)
    (hname : Css.readIdent .pseudoClassName t = .ok (name, v))
    (hargument : Css.readArgument v = .ok (a, u)) (hu : startsWithMark u = true) :
    Leads inner s (':' :: ':' :: t) u := by
  obtain ⟨htake, hne⟩ := Css.readIdent_eq_ok.mp hname
  replace hne : (Css.takeIdent t).1 ≠ [] := by rwa [htake]
  have hword := chunks_of_name hstart hne
  have hpieces : piecesIn (':' :: ':' :: t) = .pseudoElement (takeWord t).1
      (takeArgument (chunks (takeWord t).2)).1 ::
        piecesFrom .nothing (takeArgument (chunks (takeWord t).2)).2 := by
    rw [piecesIn, chunks_of_mark (by decide) (by decide), chunks_of_mark (by decide) (by decide),
      hword, ← piecesFrom_pseudoElement]
    rfl
  have hend := startsWithMark_of_readArgument hargument hu
  have hleaves := (Css.takeIdent_squeeze (b := false) ht hstart (by simp)).2.alike
  obtain ⟨ks, hks, hunmarked⟩ := chunks_takeIdent (t := t) (by rw [htake]; exact hend)
  rw [htake] at hleaves
  replace hks : chunks t = ks ++ chunks v := by rw [hks, htake]
  cases ks with
  | nil =>
    -- the chunks of the name are not empty
    rw [List.nil_append, hword] at hks
    exact absurd (isWord_head?_chunks hend _ (by rw [← hks]; rfl)) (by simp [Chunk.isWord])
  | cons k ks =>
    rw [hword, List.cons_append] at hks
    obtain ⟨-, hrest⟩ := List.cons.inj hks
    rw [hrest] at hpieces
    obtain ⟨-, hunmarked⟩ := List.forall_mem_cons.mp hunmarked
    cases ks with
    | nil =>
      rw [List.nil_append, takeArgument_chunks hleaves hargument] at hpieces
      intro htransparent
      have hseen := htransparent _ (by rw [hpieces]; exact List.mem_cons_self ..)
      refine Leads.of_cons hpieces (isNative_pseudoElement ?_ (argumentOf_ne_unclosed a))
        htransparent
      intro content heq
      rw [heq] at hseen
      simpa [Piece.isTransparent, Piece.isHidden] using hseen
    | cons k' ks =>
      obtain ⟨c, rfl⟩ : ∃ c, k' = .mark c := by
        have hseam := isWord_head?_chunks (startsWithMark_takeWord_snd t) k' (by rw [hrest]; rfl)
        have hk' := hunmarked k' (List.mem_cons_self ..)
        cases k' with
        | mark c => exact ⟨c, rfl⟩
        | word w => exact absurd hseam (by simp [Chunk.isWord])
        | group g content closed => exact absurd hk' Bool.false_ne_true
      obtain ⟨hheld, hnative⟩ := completed_of_isUnmarked inner s hunmarked
      have habsent : takeArgument (.mark c :: ks ++ chunks v) =
          (.absent, .mark c :: ks ++ chunks v) := rfl
      rw [habsent, piecesFrom_append, hheld] at hpieces
      refine Leads.trans (u := v) (fun _ => ⟨_ :: _, hpieces, ?_⟩)
        (leads_readArgument hleaves hargument)
      exact List.forall_mem_cons.mpr
        ⟨isNative_pseudoElement (by simp) (by simp), hnative⟩

/-- A pseudo-class or a pseudo-element, from its first colon on. -/
theorem leads_readPseudo {x : Css.Simple} (ht : Css.isReadAlike t = true)
    (hstart : Css.startsNameBlank t = false) (h : Css.readPseudo t = .ok (x, u))
    (hu : startsWithMark u = true) : Leads inner s (':' :: t) u := by
  rw [Css.readPseudo_eq] at h
  split at h
  · rename_i hcolon
    obtain ⟨r, rfl⟩ := List.head?_eq_some_iff.mp hcolon
    obtain ⟨name, v, a, hname, hargument, -⟩ := Css.readNamed_eq_ok.mp h
    obtain ⟨hnext, halike⟩ := Css.isReadAlike_plain (by decide) Css.plain_colon.2 ht
    exact leads_pseudoElement halike (hnext (by decide) (by decide)) hname hargument hu
  · obtain ⟨name, v, a, hname, hargument, hcondition⟩ := Css.readNamed_eq_ok.mp h
    exact leads_pseudoClass ht hstart hname hargument hu
      (Css.isPseudoClass_of_pseudoClassOf hcondition)

/-- A condition is made of native pieces. -/
theorem leads_readSimple {isFirst : Bool} {x : Css.Simple} (ht : Css.isReadAlike t = true)
    (hstart : isFirst = true → Css.startsNameBlank t = false)
    (h : Css.readSimple isFirst t = .ok (some (x, u))) (hu : startsWithMark u = true)
    (hx : x.isReserved = false) : Leads inner s t u := by
  have hident : ∀ {kind : Css.NameKind} {r name : Text},
      Css.readIdent kind r = .ok (name, u) → Leads inner s r u := by
    intro kind r name hname
    obtain ⟨htake, -⟩ := Css.readIdent_eq_ok.mp hname
    have hleads : Leads inner s r (Css.takeIdent r).2 := leads_takeIdent (by rw [htake]; exact hu)
    rwa [htake] at hleads
  cases Css.readsSimple_of_readSimple h with
  | universal => exact leads_mark (.inl rfl) u
  | hasClass hname => exact (leads_mark (.inr (.inl rfl)) _).trans (hident hname)
  | hasId hname => exact (leads_mark (.inr (.inr (.inl rfl))) _).trans (hident hname)
  | test hattribute => exact leads_readAttribute hattribute hx
  | pseudo hpseudo =>
    obtain ⟨hnext, halike⟩ := Css.isReadAlike_plain (by decide) Css.plain_colon.2 ht
    exact leads_readPseudo halike (hnext (by decide) (by decide)) hpseudo hu
  | tag _ hname => exact hident hname

/-! ### Whole selectors -/

theorem leads_readConditions {isFirst : Bool} {x : Css.Compound} (ht : Css.isReadAlike t = true)
    (hstart : isFirst = true → Css.startsNameBlank t = false)
    (h : Css.readConditions isFirst t = .ok (x, u)) (hx : x.any Css.Simple.isReserved = false) :
    Leads inner s t u := by
  have hread := Css.readsConditions_of_readConditions h
  clear h
  induction hread with
  | done => exact Leads.refl _
  | more hsimple hmore ih =>
    rw [List.any_cons, Bool.or_eq_false_iff] at hx
    obtain ⟨_, -, -, halike⟩ := Css.readSimple_squeeze (b := false) ht hstart hsimple
    have hmark := Css.startsWithMark_of_readConditions hmore.readConditions_eq
    exact (leads_readSimple ht hstart hsimple hmark hx.1).trans (ih halike (by simp) hx.2)

/-- Blanks and a combinator are native pieces. -/
theorem leads_readCombinator {k : Css.Combinator} (h : Css.readCombinator t = .ok (some (k, u))) :
    Leads inner s t u := by
  have hstart : Leads inner s t (Text.trimStart t) := leads_trimStart t
  obtain ⟨c, r, heq, ⟨hchar, rfl, -⟩ | ⟨-, -, rfl, -⟩⟩ := Css.readCombinator_eq_some h
  · have hc : Css.isCombinator c = true := by
      rw [← Css.Combinator.ofChar?_isSome, hchar]
      rfl
    rw [heq] at hstart
    exact (hstart.trans (leads_mark (.inr (.inr (.inr hc))) r)).trans (leads_trimStart r)
  · rwa [heq] at hstart

/-- The compounds that have been read before are compounds of the selector. -/
theorem isReserved_of_readChain {left : List (Css.Combinator × Css.Compound)} {x : Css.Complex}
    (h : Css.readChain left t = .ok x) (hx : x.isReserved = false) :
    ∀ k ∈ left, k.2.any Css.Simple.isReserved = false := by
  have hleft : Css.readChain left t =
      (Css.readChain [] t).map fun x => ⟨x.subject, x.chain ++ left⟩ := Css.readChain_left [] t
  rw [h] at hleft
  obtain ⟨x', -, rfl⟩ := Outcome.map_eq_ok.mp hleft.symm
  intro k hk
  rw [Css.Complex.isReserved, List.any_eq_false] at hx
  refine Bool.eq_false_iff.mpr (hx k.2 (List.mem_cons_of_mem _ ?_))
  exact List.mem_map_of_mem (List.mem_append_right _ hk)

theorem leads_readChain {left : List (Css.Combinator × Css.Compound)} {x : Css.Complex}
    (ht : Css.isReadAlike t = true) (hstart : ∀ c ∈ t.head?, Text.isBlank c = false)
    (h : Css.readChain left t = .ok x) (hx : x.isReserved = false) : Leads inner s t [] := by
  have hread := Css.readsChain_of_readChain h
  clear h
  induction hread with
  | @last _ _ rest compound hcompound hend =>
    have hsubject : compound.any Css.Simple.isReserved = false := by
      rw [Css.Complex.isReserved, List.any_eq_false] at hx
      exact Bool.eq_false_iff.mpr (hx compound (List.mem_cons_self ..))
    have htrim : Leads inner s rest (Text.trimStart rest) := leads_trimStart rest
    rw [hend] at htrim
    exact (leads_readConditions ht (fun _ => Css.startsNameBlank_of_not_blank hstart)
      (Css.readCompound_eq_ok.mp hcompound).1 hsubject).trans htrim
  | more hcompound hcombinator hmore ih =>
    have hconditions := (Css.readCompound_eq_ok.mp hcompound).1
    have hname := Css.startsNameBlank_of_not_blank hstart
    obtain ⟨_, -, ⟨b, -, hb⟩, halike⟩ := Css.readConditions_squeeze (b := false) ht
      (fun _ => hname) (by simp) hconditions
    obtain ⟨-, halike', hstart'⟩ := Css.readCombinator_squeeze halike hb hcombinator
    have hleft := isReserved_of_readChain hmore.readChain_eq hx _ (List.mem_cons_self ..)
    exact ((leads_readConditions ht (fun _ => hname) hconditions hleft).trans
      (leads_readCombinator hcombinator)).trans (ih halike' hstart' hx)

/-- The pieces of a native selector only add their text. -/
theorem isNative_of_readChain {left : List (Css.Combinator × Css.Compound)} {x : Css.Complex}
    (ht : Css.isReadAlike t = true) (hstart : ∀ c ∈ t.head?, Text.isBlank c = false)
    (h : Css.readChain left t = .ok x) (hx : x.isReserved = false)
    (htransparent : ∀ q ∈ piecesIn t, q.isTransparent = true) :
    ∀ q ∈ piecesIn t, q.IsNative inner s := by
  obtain ⟨qs, hqs, hnative⟩ := leads_readChain ht hstart h hx htransparent
  rw [hqs, piecesIn_nil, List.append_nil]
  exact hnative

end Extended
end CosmeticFilter
