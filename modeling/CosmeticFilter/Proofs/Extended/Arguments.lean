import CosmeticFilter.Proofs.Extended.BlankRuns
import CosmeticFilter.Proofs.Extended.Comma
import CosmeticFilter.Proofs.Extended.Reprinted

/-!
# Pseudo-classes behind a selector

An argument fills its brackets if the bracket that closes it is the one behind it. Lists of
arguments and pseudo-classes with such an argument fill brackets again. A selector without
extensions is followed by pseudo-classes that take branches: its text becomes the fragment in front
of them, and they are read one after the other, each by its placement and its argument alone. So
whether they are read at all does not depend on each other.

* `Inside.Fills.append`, `Inside.Fills.nested`: texts that fill brackets;
* `pseudoText`, `pseudosText`: pseudo-classes with arguments in brackets;
* `IsSeed`: a text that is read as one fragment and that goes on with a pseudo-class;
* `Opens`: a text that has become a fragment when a pseudo-class follows;
* `Opens.readAll_iff`: the pseudo-classes behind it.
-/

namespace CosmeticFilter
namespace Extended

variable {inner : BranchReader} {s : Scope} {t u A B S f : Text} {c : Char} {i j : Inside}

/-! ### Texts that fill brackets -/

/-- A pseudo-class with an argument in its brackets. -/
def pseudoText (x : Name × Text) : Text := ':' :: x.1.text ++ '(' :: x.2 ++ [')']

namespace Inside

theorem fills_nil_iff : i.Fills [] ↔ i.depth = 0 ∧ i.quote = none := by
  rw [fills_nil]
  unfold Inside.step
  cases i.quote with
  | some q => simp
  | none => by_cases hdepth : i.depth = 0 <;> simp [hdepth]

theorem Alike.fills (h : i.Alike j) (hi : i.Fills t) : j.Fills t := by
  induction t using escape_induction generalizing i j with
  | nil => exact h.fills_nil hi
  | lone => exact absurd hi not_fills_backslash
  | escape e r ih =>
    rw [fills_escape] at hi ⊢
    exact ih (i := { i with previous := e }) ⟨h.depth, h.quote, rfl, h.quote_not_blank⟩ hi
  | plain c r hc ih =>
    rw [fills_cons hc] at hi ⊢
    obtain ⟨i', hstep, hi'⟩ := hi
    obtain ⟨j', hstep', hlike⟩ := h.step hstep
    exact ⟨j', hstep', ih hlike hi'⟩

/-- Behind a text that fills brackets, all brackets and quotes in it are closed. -/
theorem Fills.append (h : i.Fills t) (hu : ∀ c, Fills ⟨0, none, c⟩ u) : i.Fills (t ++ u) := by
  induction t using escape_induction generalizing i with
  | nil =>
    obtain ⟨hdepth, hquote⟩ := fills_nil_iff.mp h
    obtain ⟨_, _, previous⟩ := i
    obtain rfl : _ = 0 := hdepth
    obtain rfl : _ = none := hquote
    exact hu previous
  | lone => exact absurd h not_fills_backslash
  | escape e r ih =>
    rw [List.cons_append, List.cons_append, fills_escape]
    exact ih (fills_escape e |>.mp h)
  | plain c r hc ih =>
    rw [List.cons_append, fills_cons hc]
    obtain ⟨i', hstep, hi'⟩ := (fills_cons hc).mp h
    exact ⟨i', hstep, ih hi'⟩

/-- One more bracket is open. -/
def deeper (i : Inside) : Inside := { i with depth := i.depth + 1 }

/-- Where a group would be closed, one that is one bracket deeper goes on. -/
theorem step_deeper (i : Inside) (c : Char) :
    i.deeper.step .parens c = some (((i.step .parens c).map deeper).getD ⟨0, none, c⟩) := by
  obtain ⟨depth, quote, previous⟩ := i
  unfold deeper Inside.step
  cases quote with
  | some q => rfl
  | none =>
    simp only
    split
    · rfl
    · split
      · rfl
      · split
        · cases depth <;> rfl
        · rfl

/-- A text that fills brackets does so within others. -/
theorem Fills.nested (h : i.Fills t) (hu : Fills ⟨0, none, ')'⟩ u) :
    i.deeper.Fills (t ++ ')' :: u) := by
  induction t using escape_induction generalizing i with
  | nil =>
    rw [List.nil_append, fills_cons (by decide), step_deeper, fills_nil.mp h]
    exact ⟨_, rfl, hu⟩
  | lone => exact absurd h not_fills_backslash
  | escape e r ih =>
    rw [List.cons_append, List.cons_append, fills_escape]
    exact ih (i := { i with previous := e }) (fills_escape e |>.mp h)
  | plain c r hc ih =>
    obtain ⟨i', hstep, hi'⟩ := (fills_cons hc).mp h
    rw [List.cons_append, fills_cons hc, step_deeper, hstep]
    exact ⟨_, rfl, ih hi'⟩

/-- Two arguments with a comma and a space between them. -/
theorem Fills.list (hA : start.Fills A) (hB : start.Fills B) :
    start.Fills (A ++ ',' :: ' ' :: B) := by
  refine hA.append fun c => ?_
  have hspace : start.Alike ⟨0, none, ' '⟩ :=
    ⟨rfl, rfl, by decide, fun q hq => absurd hq (by simp [start])⟩
  rw [fills_cons (by decide)]
  refine ⟨⟨0, none, ','⟩, rfl, ?_⟩
  rw [fills_cons (by decide)]
  exact ⟨⟨0, none, ' '⟩, rfl, hspace.fills hB⟩

/-- A pseudo-class as an argument. -/
theorem Fills.negation (hA : start.Fills A) : start.Fills (pseudoText (.not, A)) := by
  have hnested : start.deeper.Fills (A ++ [')']) := hA.nested (fills_nil_iff.mpr ⟨rfl, rfl⟩)
  show start.Fills (':' :: 'n' :: 'o' :: 't' :: '(' :: (A ++ [')']))
  simp only [fills_cons (c := ':') (by decide), fills_cons (c := 'n') (by decide),
    fills_cons (c := 'o') (by decide), fills_cons (c := 't') (by decide),
    fills_cons (c := '(') (by decide)]
  exact ⟨_, rfl, _, rfl, _, rfl, _, rfl, _, rfl, hnested⟩

end Inside

/-! ### Texts of pseudo-classes -/

/-- Pseudo-classes, one after the other. -/
def pseudosText (l : List (Name × Text)) : Text := l.flatMap pseudoText

/-- The piece that a pseudo-class with an argument is read as. -/
def pseudoPiece (x : Name × Text) : Piece := .pseudoClass x.1.text (.given x.2)

theorem pseudosText_cons (x : Name × Text) (l : List (Name × Text)) :
    pseudosText (x :: l) = (Node.textual x.1 x.2).text ++ pseudosText l := by
  rw [pseudosText, List.flatMap_cons, Node.text]
  rfl

/-- Pseudo-classes behind a text that ends outside groups. -/
theorem piecesIn_pseudos (hclosed : ∀ k ∈ chunks t, k.isClosed = true)
    (hescape : endsInEscape t = false) (hcolon : heldIn t ≠ .colon) {l : List (Name × Text)}
    (hl : ∀ x ∈ l, Inside.start.Fills x.2) :
    piecesIn (t ++ pseudosText l) = piecesIn t ++ l.map pseudoPiece := by
  induction l generalizing t with
  | nil => simp [pseudosText]
  | cons x l ih =>
    obtain ⟨hx, hl⟩ := List.forall_mem_cons.mp hl
    have hrest := ih (t := []) (by simp [chunks_nil]) rfl (by simp [heldIn_nil]) hl
    rw [List.nil_append, piecesIn_nil, List.nil_append] at hrest
    rw [pseudosText_cons, ← List.append_assoc,
      piecesIn_node (n := .textual x.1 x.2) hclosed hescape hcolon rfl hx, hrest]
    rfl

theorem not_blank_getLast?_pseudosText {l : List (Name × Text)} :
    ∀ c ∈ (pseudosText l).getLast?, Text.isBlank c = false := by
  rcases List.eq_nil_or_concat l with rfl | ⟨l, x, rfl⟩
  · simp [pseudosText]
  · intro c hc
    rw [List.concat_eq_append, pseudosText, List.flatMap_append, List.flatMap_singleton, pseudoText,
      ← List.append_assoc, List.getLast?_concat] at hc
    rw [← Option.some_inj.mp hc]
    decide

/-- With a pseudo-class at its end, a text is trimmed at its start alone. -/
theorem trim_append_pseudosText (t : Text) (x : Name × Text) (l : List (Name × Text)) :
    Text.trim (t ++ pseudosText (x :: l)) = Text.trimStart (t ++ pseudosText (x :: l)) := by
  refine Text.trim_eq_trimStart fun c hc => ?_
  rw [List.getLast?_append_of_ne_nil _ (by simp [pseudosText_cons, Node.text])] at hc
  exact not_blank_getLast?_pseudosText c hc

/-! ### Pseudo-classes that take branches -/

/-- Any argument of the pseudo-class is read as branches. -/
def Name.TakesBranches (name : Name) : Prop := ∀ argument, name.argumentKind argument = .relative

/-- The node that a pseudo-class is read as, where pseudo-elements have been read before it or
not. -/
structure IsRead (s : Scope) (a : Bool) (x : Name × Text) (n : Node) : Prop where
  /-- No scoped pseudo-class behind a pseudo-element. -/
  behind : (a && x.1.isScoped) = false
  /-- No `:has()` within `:has()`. -/
  has : (s.inHas && x.1.isHasFamily) = false
  /-- No `:is()` within `:has()`. -/
  is : (s.inHas && x.1.isIsFamily) = false
  /-- There is an argument. -/
  given : Text.isAllBlank x.2 = false
  /-- The argument is read. -/
  nested : ∃ bs, readAll (s.inside x.1) x.2 = .ok bs ∧ n = .nested x.1 bs

theorem Name.TakesBranches.ne {name : Name} (h : name.TakesBranches) :
    name ≠ .remove ∧ name ≠ .xpath := by
  constructor <;> rintro rfl <;> exact absurd (h []) (by simp [Name.argumentKind])

/-- Behind nodes that let anything follow, the pseudo-class is added by itself. -/
theorem addExtended_iff {d d' : Draft} {x : Name × Text} (hx : x.1.TakesBranches)
    (hremove : d.has .remove = false) (hxpath : d.has .xpath = false) :
    d.addExtended readAll s x.1 x.2 = .ok d' ↔
      ∃ cut n, d.cutBeforeExtended s = .ok cut ∧ IsRead s d.afterElement x n ∧
        d' = { cut with nodes := cut.nodes ++ [n] } := by
  have hrequired : x.1.requiresArgument = true := by
    have hne := hx.ne.1
    cases hname : x.1 <;> first | rfl | exact absurd hname hne
  have hnode : ∀ n, Draft.nodeOf readAll s x.1 x.2 = .ok n ↔
      ∃ bs, readAll (s.inside x.1) x.2 = .ok bs ∧ n = .nested x.1 bs := by
    intro n
    unfold Draft.nodeOf
    rw [hx x.2]
    exact Outcome.map_eq_ok.trans (exists_congr fun bs => and_congr_right fun _ => eq_comm)
  rw [addExtended_eq_ok, checkPlacement_eq_ok, hremove, hxpath, hrequired, Bool.true_and]
  constructor
  · rintro ⟨⟨hscoped, -, -, -, hhas, his⟩, hgiven, cut, n, hcut, hn, rfl⟩
    exact ⟨cut, n, hcut, ⟨hscoped, hhas, his, hgiven, (hnode n).mp hn⟩, rfl⟩
  · rintro ⟨cut, n, hcut, hn, rfl⟩
    refine ⟨⟨hn.behind, rfl, rfl, ?_, hn.has, hn.is⟩, hn.given, cut, n, hcut,
      (hnode n).mpr hn.nested, rfl⟩
    rw [beq_eq_false_iff_ne.mpr hx.ne.1, Bool.false_and]

theorem step_pseudoPiece {p p' : Progress} {x : Name × Text} :
    p.step readAll s (pseudoPiece x) = .ok p' ↔
      ∃ d, p.draft.addExtended readAll s x.1 x.2 = .ok d ∧ p' = ⟨p.branches, d⟩ := by
  rw [pseudoPiece, Progress.step, Draft.addPseudoClass, Name.ofText?_text]
  exact Outcome.map_eq_ok.trans (exists_congr fun d => and_congr_right fun _ => eq_comm)

/-- Nodes that any pseudo-class may follow. -/
def LetFollow (ns : List Node) : Prop :=
  ∀ n ∈ ns, n.name? ≠ some .remove ∧ n.name? ≠ some .xpath

theorem LetFollow.has {ns : List Node} (h : LetFollow ns) (f : Text) (a : Bool) :
    Draft.has ⟨ns, f, a⟩ .remove = false ∧ Draft.has ⟨ns, f, a⟩ .xpath = false := by
  unfold Draft.has
  simp only [List.any_eq_false, beq_iff_eq]
  exact ⟨fun n hn => (h n hn).1, fun n hn => (h n hn).2⟩

theorem LetFollow.concat {ns : List Node} (h : LetFollow ns) {a : Bool} {x : Name × Text}
    (hx : x.1.TakesBranches) {n : Node} (hn : IsRead s a x n) : LetFollow (ns ++ [n]) := by
  obtain ⟨bs, -, rfl⟩ := hn.nested
  intro m hm
  rcases List.mem_append.mp hm with hm | hm
  · exact h m hm
  · obtain rfl := List.mem_singleton.mp hm
    simpa [Node.name?] using hx.ne

/-- Behind nodes, with nothing pending, there is nothing to cut. -/
theorem cutBeforeExtended_nodes {ns : List Node} (hne : ns ≠ []) (a : Bool) :
    Draft.cutBeforeExtended s ⟨ns, [], a⟩ = .ok ⟨ns, [], a⟩ := by
  rw [cutBeforeExtended_eq, if_pos]
  simp [Draft.cutText, Draft.isOpenEnded, hne]

/-- Behind nodes, with nothing pending, the branch can be completed. -/
theorem endBranch_nodes {ns : List Node} (hne : ns ≠ []) (a : Bool) :
    Progress.endBranch s ⟨[], ⟨ns, [], a⟩⟩ = .ok [ns] :=
  endBranch_eq_ok.mpr ⟨⟨ns, [], a⟩, rfl, hne, rfl⟩

/-- Behind nodes, pseudo-classes are read one after the other. -/
theorem foldlM_pseudos {l : List (Name × Text)} (hl : ∀ x ∈ l, x.1.TakesBranches)
    {ns : List Node} (hne : ns ≠ []) (hns : LetFollow ns) {a : Bool} {p : Progress} :
    (l.map pseudoPiece).foldlM (Progress.step readAll s) ⟨[], ⟨ns, [], a⟩⟩ = .ok p ↔
      ∃ ms, List.Forall₂ (IsRead s a) l ms ∧ p = ⟨[], ⟨ns ++ ms, [], a⟩⟩ := by
  induction l generalizing ns with
  | nil => simp [pure, Except.pure, eq_comm]
  | cons x l ih =>
    obtain ⟨hx, hl⟩ := List.forall_mem_cons.mp hl
    obtain ⟨hremove, hxpath⟩ := hns.has [] a
    rw [List.map_cons, foldlM_cons_eq_ok]
    constructor
    · rintro ⟨mid, hstep, hrest⟩
      obtain ⟨d, hadd, rfl⟩ := step_pseudoPiece.mp hstep
      obtain ⟨cut, n, hcut', hn, rfl⟩ := (addExtended_iff hx hremove hxpath).mp hadd
      obtain rfl := Except.ok.inj (hcut'.symm.trans (cutBeforeExtended_nodes hne a))
      obtain ⟨ms, hms, rfl⟩ := (ih hl (by simp) (hns.concat hx hn)).mp hrest
      exact ⟨n :: ms, .cons hn hms, by rw [List.append_assoc, List.singleton_append]⟩
    · rintro ⟨ms, hms, rfl⟩
      obtain ⟨n, ms, hn, hrest, rfl⟩ := List.forall₂_cons_left_iff.mp hms
      refine ⟨⟨[], ⟨ns ++ [n], [], a⟩⟩, step_pseudoPiece.mpr ⟨_,
        (addExtended_iff hx hremove hxpath).mpr
          ⟨_, n, cutBeforeExtended_nodes hne a, hn, rfl⟩, rfl⟩, ?_⟩
      exact (ih hl (by simp) (hns.concat hx hn)).mpr
        ⟨ms, hrest, by rw [List.append_assoc, List.singleton_append]⟩

/-! ### Arguments that are put together -/

namespace IsRead

variable {a : Bool} {name m : Name} {as bs : List (List Node)}

theorem readAll_eq (h : IsRead s a (name, A) (.nested name as)) :
    readAll (s.inside name) A = .ok as := by
  obtain ⟨_, hread, hnode⟩ := h.nested
  rw [hread, (Node.nested.inj hnode).2]

/-- A list of two arguments has the branches of both. -/
theorem list (hA : Inside.start.Fills A) (h : IsRead s a (name, A) (.nested name as))
    (h' : IsRead s a (name, B) (.nested name bs)) :
    IsRead s a (name, A ++ ',' :: ' ' :: B) (.nested name (as ++ bs)) := by
  refine ⟨h.behind, h.has, h.is, ?_, as ++ bs, ?_, rfl⟩
  · have hgiven : Text.isAllBlank A = false := h.given
    unfold Text.isAllBlank at hgiven ⊢
    rw [List.all_append, hgiven, Bool.false_and]
  · refine readAll_comma hA.endsInEscape h.readAll_eq ?_
    have htrim : Text.trim (' ' :: B) = Text.trim B :=
      Text.trim_blank_append (fun c hc => List.mem_singleton.mp hc ▸ rfl) B
    rw [← readAll_trim, htrim, readAll_trim]
    exact h'.readAll_eq

/-- Where a pseudo-class stands, one of the same kind may stand with the same argument. -/
theorem rename (hhas : m.isHasFamily = name.isHasFamily)
    (his : m.isIsFamily = true → name.isIsFamily = true)
    (h : IsRead s a (name, A) (.nested name as)) : IsRead s a (m, A) (.nested m as) := by
  have hinside : s.inside m = s.inside name := by unfold Scope.inside; rw [hhas]
  have hkeep : ∀ b : Bool, (b && name.isIsFamily) = false → (b && m.isIsFamily) = false := by
    intro b hb
    cases b with
    | false => rfl
    | true => exact Bool.eq_false_iff.mpr fun hm => Bool.eq_false_iff.mp hb (his hm)
  have hbehind : (a && (name.isHasFamily || name.isIsFamily)) = false := h.behind
  rw [Bool.and_or_distrib_left, Bool.or_eq_false_iff] at hbehind
  refine ⟨?_, ?_, hkeep _ h.is, h.given, as, ?_, rfl⟩
  · show (a && (m.isHasFamily || m.isIsFamily)) = false
    rw [Bool.and_or_distrib_left, hhas, hbehind.1, Bool.false_or]
    exact hkeep a hbehind.2
  · show (s.inHas && m.isHasFamily) = false
    rw [hhas]
    exact h.has
  · show readAll (s.inside m) A = .ok as
    rw [hinside]
    exact h.readAll_eq

end IsRead

/-! ### Texts in front of pseudo-classes -/

/-- The text becomes the first fragment of a branch if a pseudo-class follows; whether a
pseudo-element has been read then. -/
structure Opens (s : Scope) (t f : Text) (a : Bool) : Prop where
  /-- The start of the text. -/
  start : ∀ c ∈ t.head?, Text.isBlank c = false
  /-- No group is left open. -/
  closed : ∀ k ∈ chunks t, k.isClosed = true
  /-- The end of the text. -/
  escape : endsInEscape t = false
  /-- No colon is held back. -/
  colon : heldIn t ≠ .colon
  /-- The fragment is cut. -/
  run : ∃ d : Draft, (piecesIn t).foldlM (Progress.step readAll s) .start = .ok ⟨[], d⟩ ∧
    d.nodes = [] ∧ d.afterElement = a ∧ d.cutBeforeExtended s = .ok ⟨[.fragment f], [], a⟩

/-- In front of a pseudo-class that follows nothing, any element is meant. -/
theorem opens_nil (s : Scope) : Opens s [] ['*'] false := by
  refine ⟨by simp, by simp [chunks_nil], rfl, by simp [heldIn_nil], .empty, ?_, rfl, rfl, ?_⟩
  · rw [piecesIn_nil]
    rfl
  · rw [cutBeforeExtended_eq]
    refine addFragment_eq_ok.mpr ⟨?_, ⟨_, Css.ofText_asterisk⟩, rfl⟩
    cases s.mayLead <;> decide

/-- Blanks in front of a text do not count. -/
theorem readAll_trimStart_append (s : Scope) (t u : Text) :
    readAll s (Text.trimStart t ++ u) = readAll s (t ++ u) := by
  obtain ⟨b, hb, ht⟩ := Text.exists_trimStart_append t
  conv_rhs => rw [ht, List.append_assoc, ← readAll_trim, Text.trim_blank_append hb, readAll_trim]

/-- **Pseudo-classes behind a text** are read if each of them by itself may stand there and its
argument is read. -/
theorem Opens.readAll_iff {a : Bool} (h : Opens s t f a) {x : Name × Text}
    {l : List (Name × Text)} (hl : ∀ y ∈ x :: l, y.1.TakesBranches ∧ Inside.start.Fills y.2)
    {bs : List (List Node)} :
    readAll s (t ++ pseudosText (x :: l)) = .ok bs ↔
      ∃ ns, List.Forall₂ (IsRead s a) (x :: l) ns ∧ bs = [.fragment f :: ns] := by
  obtain ⟨d, hrun, hnodes, rfl, hcut⟩ := h.run
  have htrim : Text.trim (t ++ pseudosText (x :: l)) = t ++ pseudosText (x :: l) := by
    rw [trim_append_pseudosText]
    refine Text.trimStart_eq_self fun c hc => ?_
    cases t with
    | nil => rw [← Option.some_inj.mp hc]; decide
    | cons d r => exact h.start c hc
  have hfollow : LetFollow [.fragment f] := fun n hn => by
    obtain rfl := List.mem_singleton.mp hn
    simp [Node.name?]
  have hhas : d.has .remove = false ∧ d.has .xpath = false := by
    simp [Draft.has, hnodes]
  have hx := (hl x (List.mem_cons_self ..)).1
  have hl' := fun y hy => (hl y (List.mem_cons_of_mem x hy)).1
  rw [readAll_eq_ok, htrim, Extended.run]
  change (∃ p, (piecesIn (t ++ pseudosText (x :: l))).foldlM _ _ = _ ∧ _) ↔ _
  simp only [piecesIn_pseudos h.closed h.escape h.colon fun y hy => (hl y hy).2]
  constructor
  · rintro ⟨p, hp, hbranch⟩
    obtain ⟨mid, hmid, hp⟩ := foldlM_append_eq_ok.mp hp
    obtain rfl := Except.ok.inj (hmid.symm.trans hrun)
    obtain ⟨next, hstep, hrest⟩ := foldlM_cons_eq_ok.mp hp
    obtain ⟨d', hadd, rfl⟩ := step_pseudoPiece.mp hstep
    obtain ⟨cut, n, hcut', hn, rfl⟩ := (addExtended_iff hx hhas.1 hhas.2).mp hadd
    obtain rfl := Except.ok.inj (hcut'.symm.trans hcut)
    obtain ⟨ms, hms, rfl⟩ := (foldlM_pseudos hl' (by simp) (hfollow.concat hx hn)).mp hrest
    rw [endBranch_nodes (by simp)] at hbranch
    exact ⟨n :: ms, .cons hn hms, (Except.ok.inj hbranch).symm⟩
  · rintro ⟨ns, hns, rfl⟩
    obtain ⟨n, ms, hn, hms, rfl⟩ := List.forall₂_cons_left_iff.mp hns
    refine ⟨⟨[], ⟨[.fragment f, n] ++ ms, [], d.afterElement⟩⟩, foldlM_append_eq_ok.mpr
      ⟨_, hrun, foldlM_cons_eq_ok.mpr ⟨⟨[], ⟨[.fragment f, n], [], d.afterElement⟩⟩, ?_, ?_⟩⟩,
      endBranch_nodes (by simp) _⟩
    · exact step_pseudoPiece.mpr
        ⟨_, (addExtended_iff hx hhas.1 hhas.2).mpr ⟨_, n, hcut, hn, rfl⟩, rfl⟩
    · exact (foldlM_pseudos hl' (by simp) (hfollow.concat hx hn)).mpr ⟨ms, hms, rfl⟩

/-- An argument of `:is()` is read in a `:not()` within `:not()` too, behind the asterisk that is
meant there. -/
theorem IsRead.negation {a : Bool} {as : List (List Node)} (hA : Inside.start.Fills A)
    (h : IsRead s a (.is, A) (.nested .is as)) :
    IsRead s a (.not, pseudoText (.not, A)) (.nested .not [[.fragment ['*'], .nested .not as]]) := by
  have hinner : IsRead (s.inside .not) false (.not, A) (.nested .not as) :=
    ⟨rfl, Bool.and_false _, Bool.and_false _, h.given, as, h.readAll_eq, rfl⟩
  refine ⟨Bool.and_false _, Bool.and_false _, Bool.and_false _, ?_, _, ?_, rfl⟩
  · rfl
  · have hread := (opens_nil (s.inside .not)).readAll_iff (x := (.not, A)) (l := [])
      (fun y hy => List.mem_singleton.mp hy ▸ ⟨fun _ => rfl, hA⟩) |>.mpr
      ⟨_, .cons hinner .nil, rfl⟩
    simpa [pseudosText] using hread

/-! ### Seeds -/

/-- A selector without extensions that may be followed by a pseudo-class: its text is read as one
fragment, and neither a blank nor a backslash stands between the two. -/
structure IsSeed (S f : Text) : Prop where
  /-- The fragment that it is read as. -/
  read : Selector.ofText S = .ok ⟨[[.fragment f]]⟩
  /-- No blank at the end. -/
  last : ∀ c ∈ S.getLast?, Text.isBlank c = false
  /-- No backslash that waits for a character. -/
  escape : endsInEscape S = false

/-- Where a branch could be completed, no colon is held back. -/
theorem Stands.heldIn_ne_colon {p : Progress} (h : Stands inner s t p) : heldIn t ≠ .colon := by
  intro hcolon
  have hclosed := isClosed_of_run h.run
  obtain ⟨u, rfl, hchunks, hescape⟩ := exists_of_heldIn_colon hclosed hcolon
  rw [hchunks] at hclosed
  have hheld : heldIn u ≠ .colon := by
    intro hu
    rw [heldIn, hchunks, heldAfter_append, show heldAfter .nothing (chunks u) = .colon from hu]
      at hcolon
    exact absurd hcolon (by simp [heldAfter, Held.feed])
  -- without the colon, the text is read up to a state from which it is pending
  have hpieces : piecesIn (u ++ [':']) = piecesIn u ++ [.verbatim [':']] := by
    rw [piecesIn, hchunks, piecesFrom_append]
    show _ ++ piecesFrom (heldIn u) _ = _
    rw [piecesFrom, feed_colon hheld, ← List.append_assoc, ← piecesIn_eq]
    rfl
  have hrun := h.run
  rw [hpieces] at hrun
  obtain ⟨mid, hmid, hlast⟩ := foldlM_append_eq_ok.mp hrun
  obtain rfl := Except.ok.inj (foldlM_singleton_eq_ok.mp hlast)
  have hpending := endsInEscape_pending hescape hmid
  rcases h.whole with hnil | ⟨S, hread⟩
  · exact absurd (Text.trim_eq_nil_iff.mp hnil ':' (by simp [Draft.write])) (by decide)
  · rcases Css.isLast_or_escaped_of_ofText ⟨by decide, by decide⟩ (by decide) hread with hend | hu
    · exact absurd hend (by decide)
    · exact absurd (hu.symm.trans hpending) (by simp)

/-- In front of a pseudo-class, no element is added to a complete selector. -/
theorem isOpenEnded_of_cutText {d : Draft} {X Y : Css.Selector}
    (hlast : ∀ c ∈ d.pending.getLast?, Text.isBlank c = false)
    (hread : Css.Selector.ofText d.pending = .ok X)
    (hcut : Css.Selector.ofText d.cutText = .ok Y) : Draft.isOpenEnded d.pending = false := by
  rcases List.eq_nil_or_concat d.pending with hnil | ⟨u, c, hu⟩
  · rw [hnil]
    rfl
  rw [List.concat_eq_append] at hu
  by_contra hopen
  rw [Bool.not_eq_false] at hopen
  have htext : d.cutText = u ++ [c, '*'] := by
    unfold Draft.cutText
    rw [if_pos (by rw [hopen, Bool.or_true]), hu, List.append_assoc]
    rfl
  have hc : (c == ' ' || Css.isCombinator c) = true := by
    unfold Draft.isOpenEnded at hopen
    rwa [hu, List.getLast?_concat] at hopen
  have hne : c ≠ ',' ∧ c ≠ '\\' := by
    constructor <;> rintro rfl <;> exact absurd hc (by decide)
  rw [hu] at hread hlast
  rw [htext] at hcut
  exact Css.not_ofText_append_star ⟨hlast c (by simp), hne.2⟩ hne.1 hread Y hcut

/-- Where something is pending that a pseudo-class cuts off, it is cut off as it is. -/
theorem cutText_eq_pending {d cut : Draft} {X : Css.Selector} (hne : d.pending ≠ [])
    (hlast : ∀ c ∈ d.pending.getLast?, Text.isBlank c = false)
    (hread : Css.Selector.ofText d.pending = .ok X) (hcut : d.cutBeforeExtended s = .ok cut) :
    d.cutText = d.pending := by
  rcases cutText_cases d with hstar | ⟨hsame, -⟩
  · rw [cutBeforeExtended_eq, if_neg (by rw [hstar]; simp)] at hcut
    obtain ⟨⟨Y, hY⟩, -⟩ := of_addFragment hcut
    rw [Css.ofText_trim] at hY
    have hopen := isOpenEnded_of_cutText hlast hread hY
    unfold Draft.cutText
    rw [hopen, Bool.or_false, List.isEmpty_eq_false_iff.mpr hne, Bool.and_false]
    rfl
  · exact hsame

/-- A seed is pending as a whole when it has been read. -/
theorem IsSeed.exists_run (h : IsSeed S f) :
    ∃ d : Draft, (piecesIn (Text.trimStart S)).foldlM (Progress.step readAll .top) .start =
        .ok ⟨[], d⟩ ∧
      d.nodes = [] ∧ d.pending = f ∧ f ≠ [] ∧ (∀ c ∈ f.getLast?, Text.isBlank c = false) ∧
      ∃ X, Css.Selector.ofText f = .ok X := by
  have hS : readAll .top S = .ok [[.fragment f]] := Selector.ofText_eq_ok.mp h.read
  obtain ⟨hnative, -, hne, ⟨X, hX⟩, -⟩ := native_of_readAll rfl hS
  obtain ⟨hpending, hlast⟩ := pending_of_native rfl hS
  have hpieces : pieces S = piecesIn (Text.trimStart S) := by
    rw [pieces, piecesOf_eq, Text.trim_eq_trimStart h.last]
    rfl
  have hrun := foldlM_of_isNative hnative .start
  rw [hpieces] at hrun hpending
  exact ⟨_, hrun, foldl_addText_nodes _ .empty, hpending, hne, hlast, X,
    (Css.ofText_trim f).symm.trans hX⟩

theorem IsSeed.trimStart_ne_nil (h : IsSeed S f) : Text.trimStart S ≠ [] := by
  obtain ⟨d, hrun, -, rfl, hne, -⟩ := h.exists_run
  intro hnil
  rw [hnil, piecesIn_nil] at hrun
  obtain rfl := congrArg Progress.draft (Except.ok.inj hrun)
  exact hne rfl

/-- With pseudo-classes behind a seed, only the blanks in front of it are trimmed. -/
theorem IsSeed.exists_run_pseudos (h : IsSeed S f) {x : Name × Text} {l : List (Name × Text)}
    {bs : List (List Node)} (hread : readAll .top (S ++ pseudosText (x :: l)) = .ok bs) :
    ∃ q, (piecesIn (Text.trimStart S ++ pseudosText (x :: l))).foldlM
        (Progress.step readAll .top) .start = .ok q ∧ q.endBranch .top = .ok bs := by
  obtain ⟨q, hq, hend⟩ := readAll_eq_ok.mp hread
  rw [trim_append_pseudosText, Text.trimStart_append h.trimStart_ne_nil] at hq
  exact ⟨q, hq, hend⟩

/-- A seed that pseudo-classes have been read behind is the first fragment of the branch. -/
theorem IsSeed.opens (h : IsSeed S f) {x : Name × Text} {l : List (Name × Text)}
    (hl : ∀ y ∈ x :: l, y.1.TakesBranches ∧ Inside.start.Fills y.2) {bs : List (List Node)}
    (hread : readAll .top (S ++ pseudosText (x :: l)) = .ok bs) :
    ∃ a, Opens .top (Text.trimStart S) f a := by
  obtain ⟨d, hrun, hnodes, rfl, hne, hlast, X, hX⟩ := h.exists_run
  obtain ⟨p, hstands, -⟩ := exists_stands_of_readAll (Selector.ofText_eq_ok.mp h.read) h.escape
  have hcolon := hstands.heldIn_ne_colon
  have hclosed := isClosed_of_run hstands.run
  -- the first of the pseudo-classes has cut off what was pending
  obtain ⟨q, hq, -⟩ := h.exists_run_pseudos hread
  rw [piecesIn_pseudos hclosed hstands.escape hcolon fun y hy => (hl y hy).2] at hq
  obtain ⟨mid, hmid, hq⟩ := foldlM_append_eq_ok.mp hq
  obtain rfl := Except.ok.inj (hmid.symm.trans hrun)
  obtain ⟨next, hstep, -⟩ := foldlM_cons_eq_ok.mp hq
  obtain ⟨d', hadd, rfl⟩ := step_pseudoPiece.mp hstep
  obtain ⟨-, -, cut, n, hcut, -, -⟩ := addExtended_eq_ok.mp hadd
  have hcut' := hcut
  rw [cutBeforeExtended_eq_ok hcut, cutText_eq_pending hne hlast hX hcut, if_neg hne, hnodes]
    at hcut'
  refine ⟨d.afterElement, fun c hc => ?_, hclosed, hstands.escape, hcolon, d, hrun, hnodes, rfl,
    hcut'⟩
  obtain ⟨r, hr⟩ := List.head?_eq_some_iff.mp hc
  exact Text.not_blank_of_trimStart hr

end Extended
end CosmeticFilter
