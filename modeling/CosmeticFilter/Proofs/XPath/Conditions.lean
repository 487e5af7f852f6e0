import CosmeticFilter.Proofs.XPath.Operands

/-!
# Reading conditions

The reader takes conditions apart in a loop, from the left, and nests no deeper than the text is
long. The grammar builds them up, with what comes last on top. What is read is written, by going
along the loop with what has been read before; what is written is read, by going through the
grammar with what may still be read behind. The reader passes over blanks where it looks for more,
so what it leaves and what follows agree up to blanks.

* `Standard.Expr.IsWritten.trimStart_ne_nil`: what is written is not empty;
* `Yields`, `yields_of_readDisjunction`: what is read is written;
* `AfterCondition`, `AfterConjunction`, `AfterDisjunction`: what may follow;
* `Reads`, `ReadsOn`, `reads_of_isWritten`: what is written is read.
-/

namespace CosmeticFilter
namespace XPath

open Standard (Term Expr Level)

/-- What the reader makes of an expression that is used as a condition. -/
def Standard.Expr.toCondition : Expr → Predicate
  | or p q => .or p.toCondition q.toCondition
  | and p q => .and p.toCondition q.toCondition
  | not p => .not p.toCondition
  | group p => p.toCondition
  | term a => .present a.toOperand
  | compare a equal b => .compare a.toOperand equal b.toOperand
  | contains a b => .contains a.toOperand b.toOperand
  | startsWith a b => .startsWith a.toOperand b.toOperand
  | position relation n => .position relation n
  | last => .last

/-- The text starts with an expression of this level that is read as the predicate, and what is
left differs from what follows the expression by blanks in front. -/
def Yields (level : Level) (t : Text) (p : Predicate) (left : Text) : Prop :=
  ∃ (e : Expr) (rest : Text), e.IsWritten level t rest ∧ e.toCondition = p ∧
    Text.trimStart left = Text.trimStart rest

/-- Blanks in front of what is left do not count. -/
theorem Yields.trimStart {level : Level} {t left : Text} {p : Predicate}
    (h : Yields level t p left) : Yields level t p (Text.trimStart left) := by
  obtain ⟨e, rest, he, hp, htrim⟩ := h
  exact ⟨e, rest, he, hp, (Text.trimStart_trimStart left).trans htrim⟩

/-! ### What is written is not empty -/

theorem Sign.trimStart_ne_nil {sign t rest : Text} (h : Sign sign t rest) (hne : sign ≠ []) :
    Text.trimStart t ≠ [] := by
  rw [h]
  exact List.append_ne_nil_of_left_ne_nil hne rest

theorem Standard.Term.IsWritten.trimStart_ne_nil {a : Term} {t rest : Text}
    (h : a.IsWritten t rest) : Text.trimStart t ≠ [] := by
  cases h with
  | named sign | text sign | self sign | string sign => exact sign.trimStart_ne_nil (by decide)
  | literal _ sign => exact sign.trimStart_ne_nil (List.cons_ne_nil _ _)
  | numeral numeral =>
    obtain ⟨c, r, heq, -⟩ := numeral.exists_digit
    rw [heq]
    exact List.cons_ne_nil c r

/-- A condition is not empty. -/
theorem Standard.Expr.IsWritten.trimStart_ne_nil {level : Level} {e : Expr} {t rest : Text}
    (h : e.IsWritten level t rest) : Text.trimStart t ≠ [] := by
  induction h with
  | group sign | not sign | last sign | position sign | contains sign | startsWith sign =>
    exact sign.trimStart_ne_nil (by decide)
  | term term => exact term.trimStart_ne_nil
  | equal left | differ left => exact left.trimStart_ne_nil
  | conjunct _ ih | disjunct _ ih | and _ _ _ ih | or _ _ _ ih => exact ih

/-! ### What is read is written -/

theorem sign_of_takeRelation {relation : Relation} {t rest : Text}
    (h : takeRelation t = (some relation, rest)) : Sign relation.sign t rest := by
  unfold takeRelation at h
  split at h
  iterate 6
    rename_i hhead
    obtain ⟨hrelation, rfl⟩ := Prod.mk.inj h
    obtain rfl := Option.some_inj.mp hrelation
    exact hhead
  cases h

theorem left_of_takeRelation {t left : Text} (h : takeRelation t = (none, left)) :
    left = Text.trimStart t := by
  unfold takeRelation at h
  split at h
  iterate 6 cases h
  exact (Prod.mk.inj h).2.symm

theorem yields_of_readPosition {s t left : Text} {p : Predicate}
    (hsign : Sign "position()".toList s t) (h : readPosition t = .ok (p, left)) :
    Yields .condition s p left := by
  rw [readPosition] at h
  split at h
  · cases h
  · rename_i relation r hrelation
    split at h
    · rename_i n rest hnumber
      obtain ⟨rfl, rfl⟩ := Prod.mk.inj (Except.ok.inj h)
      exact ⟨.position relation n, rest, .position hsign (sign_of_takeRelation hrelation)
        (takeNumber_eq_iff.mp hnumber), rfl, rfl⟩
    · cases h

theorem yields_of_readPair (join : Term → Term → Expr) {t s left : Text}
    {make : Operand → Operand → Predicate} {p : Predicate}
    (hwritten : ∀ {a b r u v rest}, a.IsWritten s r → Sign [','] r u → b.IsWritten u v →
      Sign [')'] v rest → (join a b).IsWritten .condition t rest)
    (hjoin : ∀ a b, (join a b).toCondition = make a.toOperand b.toOperand)
    (h : readPair make s = .ok (p, left)) : Yields .condition t p left := by
  obtain ⟨⟨first, r⟩, hfirst, h⟩ := Outcome.bind_eq_ok.mp h
  obtain ⟨u, hcomma, h⟩ := Outcome.bind_eq_ok.mp h
  obtain ⟨⟨second, v⟩, hsecond, h⟩ := Outcome.bind_eq_ok.mp h
  obtain ⟨rest, hclosing, h⟩ := Outcome.bind_eq_ok.mp h
  obtain ⟨rfl, rfl⟩ := Prod.mk.inj (Except.ok.inj h)
  obtain ⟨a, ha, rfl⟩ := exists_term_of_readOperand hfirst
  obtain ⟨b, hb, rfl⟩ := exists_term_of_readOperand hsecond
  exact ⟨join a b, rest, hwritten ha (readSign_eq_ok_iff.mp hcomma) hb
    (readSign_eq_ok_iff.mp hclosing), hjoin a b, rfl⟩

theorem yields_of_readComparison {t left : Text} {p : Predicate}
    (h : readComparison t = .ok (p, left)) : Yields .condition t p left := by
  obtain ⟨⟨o, s⟩, hleft, h⟩ := Outcome.bind_eq_ok.mp h
  obtain ⟨a, ha, rfl⟩ := exists_term_of_readOperand hleft
  dsimp only at h
  split at h
  · rename_i rest hrelation
    obtain ⟨rfl, rfl⟩ := Prod.mk.inj (Except.ok.inj h)
    refine ⟨.term a, s, .term ha, rfl, ?_⟩
    rw [left_of_takeRelation hrelation, Text.trimStart_trimStart]
  · rename_i relation r hrelation
    have hsign := sign_of_takeRelation hrelation
    split at h
    · rename_i hkind
      obtain ⟨⟨o, rest⟩, hright, h⟩ := Outcome.bind_eq_ok.mp h
      obtain ⟨b, hb, rfl⟩ := exists_term_of_readOperand hright
      obtain ⟨rfl, rfl⟩ := Prod.mk.inj (Except.ok.inj h)
      rcases hkind with rfl | rfl
      · exact ⟨.compare a true b, rest, .equal ha hsign hb, rfl, rfl⟩
      · exact ⟨.compare a false b, rest, .differ ha hsign hb, rfl, rfl⟩
    · cases h

/-- Blanks in front of a condition that is not in brackets do not count. -/
theorem readComparison_trimStart (t : Text) :
    readComparison (Text.trimStart t) = readComparison t := by
  rw [readComparison, readComparison, readOperand, readOperand, Text.trimStart_trimStart]

section Inner

variable {inner : Text → Except Stop (Predicate × Text)} {t left : Text} {p : Predicate}

theorem exists_of_readBrackets (make : Predicate → Predicate)
    (hinner : ∀ {t p left}, inner t = .ok (p, left) → Yields .disjunction t p left)
    (h : (do
      let (q, afterInner) ← inner t
      let rest ← readSign [')'] afterInner
      return (make q, rest)) = .ok (p, left)) :
    ∃ (e : Expr) (r : Text),
      e.IsWritten .disjunction t r ∧ Sign [')'] r left ∧ make e.toCondition = p := by
  obtain ⟨⟨q, u⟩, hread, h⟩ := Outcome.bind_eq_ok.mp h
  obtain ⟨rest, hclosing, h⟩ := Outcome.bind_eq_ok.mp h
  obtain ⟨rfl, rfl⟩ := Prod.mk.inj (Except.ok.inj h)
  obtain ⟨e, r, he, rfl, htrim⟩ := hinner hread
  exact ⟨e, r, he, (readSign_eq_ok_iff.mp hclosing).of_trimStart htrim, rfl⟩

theorem yields_of_readCondition
    (hinner : ∀ {t p left}, inner t = .ok (p, left) → Yields .disjunction t p left)
    (h : readCondition inner t = .ok (p, left)) : Yields .condition t p left := by
  rw [readCondition.eq_def] at h
  dsimp only at h
  split at h
  · rename_i r hlead
    obtain ⟨e, u, he, hclosing, rfl⟩ := exists_of_readBrackets id hinner h
    exact ⟨.group e, left, .group (dropLead?_eq_some_iff.mp hlead) he hclosing, rfl, rfl⟩
  split at h
  · rename_i r hlead
    obtain ⟨e, u, he, hclosing, rfl⟩ := exists_of_readBrackets .not hinner h
    exact ⟨.not e, left, .not (dropLead?_eq_some_iff.mp hlead) he hclosing, rfl, rfl⟩
  split at h
  · rename_i r hlead
    obtain ⟨rfl, rfl⟩ := Prod.mk.inj (Except.ok.inj h)
    exact ⟨.last, r, .last (dropLead?_eq_some_iff.mp hlead), rfl, rfl⟩
  split at h
  · rename_i r hlead
    exact yields_of_readPosition (dropLead?_eq_some_iff.mp hlead) h
  split at h
  · rename_i r hlead
    exact yields_of_readPair .contains
      (.contains (dropLead?_eq_some_iff.mp hlead)) (fun _ _ => rfl) h
  split at h
  · rename_i r hlead
    exact yields_of_readPair .startsWith
      (.startsWith (dropLead?_eq_some_iff.mp hlead)) (fun _ _ => rfl) h
  · rw [readComparison_trimStart] at h
    exact yields_of_readComparison h

end Inner

/-- Parts that are joined by a word are read one after the other, and group to the left. What has
been read before is what `before` makes of the next part. -/
theorem yields_of_readJoined (before : Predicate → Predicate) {low high : Level} {word : Text}
    {join : Predicate → Predicate → Predicate} {part : Text → Except Stop (Predicate × Text)}
    (hpart : ∀ {t p left}, part t = .ok (p, left) → Yields low t p left)
    (hjoin : ∀ {t s p r}, Yields high t p s → Word word s r →
      ∀ {q left}, Yields low r q left → Yields high t (join p q) left)
    {t left : Text} {p : Predicate} {ps : List Predicate}
    (h : readJoined word part t = .ok ((p, ps), left)) {start : Text}
    (hstart : ∀ {q left}, Yields low t q left → Yields high start (before q) left) :
    Yields high start (ps.foldl join (before p)) left := by
  induction hlength : t.length using Nat.strongRecOn generalizing t p ps before with
  | _ n ih =>
    subst hlength
    rw [readJoined] at h
    split at h
    · cases h
    · rename_i q r hread
      have hfirst := hstart (hpart hread)
      split at h
      · obtain ⟨hp, rfl⟩ := Prod.mk.inj (Except.ok.inj h)
        obtain ⟨rfl, rfl⟩ := Prod.mk.inj hp
        exact hfirst.trimStart
      · rename_i u hword
        split at h
        · rename_i hlt
          obtain ⟨⟨⟨q', qs⟩, left'⟩, hmore, h⟩ := Outcome.map_eq_ok.mp h
          obtain ⟨hp, rfl⟩ := Prod.mk.inj h
          obtain ⟨rfl, rfl⟩ := Prod.mk.inj hp
          exact ih u.length hlt (join (before q)) hmore
            (hjoin hfirst (dropWord?_eq_some_iff.mp hword)) rfl
        · cases h

theorem yields_of_readConjunction {inner : Text → Except Stop (Predicate × Text)}
    (hinner : ∀ {t p left}, inner t = .ok (p, left) → Yields .disjunction t p left)
    {t left : Text} {p : Predicate} (h : readConjunction inner t = .ok (p, left)) :
    Yields .conjunction t p left := by
  obtain ⟨⟨⟨q, qs⟩, left'⟩, hread, h⟩ := Outcome.map_eq_ok.mp h
  obtain ⟨rfl, rfl⟩ := Prod.mk.inj h
  refine yields_of_readJoined id (yields_of_readCondition hinner) ?_ hread ?_
  · rintro t s p r ⟨e, rest, he, rfl, htrim⟩ hword q left ⟨e', rest', he', rfl, htrim'⟩
    exact ⟨.and e e', rest', .and he (hword.of_trimStart htrim) he', rfl, htrim'⟩
  · rintro q left ⟨e, rest, he, heq⟩
    exact ⟨e, rest, .conjunct he, heq⟩

/-- What is read as a condition is one. -/
theorem yields_of_readDisjunction {depth : Nat} {t left : Text} {p : Predicate}
    (h : readDisjunction depth t = .ok (p, left)) : Yields .disjunction t p left := by
  induction depth generalizing t left p with
  | zero => cases h
  | succ depth ih =>
    obtain ⟨⟨⟨q, qs⟩, left'⟩, hread, h⟩ := Outcome.map_eq_ok.mp h
    obtain ⟨rfl, rfl⟩ := Prod.mk.inj h
    refine yields_of_readJoined id (yields_of_readConjunction ih) ?_ hread ?_
    · rintro t s p r ⟨e, rest, he, rfl, htrim⟩ hword q left ⟨e', rest', he', rfl, htrim'⟩
      exact ⟨.or e e', rest', .or he (hword.of_trimStart htrim) he', rfl, htrim'⟩
    · rintro q left ⟨e, rest, he, heq⟩
      exact ⟨e, rest, .disjunct he, heq⟩

/-! ### What is written is read -/

/-- The reader comes to the predicate, and what it leaves differs from `rest` by blanks in front. -/
def Reads (read : Text → Except Stop (Predicate × Text)) (t : Text) (p : Predicate) (rest : Text) :
    Prop :=
  ∃ left, read t = .ok (p, left) ∧ Text.trimStart left = Text.trimStart rest

/-- No comparison goes on here. -/
def AfterCondition (t : Text) : Prop := takeRelation t = (none, Text.trimStart t)

/-- No conjunction goes on here. -/
def AfterConjunction (t : Text) : Prop := AfterCondition t ∧ ∀ r, ¬ Word "and".toList t r

/-- No disjunction goes on here. -/
def AfterDisjunction (t : Text) : Prop := AfterConjunction t ∧ ∀ r, ¬ Word "or".toList t r

theorem Word.afterCondition {t r : Text} (h : Word "and".toList t r) : AfterCondition t := by
  rw [AfterCondition, takeRelation, h.sign]
  rfl

theorem Word.afterConjunction {t r : Text} (h : Word "or".toList t r) : AfterConjunction t := by
  constructor
  · rw [AfterCondition, takeRelation, h.sign]
    rfl
  · intro u hand
    have heq := hand.sign.symm.trans h.sign
    exact absurd (List.cons.inj heq).1 (by decide)

theorem Sign.afterDisjunction {c : Char} (hc : c = ')' ∨ c = ']') {t r : Text} (h : Sign [c] t r) :
    AfterDisjunction t := by
  refine ⟨⟨?_, fun u hand => ?_⟩, fun u hor => ?_⟩
  · rcases hc with rfl | rfl
    · rw [AfterCondition, takeRelation, h]
      rfl
    · rw [AfterCondition, takeRelation, h]
      rfl
  · have heq := hand.sign.symm.trans h
    obtain rfl := (List.cons.inj heq).1
    exact absurd hc (by decide)
  · have heq := hor.sign.symm.trans h
    obtain rfl := (List.cons.inj heq).1
    exact absurd hc (by decide)

/-- A comparison is read whole if no sign that it could start is taken for it. -/
theorem takeRelation_of_sign {relation : Relation} {t rest : Text} (h : Sign relation.sign t rest)
    (hrest : relation = .eq ∨ relation = .ne ∨ rest.head? ≠ some '=') :
    takeRelation t = (some relation, rest) := by
  rw [takeRelation, h]
  cases relation with
  | eq | ne | le | ge => rfl
  | lt | gt =>
    have hne : ∀ r, rest ≠ '=' :: r := fun r heq => by simp [heq] at hrest
    split <;> simp_all [Relation.sign]

/-- A term does not start like a condition of another kind. -/
theorem readCondition_of_term {inner : Text → Except Stop (Predicate × Text)} {a : Term}
    {t rest : Text} (h : a.IsWritten t rest) : readCondition inner t = readComparison t := by
  rw [← readComparison_trimStart, readCondition.eq_def]
  cases h with
  | named sign => rw [sign]; rfl
  | text sign => rw [sign]; rfl
  | self sign => rw [sign]; rfl
  | string sign => rw [sign]; rfl
  | literal quotes sign =>
    rw [sign]
    rcases quotes with rfl | rfl <;> rfl
  | numeral numeral =>
    obtain ⟨c, r, hhead, hdigit⟩ := numeral.exists_digit
    have hnone : ∀ {a : Char} (lead : Text), a.isDigit = false →
        Text.dropLead? (a :: lead) (c :: r) = none := fun lead ha =>
      dropLead?_eq_none fun heq => by
        rw [heq, hdigit] at ha
        cases ha
    rw [hhead]
    have hgroup : Text.dropLead? "(".toList (c :: r) = none := hnone (a := '(') _ rfl
    have hnot : Text.dropLead? "not(".toList (c :: r) = none := hnone (a := 'n') _ rfl
    have hlast : Text.dropLead? "last()".toList (c :: r) = none := hnone (a := 'l') _ rfl
    have hposition : Text.dropLead? "position()".toList (c :: r) = none := hnone (a := 'p') _ rfl
    have hcontains : Text.dropLead? "contains(".toList (c :: r) = none := hnone (a := 'c') _ rfl
    have hstarts : Text.dropLead? "starts-with(".toList (c :: r) = none := hnone (a := 's') _ rfl
    simp only [hgroup, hnot, hlast, hposition, hcontains, hstarts]

theorem reads_term {inner : Text → Except Stop (Predicate × Text)} {a : Term} {t rest : Text}
    (h : a.IsWritten t rest) (hrest : AfterCondition rest) :
    Reads (readCondition inner) t (.present a.toOperand) rest := by
  refine ⟨Text.trimStart rest, ?_, Text.trimStart_trimStart rest⟩
  rw [readCondition_of_term h]
  refine Outcome.bind_eq_ok.mpr ⟨_, readOperand_of_isWritten h, ?_⟩
  dsimp only
  rw [hrest]
  rfl

theorem reads_compare {inner : Text → Except Stop (Predicate × Text)} {a b : Term}
    {relation : Relation} {t s r rest : Text} (hkind : relation = .eq ∨ relation = .ne)
    (hleft : a.IsWritten t s) (hsign : Sign relation.sign s r) (hright : b.IsWritten r rest) :
    Reads (readCondition inner) t (.compare a.toOperand (relation == .eq) b.toOperand) rest := by
  refine ⟨rest, ?_, rfl⟩
  rw [readCondition_of_term hleft]
  refine Outcome.bind_eq_ok.mpr ⟨_, readOperand_of_isWritten hleft, ?_⟩
  dsimp only
  rw [takeRelation_of_sign hsign (hkind.imp_right .inl)]
  dsimp only
  rw [if_pos hkind]
  exact Outcome.bind_eq_ok.mpr ⟨_, readOperand_of_isWritten hright, rfl⟩

theorem reads_position {inner : Text → Except Stop (Predicate × Text)} {relation : Relation}
    {n : Nat} {t s r rest : Text} (hsign : Sign "position()".toList t s)
    (hrelation : Sign relation.sign s r) (hnumeral : Numeral n (Text.trimStart r) rest) :
    Reads (readCondition inner) t (.position relation n) rest := by
  have hdigit : r.head? ≠ some '=' := by
    rintro hhead
    obtain ⟨u, rfl⟩ := List.head?_eq_some_iff.mp hhead
    obtain ⟨c, v, hcons, hc⟩ := hnumeral.exists_digit
    obtain rfl := (List.cons.inj hcons).1
    cases hc
  refine ⟨rest, ?_, rfl⟩
  rw [readCondition.eq_def, hsign]
  show readPosition s = _
  rw [readPosition, takeRelation_of_sign hrelation (.inr (.inr hdigit))]
  dsimp only
  rw [takeNumber_eq_iff.mpr hnumeral]

theorem readPair_of_isWritten {make : Operand → Operand → Predicate} {a b : Term}
    {s r u v rest : Text} (hfirst : a.IsWritten s r) (hcomma : Sign [','] r u)
    (hsecond : b.IsWritten u v) (hclosing : Sign [')'] v rest) :
    readPair make s = .ok (make a.toOperand b.toOperand, rest) :=
  Outcome.bind_eq_ok.mpr ⟨_, readOperand_of_isWritten hfirst, Outcome.bind_eq_ok.mpr
    ⟨_, readSign_eq_ok_iff.mpr hcomma, Outcome.bind_eq_ok.mpr
      ⟨_, readOperand_of_isWritten hsecond, Outcome.bind_eq_ok.mpr
        ⟨_, readSign_eq_ok_iff.mpr hclosing, rfl⟩⟩⟩⟩

theorem reads_brackets (make : Predicate → Predicate)
    {inner : Text → Except Stop (Predicate × Text)} {p : Predicate} {t r rest : Text}
    (hinner : Reads inner t p r) (hclosing : Sign [')'] r rest) :
    (do
      let (q, afterInner) ← inner t
      let rest ← readSign [')'] afterInner
      return (make q, rest)) = .ok (make p, rest) := by
  obtain ⟨left, hread, htrim⟩ := hinner
  exact Outcome.bind_eq_ok.mpr ⟨_, hread, Outcome.bind_eq_ok.mpr
    ⟨rest, readSign_eq_ok_iff.mpr (hclosing.of_trimStart htrim.symm), rfl⟩⟩

/-! ### Joined parts -/

/-- From `t` to `rest` the parts of `p` are read, and whatever is read behind a word at `rest` is
joined to them. -/
def ReadsOn (word : Text) (join : Predicate → Predicate → Predicate)
    (part : Text → Except Stop (Predicate × Text)) (t : Text) (p : Predicate) (rest : Text) :
    Prop :=
  ∃ (q : Predicate) (qs : List Predicate), p = qs.foldl join q ∧
    ((∀ u, ¬ Word word rest u) →
      readJoined word part t = .ok ((q, qs), Text.trimStart rest)) ∧
    ∀ u r rs left, Word word rest u → readJoined word part u = .ok ((r, rs), left) →
      readJoined word part t = .ok ((q, qs ++ r :: rs), left)

section Joined

variable {word t s u rest : Text} {join : Predicate → Predicate → Predicate}
  {part : Text → Except Stop (Predicate × Text)} {p q : Predicate}

theorem readJoined_end (h : Reads part t p rest) (hend : ∀ u, ¬ Word word rest u) :
    readJoined word part t = .ok ((p, []), Text.trimStart rest) := by
  obtain ⟨left, hread, htrim⟩ := h
  rw [readJoined, hread]
  dsimp only
  rw [htrim]
  cases hdrop : dropWord? word (Text.trimStart rest) with
  | none => rfl
  | some u => exact absurd (dropWord?_eq_some_iff.mp hdrop) (hend u)

theorem readJoined_on (h : Reads part t p rest) (hne : word ≠ []) (hlength : rest.length ≤ t.length)
    (hword : Word word rest u) {qs : List Predicate} {left : Text}
    (hmore : readJoined word part u = .ok ((q, qs), left)) :
    readJoined word part t = .ok ((p, q :: qs), left) := by
  obtain ⟨behind, hread, htrim⟩ := h
  have hlt : u.length < t.length := by
    have hpos := List.length_pos_of_ne_nil hne
    have hle := hword.sign.length_add_le
    omega
  rw [readJoined, hread]
  dsimp only
  rw [htrim, dropWord?_eq_some_iff.mpr hword]
  dsimp only
  rw [if_pos hlt, hmore]
  rfl

theorem ReadsOn.single (h : Reads part t p rest) (hne : word ≠ [])
    (hlength : rest.length ≤ t.length) : ReadsOn word join part t p rest :=
  ⟨p, [], rfl, readJoined_end h, fun _ _ _ _ hword hmore => readJoined_on h hne hlength hword hmore⟩

theorem ReadsOn.more (h : ReadsOn word join part t p s) (hword : Word word s u) (hne : word ≠ [])
    (hpart : Reads part u q rest) (hlength : rest.length ≤ u.length) :
    ReadsOn word join part t (join p q) rest := by
  obtain ⟨r, rs, rfl, -, hon⟩ := h
  refine ⟨r, rs ++ [q], by rw [List.foldl_append]; rfl,
    fun hend => hon u q [] _ hword (readJoined_end hpart hend),
    fun v r' rs' left hword' hmore => ?_⟩
  rw [List.append_assoc]
  exact hon u q (r' :: rs') left hword (readJoined_on hpart hne hlength hword' hmore)

end Joined

theorem ReadsOn.reads_conjunction {inner : Text → Except Stop (Predicate × Text)} {t rest : Text}
    {p : Predicate} (h : ReadsOn "and".toList .and (readCondition inner) t p rest)
    (hend : ∀ u, ¬ Word "and".toList rest u) : Reads (readConjunction inner) t p rest := by
  obtain ⟨q, qs, rfl, hread, -⟩ := h
  exact ⟨Text.trimStart rest, Outcome.map_eq_ok.mpr ⟨_, hread hend, rfl⟩,
    Text.trimStart_trimStart rest⟩

theorem ReadsOn.reads_disjunction {depth : Nat} {t rest : Text} {p : Predicate}
    (h : ReadsOn "or".toList .or (readConjunction (readDisjunction depth)) t p rest)
    (hend : ∀ u, ¬ Word "or".toList rest u) : Reads (readDisjunction (depth + 1)) t p rest := by
  obtain ⟨q, qs, rfl, hread, -⟩ := h
  exact ⟨Text.trimStart rest, Outcome.map_eq_ok.mpr ⟨_, hread hend, rfl⟩,
    Text.trimStart_trimStart rest⟩

/-! ### All levels -/

/-- What it is for an expression of a level to be read, with brackets nested at most `depth` deep
in its parts. -/
def IsRead (depth : Nat) (t : Text) (p : Predicate) (rest : Text) : Level → Prop
  | .condition => AfterCondition rest → Reads (readCondition (readDisjunction depth)) t p rest
  | .conjunction =>
    AfterCondition rest → ReadsOn "and".toList .and (readCondition (readDisjunction depth)) t p rest
  | .disjunction =>
    AfterConjunction rest →
      ReadsOn "or".toList .or (readConjunction (readDisjunction depth)) t p rest

/-- Nothing in brackets is as long as the text that they stand in. -/
theorem reads_inner {depth : Nat} {sign t s r rest : Text} {e : Expr} (hsign : Sign sign t s)
    (hne : sign ≠ []) (hdepth : t.length ≤ depth) (hclosing : Sign [')'] r rest)
    (ih : ∀ depth, s.length ≤ depth → IsRead depth s e.toCondition r .disjunction) :
    Reads (readDisjunction depth) s e.toCondition r := by
  have hpos := List.length_pos_of_ne_nil hne
  have hle := hsign.length_add_le
  obtain ⟨k, rfl⟩ : ∃ k, depth = k + 1 := ⟨depth - 1, by omega⟩
  have hends := hclosing.afterDisjunction (.inl rfl)
  exact (ih k (by omega) hends.1).reads_disjunction hends.2

theorem isRead_of_isWritten {level : Level} {e : Expr} {t rest : Text}
    (h : e.IsWritten level t rest) :
    ∀ depth, t.length ≤ depth → IsRead depth t e.toCondition rest level := by
  induction h with
  | @group e t s r rest opening inner closing ih =>
    intro depth hdepth _
    refine ⟨rest, ?_, rfl⟩
    rw [readCondition.eq_def, opening]
    exact reads_brackets id (reads_inner opening (by decide) hdepth closing ih) closing
  | @not e t s r rest opening inner closing ih =>
    intro depth hdepth _
    refine ⟨rest, ?_, rfl⟩
    rw [readCondition.eq_def, opening]
    exact reads_brackets .not (reads_inner opening (by decide) hdepth closing ih) closing
  | @last t rest sign =>
    intro depth _ _
    refine ⟨rest, ?_, rfl⟩
    rw [readCondition.eq_def, sign]
    rfl
  | position sign comparison numeral => exact fun _ _ _ => reads_position sign comparison numeral
  | @contains a b t s r u v rest opening first comma second closing =>
    intro depth _ _
    refine ⟨rest, ?_, rfl⟩
    rw [readCondition.eq_def, opening]
    exact readPair_of_isWritten first comma second closing
  | @startsWith a b t s r u v rest opening first comma second closing =>
    intro depth _ _
    refine ⟨rest, ?_, rfl⟩
    rw [readCondition.eq_def, opening]
    exact readPair_of_isWritten first comma second closing
  | term term => exact fun _ _ hrest => reads_term term hrest
  | equal left comparison right =>
    exact fun _ _ _ => reads_compare (.inl rfl) left comparison right
  | differ left comparison right =>
    exact fun _ _ _ => reads_compare (.inr rfl) left comparison right
  | conjunct part ih =>
    exact fun depth hdepth hrest =>
      .single (ih depth hdepth hrest) (by decide) part.suffix.length_le
  | and left word right ihleft ihright =>
    intro depth hdepth hrest
    refine (ihleft depth hdepth word.afterCondition).more word (by decide)
      (ihright depth ?_ hrest) right.suffix.length_le
    exact (word.sign.suffix.trans left.suffix).length_le.trans hdepth
  | disjunct part ih =>
    exact fun depth hdepth hrest =>
      .single ((ih depth hdepth hrest.1).reads_conjunction hrest.2) (by decide)
        part.suffix.length_le
  | or left word right ihleft ihright =>
    intro depth hdepth hrest
    refine (ihleft depth hdepth word.afterConjunction).more word (by decide)
      ((ihright depth ?_ hrest.1).reads_conjunction hrest.2) right.suffix.length_le
    exact (word.sign.suffix.trans left.suffix).length_le.trans hdepth

/-- An expression is read as a condition where no disjunction goes on. -/
theorem reads_of_isWritten {e : Expr} {t rest : Text} (h : e.IsWritten .disjunction t rest)
    (hrest : AfterDisjunction rest) {depth : Nat} (hdepth : t.length < depth) :
    Reads (readDisjunction depth) t e.toCondition rest := by
  obtain ⟨k, rfl⟩ : ∃ k, depth = k + 1 := ⟨depth - 1, by omega⟩
  exact (isRead_of_isWritten h k (by omega) hrest.1).reads_disjunction hrest.2

end XPath
end CosmeticFilter
