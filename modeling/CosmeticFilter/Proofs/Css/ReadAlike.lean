import CosmeticFilter.Proofs.Css.Brackets
import CosmeticFilter.Proofs.Css.GoingOn
import CosmeticFilter.Proofs.Extended.Squeezed

/-!
# Reading a squeezed text

The copy of a native selector, its runs of blanks shortened, is read like the selector, provided
that both readers agree on what is a group and what is a blank. They do not always: the reader of
selectors opens a quote behind any character of an argument, takes a blank outside ASCII for a
character of a name, and lets an escape end with a blank that the copier counts as one between two
names.

* `isReadAlike`: both readers cut the text in the same way;
* `takeIdent_squeeze`, `readSimple_squeeze`, `readConditions_squeeze`: names, conditions and
  compounds;
* `readChain_squeeze`: whole selectors.
-/

namespace CosmeticFilter
namespace Css

open Extended (Group groupContent squeeze squeeze_plain squeeze_blank squeeze_escape head?_squeeze
  squeeze_congr trimStart_squeeze)

/-- The text starts with a blank that a name takes for one of its characters. -/
def startsNameBlank (t : Text) : Bool := t.head?.any fun c => Text.isBlank c && isIdentChar c

/-- The text starts with blanks, and they lead to a descendant. -/
def descends (t : Text) : Bool :=
  t.head?.any Text.isBlank && (Text.trimStart t).head?.any fun c => !isCombinator c

/-- The copy of an escape, which stands behind its backslash, ends with a space. -/
def endsInSpace (t : Text) : Bool :=
  match (t.take 6).takeWhile isHexDigit with
  | [] => t.head? == some ' '
  | digits => (t.drop digits.length).head?.any Text.isBlank

/-- A name may start behind the character, or go on there. -/
def isBeforeName (c : Char) : Bool := isIdentChar c || c == '.' || c == '#' || c == ':'

/-- The reader of selectors finds the same groups in round brackets as the reader of chunks, takes
no blank for a character of a name, and no blank that leads to a descendant stands behind the space
of an escape. -/
def isReadAlike : Text → Bool
  | [] => true
  | c :: r =>
    if c = '\\' then
      !startsNameBlank (takeEscape r).2 && !(endsInSpace r && descends (takeEscape r).2) &&
        isReadAlike (takeEscape r).2
    else match Group.ofMark? c with
      | some g =>
        let inside := groupContent g ⟨0, none, c⟩ r
        (g != .parens ||
            takeArgument? .top r == inside.2.head?.map fun _ => (inside.1, inside.2.tail)) &&
          isReadAlike inside.2.tail
      | none => !(isBeforeName c && !Text.isBlank c && startsNameBlank r) && isReadAlike r
termination_by t => t.length
decreasing_by
  all_goals
    simp only [List.length_cons, List.length_tail]
    try have := length_takeEscape_snd_le r
    try have := Extended.length_groupContent_snd_le g ⟨0, none, c⟩ r
    omega

variable {b : Bool} {c : Char} {r t : Text}

/-! ### The parts of a text -/

theorem isReadAlike_escape (h : isReadAlike ('\\' :: r) = true) :
    startsNameBlank (takeEscape r).2 = false ∧
      (endsInSpace r = true → descends (takeEscape r).2 = false) ∧
      isReadAlike (takeEscape r).2 = true := by
  rw [isReadAlike, if_pos rfl] at h
  simp only [Bool.and_eq_true, Bool.not_eq_true', Bool.and_eq_false_iff] at h
  exact ⟨h.1.1, fun hspace => h.1.2.resolve_left (by rw [hspace]; simp), h.2⟩

theorem isReadAlike_plain (hc : c ≠ '\\') (hopen : Group.ofMark? c = none)
    (h : isReadAlike (c :: r) = true) :
    (isBeforeName c = true → Text.isBlank c = false → startsNameBlank r = false) ∧
      isReadAlike r = true := by
  rw [isReadAlike, if_neg hc, hopen] at h
  simp only [Bool.and_eq_true, Bool.not_eq_true', Bool.and_eq_false_iff,
    Bool.not_eq_false'] at h
  refine ⟨fun hname hblank => ?_, h.2⟩
  rcases h.1 with (hnot | hnot) | hnot
  · rw [hname] at hnot
    exact absurd hnot (by simp)
  · rw [hblank] at hnot
    exact absurd hnot (by simp)
  · exact hnot

theorem isReadAlike_group {g : Group} (hc : c ≠ '\\') (hopen : Group.ofMark? c = some g)
    (h : isReadAlike (c :: r) = true) :
    (g = .parens → takeArgument? .top r = (groupContent g ⟨0, none, c⟩ r).2.head?.map fun _ =>
        ((groupContent g ⟨0, none, c⟩ r).1, (groupContent g ⟨0, none, c⟩ r).2.tail)) ∧
      isReadAlike (groupContent g ⟨0, none, c⟩ r).2.tail = true := by
  rw [isReadAlike, if_neg hc, hopen] at h
  simp only [Bool.and_eq_true, Bool.or_eq_true, bne_iff_ne, beq_iff_eq] at h
  exact ⟨fun hg => h.1.resolve_left (not_not_intro hg), h.2⟩

theorem plain_of_isIdentChar (h : isIdentChar c = true) : c ≠ '\\' ∧ Group.ofMark? c = none := by
  have hne : ∀ d, isIdentChar d = false → c ≠ d := by
    rintro d hd rfl
    rw [h] at hd
    exact absurd hd (by simp)
  refine ⟨hne _ (by decide), ?_⟩
  rw [Group.ofMark?, if_neg (hne _ (by decide)), if_neg (hne _ (by decide)), if_neg]
  rintro (hc | hc)
  · exact hne '"' (by decide) hc
  · exact hne '\'' (by decide) hc

theorem not_blank_of_startsNameBlank (hident : isIdentChar c = true)
    (h : startsNameBlank (c :: r) = false) : Text.isBlank c = false := by
  simpa [startsNameBlank, hident] using h

theorem startsNameBlank_of_not_blank (h : ∀ c ∈ t.head?, Text.isBlank c = false) :
    startsNameBlank t = false := by
  cases t with
  | nil => rfl
  | cons c r => simp [startsNameBlank, h c rfl]

theorem descends_of_not_blank (h : ∀ c ∈ t.head?, Text.isBlank c = false) :
    descends t = false := by
  cases t with
  | nil => rfl
  | cons c r => simp [descends, h c rfl]

theorem not_blank_of_isHexDigit (h : isHexDigit c = true) : Text.isBlank c = false := by
  have hrange : 48 ≤ c.toNat ∧ c.toNat ≤ 102 := by
    simp only [isHexDigit, Char.isDigit, Bool.or_eq_true, Bool.and_eq_true, decide_eq_true_eq,
      Char.le_def, UInt32.le_iff_toNat_le, ge_iff_le] at h
    have hval : c.val.toNat = c.toNat := rfl
    have hzero : ('0' : Char).val.toNat = 48 := rfl
    have hnine : ('9' : Char).val.toNat = 57 := rfl
    have ha : ('a' : Char).val.toNat = 97 := rfl
    have hf : ('f' : Char).val.toNat = 102 := rfl
    have hA : ('A' : Char).val.toNat = 65 := rfl
    have hF : ('F' : Char).val.toNat = 70 := rfl
    omega
  cases hblank : Text.isBlank c with
  | false => rfl
  | true =>
    simp only [Text.isBlank, Bool.or_eq_true, Bool.and_eq_true, decide_eq_true_eq, beq_iff_eq]
      at hblank
    omega

theorem isCombinator_cases (h : isCombinator c = true) : c = '>' ∨ c = '+' ∨ c = '~' := by
  simpa [isCombinator, or_assoc] using h

/-- The copy starts with the first character of the text, with a space, or, where blanks are left
out, with a combinator. -/
theorem mem_head?_squeeze (hb : b = true → descends t = false) :
    ∀ d ∈ (squeeze b t).head?,
      (d ∈ t.head? ∧ Text.isBlank d = false) ∨ d = ' ' ∨ isCombinator d = true := by
  intro d hd
  cases t with
  | nil => exact absurd hd (by simp)
  | cons c r =>
    cases hc : Text.isBlank c with
    | false =>
      have hhead : ∀ e ∈ (c :: r).head?, Text.isBlank e = false := fun e he => by
        rw [← Option.some_inj.mp he]
        exact hc
      rw [head?_squeeze hhead] at hd
      exact Or.inl ⟨hd, hhead d hd⟩
    | true =>
      cases b with
      | false =>
        rw [squeeze_blank hc] at hd
        exact Or.inr (Or.inl (Option.some_inj.mp hd).symm)
      | true =>
        -- no blank is copied, so the copy starts behind the blanks
        have hcopy : (squeeze true (c :: r)).head? = (Text.trimStart (c :: r)).head? := by
          have hnot : ∀ e ∈ (Text.trimStart (c :: r)).head?, Text.isBlank e = false := by
            intro e he
            obtain ⟨u, hu⟩ := List.head?_eq_some_iff.mp (Option.mem_def.mp he)
            exact Text.not_blank_of_trimStart hu
          rw [← head?_squeeze hnot true, Extended.squeeze_trimStart]
        rw [hcopy] at hd
        have hdescends := hb rfl
        simp only [descends, List.head?_cons, Option.any_some, hc, Bool.true_and] at hdescends
        rw [Option.mem_def.mp hd, Option.any_some, Bool.not_eq_false'] at hdescends
        exact Or.inr (Or.inr hdescends)

/-! ### Names -/

/-- Digits are copied. -/
theorem squeeze_digits {ds : Text} (hds : ∀ c ∈ ds, isHexDigit c = true) (v : Text) :
    squeeze false (ds ++ v) = ds ++ squeeze false v := by
  induction ds with
  | nil => rfl
  | cons d ds ih =>
    obtain ⟨hd, hds⟩ := List.forall_mem_cons.mp hds
    obtain ⟨hne, hopen⟩ := plain_of_isIdentChar (isIdentChar_of_isHexDigit hd)
    rw [List.cons_append, squeeze_plain hne (not_blank_of_isHexDigit hd) hopen, ih hds,
      List.cons_append]

/-- The copy of an escape is the escape, a space in it for a blank. -/
theorem takeEscape_squeeze (b : Bool) (r : Text) :
    ∃ r', squeeze b ('\\' :: r) = '\\' :: r' ∧
      takeEscape r' = ((takeEscape r).1, squeeze (endsInSpace r) (takeEscape r).2) := by
  rcases escape_cases r with rfl | ⟨c, u, rfl, hc⟩ | ⟨d, ds, v, rfl, hds, hlength, hv⟩
  · exact ⟨[], by simp, by simp [takeEscape]⟩
  · refine ⟨c :: squeeze (c == ' ') u, squeeze_escape .., ?_⟩
    have hspace : endsInSpace (c :: u) = (c == ' ') := by
      rw [endsInSpace, List.take_succ_cons, List.takeWhile_cons_of_neg (by simp [hc])]
      rfl
    rw [takeEscape_cons hc, takeEscape_cons hc, hspace]
  · have hdigit := hds d (List.mem_cons_self ..)
    have hd : (d == ' ') = false := by
      rw [beq_eq_false_iff_ne]
      rintro rfl
      exact absurd hdigit (by decide)
    have hspace : endsInSpace (d :: ds ++ v) = v.head?.any Text.isBlank := by
      rw [endsInSpace, takeWhile_digits hds hlength hv]
      simp only [List.drop_left]
    have hcopy : squeeze b ('\\' :: (d :: ds ++ v)) = '\\' :: (d :: ds ++ squeeze false v) := by
      rw [List.cons_append, squeeze_escape, hd,
        squeeze_digits fun c hc => hds c (List.mem_cons_of_mem _ hc), List.cons_append]
    refine ⟨d :: ds ++ squeeze false v, hcopy, ?_⟩
    rw [takeEscape_digits hds hlength hv, hspace]
    cases v with
    | nil => rw [Extended.squeeze_nil, takeEscape_digits hds hlength hv]; simp [dropOneBlank]
    | cons e v =>
      cases he : Text.isBlank e with
      | true =>
        have hhead : (d :: ds).length = 6 ∨ ∀ c ∈ (' ' :: squeeze true v).head?,
            isHexDigit c = false := Or.inr fun c hc => by
          rw [← Option.some_inj.mp hc]
          decide
        rw [squeeze_blank he, if_neg Bool.false_ne_true, List.singleton_append,
          takeEscape_digits hds hlength hhead, dropOneBlank, if_pos (by decide), dropOneBlank,
          if_pos he, List.head?_cons, Option.any_some, he]
      | false =>
        have hnot : ∀ c ∈ (e :: v).head?, Text.isBlank c = false := fun c hc => by
          rw [← Option.some_inj.mp hc]
          exact he
        have hhead := head?_squeeze hnot false
        rw [takeEscape_digits hds hlength (by rw [hhead]; exact hv),
          dropOneBlank_of_not_blank (by rw [hhead]; exact hnot), dropOneBlank_of_not_blank hnot,
          List.head?_cons, Option.any_some, he]

theorem takeIdent_of_head {w : Text} (h : ∀ c ∈ w.head?, isIdentChar c = false ∧ c ≠ '\\') :
    takeIdent w = ([], w) := by
  cases w with
  | nil => rw [takeIdent]
  | cons c r =>
    obtain ⟨hident, hescape⟩ := h c rfl
    rw [takeIdent_cons hescape, if_neg (by rw [hident]; exact Bool.false_ne_true)]

theorem takeIdent_append {w : Text} (hw : ∀ c ∈ w, isIdentChar c = true) (z : Text) :
    takeIdent (w ++ z) = (w ++ (takeIdent z).1, (takeIdent z).2) := by
  induction w with
  | nil => rfl
  | cons c w ih =>
    obtain ⟨hc, hw⟩ := List.forall_mem_cons.mp hw
    rw [List.cons_append, takeIdent_cons (plain_of_isIdentChar hc).1, if_pos hc, ih hw]
    rfl

/-- The copy is left with a copy of the rest, which leads to a descendant only behind a space. -/
structure Leaves (u w : Text) : Prop where
  /-- The rest of the copy. -/
  copy : ∃ b, w = squeeze b u ∧ (b = true → descends u = false)
  /-- The rest of the text. -/
  alike : isReadAlike u = true

theorem takeIdent_squeeze (ht : isReadAlike t = true) (hstart : startsNameBlank t = false)
    (hb : b = true → descends t = false) :
    (takeIdent (squeeze b t)).1 = (takeIdent t).1 ∧
      Leaves (takeIdent t).2 (takeIdent (squeeze b t)).2 := by
  fun_induction takeIdent t generalizing b with
  | case1 =>
    rw [Extended.squeeze_nil, takeIdent]
    exact ⟨rfl, ⟨b, by simp, fun _ => rfl⟩, ht⟩
  | case2 r ih =>
    obtain ⟨hstart', hdescends, halike⟩ := isReadAlike_escape ht
    obtain ⟨r', hcopy, hescape⟩ := takeEscape_squeeze b r
    obtain ⟨hname, hleaves⟩ := ih halike hstart' hdescends
    rw [hcopy, takeIdent_backslash, hescape]
    simp only [Text.onto_fst, Text.onto_snd]
    exact ⟨by rw [hname], hleaves⟩
  | case3 c r hc hident ih =>
    have hblank := not_blank_of_startsNameBlank hident hstart
    obtain ⟨-, hopen⟩ := plain_of_isIdentChar hident
    obtain ⟨hnext, halike⟩ := isReadAlike_plain hc hopen ht
    obtain ⟨hname, hleaves⟩ := ih (b := false) halike
      (hnext (by simp [isBeforeName, hident]) hblank) (fun h => absurd h (by simp))
    rw [squeeze_plain hc hblank hopen, takeIdent_cons hc, if_pos hident]
    simp only [Text.onto_fst, Text.onto_snd]
    exact ⟨by rw [hname], hleaves⟩
  | case4 c r hc hident =>
    have hhere : takeIdent (squeeze b (c :: r)) = ([], squeeze b (c :: r)) := by
      refine takeIdent_of_head fun d hd => ?_
      rcases mem_head?_squeeze hb d hd with ⟨hd, -⟩ | rfl | hd
      · rw [← Option.some_inj.mp hd]
        exact ⟨Bool.not_eq_true _ ▸ hident, hc⟩
      · decide
      · rcases isCombinator_cases hd with rfl | rfl | rfl <;> decide
    rw [hhere]
    exact ⟨rfl, ⟨b, rfl, hb⟩, ht⟩

theorem readIdent_squeeze {kind : NameKind} {name u : Text} (ht : isReadAlike t = true)
    (hstart : startsNameBlank t = false) (hb : b = true → descends t = false)
    (h : readIdent kind t = .ok (name, u)) :
    ∃ w, readIdent kind (squeeze b t) = .ok (name, w) ∧ Leaves u w := by
  obtain ⟨htake, hne⟩ := readIdent_eq_ok.mp h
  obtain ⟨hname, hleaves⟩ := takeIdent_squeeze ht hstart hb
  rw [htake] at hname hleaves
  have htake' : takeIdent (squeeze b t) = (name, (takeIdent (squeeze b t)).2) :=
    Prod.ext hname rfl
  exact ⟨_, readIdent_eq_ok.mpr ⟨htake', hne⟩, hleaves⟩

/-! ### Arguments -/

/-- An argument depends on nothing behind its bracket. -/
theorem takeArgument?_append {s : Nesting} {a u : Text}
    (h : takeArgument? s (a ++ ')' :: u) = some (a, u)) (z : Text) :
    takeArgument? s (a ++ ')' :: z) = some (a, z) := by
  induction a generalizing s with
  | nil =>
    rw [List.nil_append, takeArgument?] at h ⊢
    by_cases htop : s.isTop = true
    · rw [if_pos ⟨htop, rfl⟩]
    · rw [if_neg fun hboth => htop hboth.1] at h
      obtain ⟨taken, -, heq⟩ := Option.map_eq_some_iff.mp h
      exact absurd (congrArg Prod.fst heq) (by simp)
  | cons c a ih =>
    rw [List.cons_append, takeArgument?] at h ⊢
    by_cases hclose : s.isTop = true ∧ c = ')'
    · rw [if_pos hclose] at h
      exact absurd (congrArg Prod.fst (Option.some_inj.mp h)) (by simp)
    · rw [if_neg hclose] at h ⊢
      obtain ⟨⟨a', u'⟩, htail, heq⟩ := Option.map_eq_some_iff.mp h
      obtain ⟨ha, rfl⟩ := Prod.mk.inj heq
      obtain rfl := (List.cons.inj ha).2
      rw [ih htail]
      rfl

/-- The bracket of an argument closes the group. -/
theorem exists_group_of_takeArgument? {a u : Text} (ht : isReadAlike ('(' :: r) = true)
    (h : takeArgument? .top r = some (a, u)) :
    r = a ++ ')' :: u ∧ groupContent .parens ⟨0, none, '('⟩ r = (a, ')' :: u) ∧
      isReadAlike u = true := by
  obtain ⟨hsame, halike⟩ := isReadAlike_group (g := .parens) (by decide) rfl ht
  have hsame := hsame rfl
  have happend := Extended.groupContent_append .parens ⟨0, none, '('⟩ r
  have hclosing := Extended.head?_groupContent_snd .parens ⟨0, none, '('⟩ r
  rcases hinside : groupContent .parens ⟨0, none, '('⟩ r with ⟨content, rest⟩
  rw [hinside] at hsame happend hclosing halike
  rw [h] at hsame
  cases rest with
  | nil => exact absurd hsame (by simp)
  | cons d rest =>
    obtain rfl : d = ')' := hclosing d rfl
    simp only [List.head?_cons, Option.map_some, Option.some.injEq, Prod.mk.injEq,
      List.tail_cons] at hsame
    obtain ⟨rfl, rfl⟩ := hsame
    exact ⟨happend.symm, rfl, halike⟩

theorem readArgument_squeeze {a : Option Text} {u : Text} (ht : isReadAlike t = true)
    (hb : b = true → descends t = false) (h : readArgument t = .ok (a, u)) :
    ∃ w, readArgument (squeeze b t) = .ok (a, w) ∧ Leaves u w := by
  cases t with
  | nil =>
    obtain ⟨rfl, rfl⟩ := Prod.mk.inj (Except.ok.inj h)
    exact ⟨[], by rw [Extended.squeeze_nil]; rfl, ⟨b, by simp, fun _ => rfl⟩, ht⟩
  | cons c r =>
    by_cases hc : c = '('
    · subst hc
      rw [readArgument, if_pos rfl] at h
      cases hargument : takeArgument? .top r with
      | none => rw [hargument] at h; exact absurd h (by simp)
      | some taken =>
        obtain ⟨content, rest⟩ := taken
        rw [hargument] at h
        obtain ⟨rfl, rfl⟩ := Prod.mk.inj (Except.ok.inj h)
        obtain ⟨rfl, hgroup, halike⟩ := exists_group_of_takeArgument? ht hargument
        refine ⟨squeeze false rest, ?_, ⟨false, rfl, fun hne => absurd hne (by simp)⟩, halike⟩
        rw [Extended.squeeze_closed_group rfl hgroup, readArgument, if_pos rfl,
          takeArgument?_append hargument]
    · rw [readArgument_cons hc] at h
      obtain ⟨rfl, rfl⟩ := Prod.mk.inj (Except.ok.inj h)
      refine ⟨squeeze b (c :: r), ?_, ⟨b, rfl, hb⟩, ht⟩
      cases hcopy : squeeze b (c :: r) with
      | nil => rfl
      | cons d w =>
        refine readArgument_cons ?_ w
        rcases mem_head?_squeeze hb d (by rw [hcopy]; rfl) with ⟨hd, -⟩ | rfl | hd
        · rw [← Option.some_inj.mp hd]
          exact hc
        · decide
        · rcases isCombinator_cases hd with rfl | rfl | rfl <;> decide

theorem readNamed_squeeze {isElement : Bool} {x : Simple} {u : Text} (ht : isReadAlike t = true)
    (hstart : startsNameBlank t = false) (h : readNamed isElement t = .ok (x, u)) :
    ∃ w, readNamed isElement (squeeze false t) = .ok (x, w) ∧ Leaves u w := by
  obtain ⟨name, mid, a, hname, hargument, hcondition⟩ := readNamed_eq_ok.mp h
  obtain ⟨w, hname', ⟨b, rfl, hb⟩, halike⟩ :=
    readIdent_squeeze (b := false) ht hstart (fun hne => absurd hne (by simp)) hname
  obtain ⟨w', hargument', hleaves⟩ := readArgument_squeeze halike hb hargument
  exact ⟨w', readNamed_eq_ok.mpr ⟨name, _, a, hname', hargument', hcondition⟩, hleaves⟩

theorem plain_colon : Text.isBlank ':' = false ∧ Group.ofMark? ':' = none := by decide

theorem readPseudo_squeeze {x : Simple} {u : Text} (ht : isReadAlike t = true)
    (hstart : startsNameBlank t = false) (h : readPseudo t = .ok (x, u)) :
    ∃ w, readPseudo (squeeze false t) = .ok (x, w) ∧ Leaves u w := by
  rw [readPseudo_eq] at h
  split at h
  · rename_i hcolon
    obtain ⟨r, rfl⟩ := List.head?_eq_some_iff.mp hcolon
    obtain ⟨hnext, halike⟩ := isReadAlike_plain (by decide) plain_colon.2 ht
    obtain ⟨w, hnamed, hleaves⟩ := readNamed_squeeze halike (hnext (by decide) (by decide)) h
    refine ⟨w, ?_, hleaves⟩
    rw [squeeze_plain (by decide) plain_colon.1 plain_colon.2, readPseudo_eq, List.head?_cons,
      if_pos rfl, List.tail_cons, hnamed]
  · rename_i hcolon
    obtain ⟨w, hnamed, hleaves⟩ := readNamed_squeeze ht hstart h
    refine ⟨w, ?_, hleaves⟩
    rw [readPseudo_eq, if_neg, hnamed]
    intro hhead
    rcases mem_head?_squeeze (b := false) (fun hne => absurd hne (by simp)) ':' hhead with
      ⟨hd, -⟩ | hd | hd
    · exact hcolon hd
    · exact absurd hd (by decide)
    · exact absurd hd (by decide)

/-! ### Conditions and compounds -/

theorem isIdentChar_of_startsIdent (hc : c ≠ '\\') (h : startsIdent (c :: r) = true) :
    isIdentChar c = true := by
  cases r with
  | nil =>
    simp only [startsIdent] at h
    simp [isIdentChar, h]
  | cons d r =>
    rw [startsIdent] at h
    by_cases hminus : c = '-'
    · rw [hminus]
      decide
    · rw [if_neg hminus, beq_eq_false_iff_ne.mpr hc, Bool.false_or] at h
      simp [isIdentChar, h]

theorem not_blank_of_startsIdent (hstart : startsNameBlank t = false)
    (h : startsIdent t = true) : ∀ c ∈ t.head?, Text.isBlank c = false := by
  cases t with
  | nil => simp
  | cons c r =>
    intro d hd
    obtain rfl := Option.some_inj.mp hd
    by_cases hc : c = '\\'
    · rw [hc]
      decide
    · exact not_blank_of_startsNameBlank (isIdentChar_of_startsIdent hc h) hstart

theorem startsIdent_squeeze (ht : isReadAlike (c :: r) = true)
    (hstart : startsNameBlank (c :: r) = false) (h : startsIdent (c :: r) = true) :
    ∃ w, squeeze b (c :: r) = c :: w ∧ startsIdent (c :: w) = true := by
  by_cases hc : c = '\\'
  · subst hc
    cases r with
    | nil => exact absurd h (by decide)
    | cons e r => exact ⟨_, squeeze_escape .., rfl⟩
  have hident := isIdentChar_of_startsIdent hc h
  have hblank := not_blank_of_startsNameBlank hident hstart
  obtain ⟨-, hopen⟩ := plain_of_isIdentChar hident
  obtain ⟨hbefore, -⟩ := isReadAlike_plain hc hopen ht
  have hnext := hbefore (by simp [isBeforeName, hident]) hblank
  clear hbefore
  refine ⟨_, squeeze_plain hc hblank hopen b r, ?_⟩
  by_cases hminus : c = '-'
  · -- the character behind the minus sign starts a name, so it is no blank
    subst hminus
    cases r with
    | nil => exact absurd h (by decide)
    | cons d r =>
      rw [startsIdent, if_pos rfl] at h
      have hd : Text.isBlank d = false := by
        by_contra hne
        have hdblank : Text.isBlank d = true := Bool.not_eq_false _ ▸ hne
        have hdident : isIdentChar d = true := by
          rw [Bool.or_eq_true, Bool.or_eq_true] at h
          rcases h with (h | h) | h
          · simp [isIdentChar, h]
          · simp [isIdentChar, h]
          · rw [beq_iff_eq.mp h] at hdblank
            exact absurd hdblank (by decide)
        rw [not_blank_of_startsNameBlank hdident hnext] at hdblank
        exact absurd hdblank (by simp)
      have hhead := head?_squeeze (b := false) (r := d :: r) fun e he => by
        rw [← Option.some_inj.mp he]
        exact hd
      rw [startsIdent_congr hhead, startsIdent, if_pos rfl]
      exact h
  · rw [startsIdent_cons hminus hc] at h ⊢
    exact h

/-- One condition of a compound. -/
theorem readSimple_squeeze {isFirst : Bool} {x : Simple} {u : Text} (ht : isReadAlike t = true)
    (hstart : isFirst = true → startsNameBlank t = false)
    (h : readSimple isFirst t = .ok (some (x, u))) :
    ∃ w, readSimple isFirst (squeeze b t) = .ok (some (x, w)) ∧ Leaves u w := by
  have hfalse : ∀ {u : Text}, (false = true → descends u = false) := fun hne => absurd hne (by simp)
  simp only [readSimple_eq_some_iff] at h ⊢
  cases h with
  | universal =>
    rw [squeeze_plain (by decide) (by decide) rfl]
    obtain ⟨-, halike⟩ := isReadAlike_plain (by decide) rfl ht
    exact ⟨squeeze false u, .universal, ⟨false, rfl, hfalse⟩, halike⟩
  | hasClass hname =>
    rw [squeeze_plain (by decide) (by decide) rfl]
    obtain ⟨hnext, halike⟩ := isReadAlike_plain (by decide) rfl ht
    obtain ⟨w, hname', hleaves⟩ :=
      readIdent_squeeze halike (hnext (by decide) (by decide)) hfalse hname
    exact ⟨w, .hasClass hname', hleaves⟩
  | hasId hname =>
    rw [squeeze_plain (by decide) (by decide) rfl]
    obtain ⟨hnext, halike⟩ := isReadAlike_plain (by decide) rfl ht
    obtain ⟨w, hname', hleaves⟩ :=
      readIdent_squeeze halike (hnext (by decide) (by decide)) hfalse hname
    exact ⟨w, .hasId hname', hleaves⟩
  | test hattribute =>
    obtain ⟨content, rfl, hall⟩ := exists_group_of_readAttribute hattribute
    obtain ⟨-, halike⟩ := isReadAlike_group (g := .square) (by decide) rfl ht
    rw [(hall u).1, List.tail_cons] at halike
    rw [Extended.squeeze_closed_group rfl (hall u).1]
    exact ⟨squeeze false u, .test (hall _).2, ⟨false, rfl, hfalse⟩, halike⟩
  | pseudo hpseudo =>
    rw [squeeze_plain (by decide) plain_colon.1 plain_colon.2]
    obtain ⟨hnext, halike⟩ := isReadAlike_plain (by decide) plain_colon.2 ht
    obtain ⟨w, hpseudo', hleaves⟩ :=
      readPseudo_squeeze halike (hnext (by decide) (by decide)) hpseudo
    exact ⟨w, .pseudo hpseudo', hleaves⟩
  | tag hident hread =>
    -- a name starts with no blank, so it does not matter what stands in front of it
    rw [squeeze_congr (not_blank_of_startsIdent (hstart rfl) hident) b false]
    obtain ⟨w, hw, hident'⟩ := startsIdent_squeeze (b := false) ht (hstart rfl) hident
    obtain ⟨w', hread', hleaves⟩ := readIdent_squeeze ht (hstart rfl) hfalse hread
    rw [hw] at hread' ⊢
    exact ⟨w', .tag hident' hread', hleaves⟩

/-- The space of a copy, or a combinator, ends a compound. -/
theorem readSimple_separator {isFirst : Bool} (hc : c = ' ' ∨ isCombinator c = true) (v : Text) :
    readSimple isFirst (c :: v) = .ok none := by
  have hnil : readSimple isFirst [c] = .ok none := by
    rcases hc with rfl | hc
    · cases isFirst <;> decide
    · rcases isCombinator_cases hc with rfl | rfl | rfl <;> cases isFirst <;> decide
  exact readSimple_none_cons hnil v

theorem readSimple_none_squeeze {isFirst : Bool} (hb : b = true → descends t = false)
    (h : readSimple isFirst t = .ok none) : readSimple isFirst (squeeze b t) = .ok none := by
  cases hcopy : squeeze b t with
  | nil => rfl
  | cons d w =>
    rcases mem_head?_squeeze hb d (by rw [hcopy]; rfl) with ⟨hd, -⟩ | hd | hd
    · obtain ⟨u, rfl⟩ := List.head?_eq_some_iff.mp (Option.mem_def.mp hd)
      exact readSimple_none_cons h w
    · exact readSimple_separator (.inl hd) w
    · exact readSimple_separator (.inr hd) w

theorem readConditions_squeeze {isFirst : Bool} {x : Compound} {u : Text}
    (ht : isReadAlike t = true) (hstart : isFirst = true → startsNameBlank t = false)
    (hb : b = true → descends t = false) (h : readConditions isFirst t = .ok (x, u)) :
    ∃ w, readConditions isFirst (squeeze b t) = .ok (x, w) ∧ Leaves u w := by
  have hread := readsConditions_of_readConditions h
  clear h
  induction hread generalizing b with
  | done hend => exact ⟨_, readConditions_of_none (readSimple_none_squeeze hb hend), ⟨b, rfl, hb⟩, ht⟩
  | more hsimple _ ih =>
    obtain ⟨_, hsimple', ⟨b', rfl, hb'⟩, halike⟩ := readSimple_squeeze (b := b) ht hstart hsimple
    obtain ⟨w, hmore', hleaves⟩ := ih halike (fun hne => absurd hne (by simp)) hb'
    refine ⟨w, ?_, hleaves⟩
    rw [readConditions_of_some hsimple', hmore']
    rfl

/-! ### Whole selectors -/

theorem readCombinator_eq_some {k : Combinator} {u : Text}
    (h : readCombinator t = .ok (some (k, u))) :
    ∃ c r, Text.trimStart t = c :: r ∧
      ((Combinator.ofChar? c = some k ∧ Text.trimStart r = u ∧ u ≠ []) ∨
        (Combinator.ofChar? c = none ∧ k = .descendant ∧ u = c :: r ∧ t.head? ≠ some c)) := by
  unfold readCombinator at h
  cases hstart : Text.trimStart t with
  | nil =>
    rw [hstart] at h
    exact absurd h (by simp)
  | cons c r =>
    refine ⟨c, r, rfl, ?_⟩
    rw [hstart] at h
    cases hchar : Combinator.ofChar? c with
    | some combinator =>
      simp only [hchar] at h
      split at h
      · exact absurd h (by simp)
      · rename_i d u' hnext
        obtain ⟨rfl, rfl⟩ := Prod.mk.inj (Option.some_inj.mp (Except.ok.inj h))
        exact Or.inl ⟨rfl, hnext, List.cons_ne_nil _ _⟩
    | none =>
      simp only [hchar] at h
      split at h
      · exact absurd h (by simp)
      · rename_i hhead
        obtain ⟨rfl, rfl⟩ := Prod.mk.inj (Option.some_inj.mp (Except.ok.inj h))
        exact Or.inr ⟨rfl, rfl, rfl, hhead⟩

theorem isReadAlike_trimStart (ht : isReadAlike t = true) :
    isReadAlike (Text.trimStart t) = true := by
  induction t with
  | nil => exact ht
  | cons c r ih =>
    cases hc : Text.isBlank c with
    | false => rwa [Text.trimStart_cons_of_not_blank hc]
    | true =>
      rw [Text.trimStart_cons_of_blank hc]
      have hne := Extended.ne_backslash_of_isMark (Extended.isMark_of_blank hc)
      exact ih (isReadAlike_plain hne (Extended.ofMark?_of_blank hc) ht).2

theorem plain_of_ofChar? {k : Combinator} (h : Combinator.ofChar? c = some k) :
    c ≠ '\\' ∧ Text.isBlank c = false ∧ Group.ofMark? c = none := by
  have hc : isCombinator c = true := by rw [← Combinator.ofChar?_isSome, h]; rfl
  rcases isCombinator_cases hc with rfl | rfl | rfl <;> decide

/-- The next compound, from its first character on, is the copy of the next compound. -/
theorem readCombinator_squeeze {k : Combinator} {u : Text} (ht : isReadAlike t = true)
    (hb : b = true → descends t = false) (h : readCombinator t = .ok (some (k, u))) :
    readCombinator (squeeze b t) = .ok (some (k, squeeze true u)) ∧ isReadAlike u = true ∧
      ∀ c ∈ u.head?, Text.isBlank c = false := by
  have halike := isReadAlike_trimStart ht
  obtain ⟨c, r, hstart, ⟨hchar, rfl, hne⟩ | ⟨hchar, rfl, rfl, hhead⟩⟩ := readCombinator_eq_some h
  · obtain ⟨hc, hblank, hopen⟩ := plain_of_ofChar? hchar
    rw [hstart] at halike
    refine ⟨?_, isReadAlike_trimStart (isReadAlike_plain hc hopen halike).2,
      Text.not_blank_of_head?_trimStart⟩
    cases hnext : squeeze true (Text.trimStart r) with
    | nil =>
      have hsame := head?_squeeze (Text.not_blank_of_head?_trimStart (t := r)) true
      rw [hnext] at hsame
      exact absurd (List.head?_eq_none_iff.mp hsame.symm) hne
    | cons d w =>
      unfold readCombinator
      rw [trimStart_squeeze, hstart, squeeze_plain hc hblank hopen]
      simp only [hchar, trimStart_squeeze, hnext]
  · have hblank := Text.not_blank_of_trimStart hstart
    have hfirst : ∀ d ∈ (c :: r).head?, Text.isBlank d = false := fun d hd => by
      rw [← Option.some_inj.mp hd]
      exact hblank
    rw [hstart] at halike
    refine ⟨?_, halike, hfirst⟩
    obtain ⟨w, hw⟩ := List.head?_eq_some_iff.mp (head?_squeeze hfirst true)
    have hcombinator : isCombinator c = false := by
      rw [← Combinator.ofChar?_isSome, hchar]
      rfl
    rw [hw]
    refine readCombinator_descendant hcombinator (by rw [trimStart_squeeze, hstart, hw]) ?_
    -- the blanks in front of the descendant leave a space
    cases t with
    | nil => exact absurd hstart (by simp)
    | cons d v =>
      have hd : Text.isBlank d = true := by
        by_contra hne
        rw [Bool.not_eq_true] at hne
        rw [Text.trimStart_cons_of_not_blank hne] at hstart
        rw [(List.cons.inj hstart).1] at hhead
        exact hhead rfl
      have hdescends : descends (d :: v) = true := by
        simp [descends, hd, hstart, hcombinator]
      obtain rfl : b = false := by
        cases b with
        | false => rfl
        | true =>
          rw [hb rfl] at hdescends
          exact absurd hdescends (by simp)
      rw [squeeze_blank hd]
      intro hspace
      rw [← Option.some_inj.mp hspace] at hblank
      exact absurd hblank (by decide)

/-- The copy of a selector is the same selector. -/
theorem readChain_squeeze {left : List (Combinator × Compound)} {s : Complex}
    (ht : isReadAlike t = true) (hstart : ∀ c ∈ t.head?, Text.isBlank c = false)
    (h : readChain left t = .ok s) : readChain left (squeeze true t) = .ok s := by
  have hread := readsChain_of_readChain h
  clear h
  induction hread with
  | last hcompound hend =>
    obtain ⟨hconditions, hne⟩ := readCompound_eq_ok.mp hcompound
    obtain ⟨_, hconditions', ⟨b, rfl, -⟩, -⟩ := readConditions_squeeze (b := true) ht
      (fun _ => startsNameBlank_of_not_blank hstart) (fun _ => descends_of_not_blank hstart)
      hconditions
    refine (ReadsChain.last (readCompound_eq_ok.mpr ⟨hconditions', hne⟩) ?_).readChain_eq
    rw [trimStart_squeeze, hend, Extended.squeeze_nil]
  | more hcompound hcombinator _ ih =>
    obtain ⟨hconditions, hne⟩ := readCompound_eq_ok.mp hcompound
    obtain ⟨_, hconditions', ⟨b, rfl, hb⟩, halike⟩ := readConditions_squeeze (b := true) ht
      (fun _ => startsNameBlank_of_not_blank hstart) (fun _ => descends_of_not_blank hstart)
      hconditions
    obtain ⟨hcombinator', halike', hstart'⟩ := readCombinator_squeeze halike hb hcombinator
    exact (ReadsChain.more (readCompound_eq_ok.mpr ⟨hconditions', hne⟩) hcombinator'
      (readsChain_of_readChain (ih halike' hstart'))).readChain_eq

theorem complex_ofText_eq (hne : Text.trim t ≠ [])
    (hlead : ∀ c ∈ (Text.trim t).head?, isCombinator c = false) :
    Complex.ofText t = readChain [] (Text.trim t) := by
  unfold Complex.ofText
  cases htrim : Text.trim t with
  | nil => exact absurd htrim hne
  | cons c r =>
    rw [htrim] at hlead
    have hnone : Combinator.ofChar? c = none := by
      have hsome := Combinator.ofChar?_isSome c
      rw [hlead c rfl] at hsome
      exact Option.not_isSome_iff_eq_none.mp (by rw [hsome]; exact Bool.false_ne_true)
    simp only [hnone]

/-- The parts of a list that is cut at its first comma. -/
theorem parts_of_cut {x y : Text} {d : Char}
    (h : Nesting.cut .roundAndSquare (· == ',') .top t = some (x, d, y)) :
    t = x ++ ',' :: y ∧ parts t = x :: parts y ∧ Nesting.top.after .roundAndSquare x = .top := by
  have hd : d = ',' := by simpa using Nesting.prop_of_cut h
  have hx := Nesting.isTop_iff.mp (Nesting.isTop_of_cut h)
  have heq := Nesting.cut_eq_some h
  subst hd
  refine ⟨heq, ?_, hx⟩
  rw [heq, parts, Nesting.split_append_cut (by rw [hx]; decide), hx,
    split_eq_of_cut (Nesting.cut_eq_none_of_cut h)]
  rfl

/-- A list of one selector is the selector, where no comma stands outside everything. -/
theorem ofText_eq_singleton_iff {x : Complex} :
    Selector.ofText t = .ok ⟨[x]⟩ ↔
      (Nesting.top.after .roundAndSquare t).IsClosed ∧
        Nesting.cut .roundAndSquare (· == ',') .top t = none ∧ Complex.ofText t = .ok x := by
  rw [ofText_eq_ok]
  refine and_congr_right fun _ => ⟨fun h => ?_, fun ⟨hcut, hread⟩ => ?_⟩
  · have hcut := cut_eq_none_of_split (p := (· == ',')) h.length_eq
    rw [parts, split_eq_of_cut hcut, List.forall₂_cons] at h
    exact ⟨hcut, h.1⟩
  · rw [parts, split_eq_of_cut hcut]
    exact .cons hread .nil

/-- What is read of a list of one selector that starts with no combinator. -/
theorem ofText_eq_single {x : Complex} (htrim : Text.trim t = t)
    (hlead : ∀ c ∈ t.head?, isCombinator c = false) :
    Selector.ofText t = .ok ⟨[x]⟩ ↔
      (Nesting.top.after .roundAndSquare t).IsClosed ∧
        Nesting.cut .roundAndSquare (· == ',') .top t = none ∧ t ≠ [] ∧
        readChain [] t = .ok x := by
  rw [ofText_eq_singleton_iff]
  refine and_congr_right fun _ => and_congr_right fun _ => ?_
  by_cases hne : t = []
  · subst hne
    simp [show Complex.ofText [] = .error .empty from rfl]
  · rw [complex_ofText_eq (by rwa [htrim]) (by rwa [htrim]), htrim]
    simp only [ne_eq, hne, not_false_eq_true, true_and]

/-- The copy of a list of one selector is the same list. -/
theorem ofText_squeeze {x : Complex} (ht : isReadAlike t = true) (htrim : Text.trim t = t)
    (hlead : ∀ c ∈ t.head?, isCombinator c = false) (h : Selector.ofText t = .ok ⟨[x]⟩) :
    Selector.ofText (squeeze true t) = .ok ⟨[x]⟩ := by
  have hfirst : ∀ c ∈ t.head?, Text.isBlank c = false := fun c hc =>
    Text.not_blank_of_head?_trim (t := t) (by rw [htrim]; exact hc)
  have hhead := head?_squeeze hfirst true
  have htrim' := Extended.trim_squeeze htrim true
  obtain ⟨hafter, hcut⟩ := Extended.after_squeeze (p := (· == ',')) Nesting.settled_top
    comma_not_blank true t
  rw [ofText_eq_single htrim hlead] at h
  rw [ofText_eq_single htrim' (by rwa [hhead]), hafter, hcut]
  refine ⟨h.1, h.2.1, fun hnil => ?_, readChain_squeeze ht hfirst h.2.2.2⟩
  rw [hnil] at hhead
  exact h.2.2.1 (List.head?_eq_none_iff.mp hhead.symm)

end Css
end CosmeticFilter
