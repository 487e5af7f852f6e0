import CosmeticFilter.Proofs.Css.Alternatives
import CosmeticFilter.Style.Declaration

/-!
# The pieces of a declaration block

A declaration block is read from declaration to declaration: the reader passes over separators,
looks for a colon, and then for the semicolon behind the value, each time from the place that it has
reached as from the start of a text. It reaches such places outside quotes and brackets only, so the
block may as well be cut at all its semicolons beforehand and each piece be read by itself.

* `pieces`: what stands between the semicolons;
* `pieces_append`, `pieces_skipSeparators`, `pieces_eq_cons`: the pieces, one after the other;
* `ofPiece`, `readAll_eq_mapM`: a block is read piece by piece;
* `Declares`, `IsFault`: what a piece declares, and what is wrong with it;
* `readBlock_iff_pieces`: what is read, and which error is reported.
-/

namespace CosmeticFilter
namespace Declaration

variable {t x y piece : Text} {c : Char} {d : Declaration} {e : StyleError}

/-! ### Pieces -/

/-- What stands between the semicolons that count, without blanks around it; pieces of blanks alone
are left out. -/
def pieces (t : Text) : List Text :=
  ((Nesting.split .round (· == ';') .top t).map Text.trim).filter (! ·.isEmpty)

theorem trim_eq_self_of_mem_pieces (h : piece ∈ pieces t) : Text.trim piece = piece := by
  obtain ⟨w, -, rfl⟩ := List.mem_map.mp (List.mem_filter.mp h).1
  exact Text.trim_trim w

/-- **A semicolon that counts** stands between the pieces before it and the pieces behind it. -/
theorem pieces_append (h : Nesting.top.after .round x = .top) (y : Text) :
    pieces (x ++ ';' :: y) = pieces x ++ pieces y := by
  have hcuts : Nesting.cutsAt .round (· == ';') (Nesting.top.after .round x) ';' = true := by
    rw [h]
    rfl
  rw [pieces, Nesting.split_append_cut hcuts, h, List.map_append, List.filter_append]
  rfl

/-- A text without a semicolon that counts is one piece, or blank. -/
theorem pieces_of_cut (h : Nesting.cut .round (· == ';') .top t = none) :
    pieces t = [Text.trim t].filter (! ·.isEmpty) := by
  rw [pieces, Css.split_eq_of_cut h, List.map_singleton]

/-- Blanks and semicolons between pieces belong to none. -/
theorem pieces_cons_of_separator (h : (Text.isBlank c || c == ';') = true) (t : Text) :
    pieces (c :: t) = pieces t := by
  rw [Bool.or_eq_true, beq_iff_eq] at h
  rcases h with hblank | rfl
  · have hcuts : Nesting.cutsAt .round (· == ';') .top c = false := by
      have hne : (c == ';') = false := beq_eq_false_iff_ne.mpr (by rintro rfl; cases hblank)
      rw [Nesting.cutsAt, hne, Bool.and_false]
    obtain ⟨w, ws, hw⟩ := List.exists_cons_of_ne_nil (Nesting.split_ne_nil .round (· == ';') .top t)
    have htrim : Text.trim (c :: w) = Text.trim w :=
      Text.trim_blank_append (a := [c]) (by simpa using hblank) w
    rw [pieces, pieces, Nesting.split, hcuts, Nesting.settled_top.step_of_blank hblank, hw]
    simp [htrim]
  · exact pieces_append (x := []) rfl t

theorem pieces_skipSeparators (t : Text) : pieces (skipSeparators t) = pieces t := by
  induction t with
  | nil => rfl
  | cons c t ih =>
    by_cases h : (Text.isBlank c || c == ';') = true
    · rw [pieces_cons_of_separator h, ← ih]
      exact congrArg pieces (List.dropWhile_cons_of_pos h)
    · exact congrArg pieces (List.dropWhile_cons_of_neg h)

/-- A text without separators at its start begins with a piece. -/
theorem pieces_cons (hblank : Text.isBlank c = false) (hsign : c ≠ ';') (r : Text) :
    pieces (c :: r) =
      Text.trim (untilSemicolon (c :: r)).1 :: pieces (untilSemicolon (c :: r)).2 := by
  have hpiece : ∀ w, [Text.trim (c :: w)].filter (! ·.isEmpty) = [Text.trim (c :: w)] := by
    intro w
    refine List.filter_eq_self.mpr fun u hu => ?_
    obtain rfl := List.mem_singleton.mp hu
    have hne : Text.trim (c :: w) ≠ [] := fun hnil => by
      rw [Text.trim_eq_nil_iff.mp hnil c List.mem_cons_self] at hblank
      cases hblank
    simpa using hne
  rw [untilSemicolon]
  cases hcut : Nesting.cut .round (· == ';') .top (c :: r) with
  | none =>
    rw [pieces_of_cut hcut, hpiece]
    rfl
  | some parts =>
    obtain ⟨x, d, y⟩ := parts
    obtain rfl : d = ';' := beq_iff_eq.mp (Nesting.prop_of_cut (p := (· == ';')) hcut)
    have htop := Nesting.isTop_iff.mp (Nesting.isTop_of_cut hcut)
    have hx := Nesting.cut_eq_none_of_cut hcut
    have hcr := Nesting.cut_eq_some hcut
    cases x with
    | nil => exact absurd (List.cons.inj hcr).1 hsign
    | cons a w =>
      obtain rfl : c = a := (List.cons.inj hcr).1
      rw [hcr, pieces_append htop, pieces_of_cut hx, hpiece]
      rfl

/-! ### Reading piece by piece -/

/-- Reads one piece. -/
def ofPiece (piece : Text) : Except StyleError Declaration :=
  match Nesting.cut .round (· == ':') .top piece with
  | none => .error (.unclosed piece)
  | some (property, _, value) => ofParts property value

theorem colon_not_blank : ∀ c, Text.isBlank c = true → (c == ':') = false := by
  intro c hc
  exact beq_eq_false_iff_ne.mpr (by rintro rfl; cases hc)

theorem ofParts_trim (x y : Text) : ofParts (Text.trimStart x) (Text.trimEnd y) = ofParts x y := by
  have hcolon : Text.isBlank ':' = false := rfl
  simp only [ofParts, Text.trim_trimStart, Text.trim_trimEnd, ← Text.trim_append_cons hcolon,
    Text.trim_trim]

theorem ofPiece_trim_of_cut (h : Nesting.cut .round (· == ':') .top t = some (x, ':', y)) :
    ofPiece (Text.trim t) = ofParts x y := by
  rw [ofPiece, Nesting.cut_trim_of_some colon_not_blank h]
  exact ofParts_trim x y

theorem ofPiece_trim_of_none (h : Nesting.cut .round (· == ':') .top t = none) :
    ofPiece (Text.trim t) = .error (.unclosed (Text.trim t)) := by
  rw [ofPiece, Nesting.cut_trim_of_none colon_not_blank h]

theorem untilSemicolon_of_cut (h : Nesting.cut .round (· == ';') .top t = none) :
    untilSemicolon t = (t, []) := by
  rw [untilSemicolon, h]

/-- The value goes on to the semicolon, and what stands before its colon does not matter. -/
theorem untilSemicolon_append_colon (hx : Nesting.cut .round (· == ';') .top x = none)
    (htop : Nesting.top.after .round x = .top) (y : Text) :
    untilSemicolon (x ++ ':' :: y) = (x ++ ':' :: (untilSemicolon y).1, (untilSemicolon y).2) := by
  have hcuts : ¬ Nesting.cutsAt .round (· == ';') .top ':' = true := by decide
  have hstep : Nesting.step .round .top ':' = .top := rfl
  rw [untilSemicolon, untilSemicolon, Nesting.cut_append_of_none hx, htop, Nesting.cut,
    if_neg hcuts, hstep]
  cases Nesting.cut .round (· == ';') .top y <;> rfl

theorem not_separator_of_skipSeparators (h : skipSeparators t = c :: x) :
    Text.isBlank c = false ∧ c ≠ ';' := by
  have hhead := List.head?_dropWhile_not (fun c => Text.isBlank c || c == ';') t
  rw [← skipSeparators, h] at hhead
  simpa using hhead

/-- The reader reads the first piece, and then goes on behind it. -/
theorem readAll_eq (h : skipSeparators t ≠ []) :
    readAll t = (ofPiece (Text.trim (untilSemicolon (skipSeparators t)).1)).bind fun d =>
      (readAll (untilSemicolon (skipSeparators t)).2).map (d :: ·) := by
  rw [readAll, if_neg h]
  generalize skipSeparators t = s
  -- Colons and semicolons are looked for together: there is none, or a semicolon comes first and the
  -- piece has no colon, or a colon comes first and the semicolon is looked for behind it.
  split
  next hcut =>
    have hcolon := Nesting.cut_eq_none_of_imp (p := (· == ':')) (by simp) hcut
    have hsemicolon := Nesting.cut_eq_none_of_imp (p := (· == ';')) (by simp) hcut
    rw [untilSemicolon_of_cut hsemicolon, ofPiece_trim_of_none hcolon]
    rfl
  next x d y hcut =>
    have hx := Nesting.cut_eq_none_of_cut hcut
    have hcolon := Nesting.cut_eq_none_of_imp (p := (· == ':')) (by simp) hx
    split
    next hd =>
      subst hd
      have hsemicolon := Nesting.cut_eq_some_of_imp (p := (· == ';')) (by simp) hcut rfl
      rw [untilSemicolon, hsemicolon, ofPiece_trim_of_none hcolon]
      rfl
    next hd =>
      have hsemicolon := Nesting.cut_eq_none_of_imp (p := (· == ';')) (by simp) hx
      have hprop := Nesting.prop_of_cut (p := fun c => c == ':' || c == ';') hcut
      obtain rfl : d = ':' := by simpa [hd] using hprop
      have htop := Nesting.isTop_iff.mp (Nesting.isTop_of_cut hcut)
      have hfirst : Nesting.cut .round (· == ':') .top (x ++ ':' :: (untilSemicolon y).1) =
          some (x, ':', (untilSemicolon y).1) :=
        Nesting.cut_eq_some_iff.mpr ⟨rfl, hcolon, by rw [htop]; rfl⟩
      rw [Nesting.cut_eq_some hcut, untilSemicolon_append_colon hsemicolon htop,
        ofPiece_trim_of_cut hfirst]
      cases ofParts x (untilSemicolon y).1 <;> rfl

theorem length_untilSemicolon_lt (h : t ≠ []) : (untilSemicolon t).2.length < t.length := by
  unfold untilSemicolon
  split
  next x d y hcut =>
    rw [Nesting.cut_eq_some hcut, List.length_append, List.length_cons]
    dsimp only
    omega
  · exact List.length_pos_iff.mpr h

/-- **A block is read piece by piece**, up to the first piece that is not read. -/
theorem readAll_eq_mapM (t : Text) : readAll t = (pieces t).mapM ofPiece := by
  -- The rest behind the first piece is shorter.
  induction hlength : t.length using Nat.strong_induction_on generalizing t with
  | _ n ih =>
    subst hlength
    rw [← pieces_skipSeparators]
    cases hskip : skipSeparators t with
    | nil =>
      rw [readAll, if_pos hskip]
      rfl
    | cons c r =>
      obtain ⟨hblank, hsign⟩ := not_separator_of_skipSeparators hskip
      have hshorter : (untilSemicolon (c :: r)).2.length < t.length :=
        Nat.lt_of_lt_of_le (length_untilSemicolon_lt (List.cons_ne_nil c r))
          (hskip ▸ length_skipSeparators_le t)
      rw [readAll_eq (hskip ▸ List.cons_ne_nil c r), hskip, pieces_cons hblank hsign,
        List.mapM_cons, ih _ hshorter _ rfl]
      cases ofPiece (Text.trim (untilSemicolon (c :: r)).1) with
      | error e => rfl
      | ok d => cases (pieces (untilSemicolon (c :: r)).2).mapM ofPiece <;> rfl

/-! ### What a piece says -/

/-- A piece declares what stands before its first colon that counts, in small letters, to be what
stands behind it. -/
inductive Declares : Text → Declaration → Prop where
  /-- Neither is blank. -/
  | intro {piece x y : Text}
    (hcut : Nesting.cut .round (· == ':') .top piece = some (x, ':', y))
    (hx : Text.trim x ≠ []) (hy : Text.trim y ≠ []) :
    Declares piece ⟨Text.lower (Text.trim x), Text.trim y⟩

/-- What is wrong with a piece that declares nothing. -/
inductive IsFault : Text → StyleError → Prop where
  /-- There is no colon that counts. -/
  | unclosed {piece : Text} (hcut : Nesting.cut .round (· == ':') .top piece = none) :
    IsFault piece (.unclosed piece)
  /-- Nothing stands before the first one. -/
  | missingProperty {piece x y : Text}
    (hcut : Nesting.cut .round (· == ':') .top piece = some (x, ':', y))
    (hx : Text.trim x = []) : IsFault piece (.missingProperty piece)
  /-- Something stands before it, but nothing behind it. -/
  | missingValue {piece x y : Text}
    (hcut : Nesting.cut .round (· == ':') .top piece = some (x, ':', y))
    (hx : Text.trim x ≠ []) (hy : Text.trim y = []) :
    IsFault piece (.missingValue (Text.lower (Text.trim x)))

theorem ofPiece_eq_ok_iff : ofPiece piece = .ok d ↔ Declares piece d := by
  constructor
  · intro h
    rw [ofPiece] at h
    split at h
    · cases h
    next x sign y hcut =>
      obtain rfl : sign = ':' := beq_iff_eq.mp (Nesting.prop_of_cut (p := (· == ':')) hcut)
      rw [ofParts] at h
      split_ifs at h with hx hy
      cases h
      exact .intro hcut hx hy
  · rintro ⟨hcut, hx, hy⟩
    rw [ofPiece, hcut]
    exact (if_neg hx).trans (if_neg hy)

theorem ofPiece_eq_error_iff (htrim : Text.trim piece = piece) :
    ofPiece piece = .error e ↔ IsFault piece e := by
  constructor
  · intro h
    rw [ofPiece] at h
    split at h
    next hcut =>
      cases h
      exact .unclosed hcut
    next x sign y hcut =>
      obtain rfl : sign = ':' := beq_iff_eq.mp (Nesting.prop_of_cut (p := (· == ':')) hcut)
      rw [ofParts, ← Nesting.cut_eq_some hcut, htrim] at h
      split_ifs at h with hx hy
      · cases h
        exact .missingProperty hcut hx
      · cases h
        exact .missingValue hcut hx hy
  · intro h
    cases h with
    | unclosed hcut => rw [ofPiece, hcut]
    | missingProperty hcut hx =>
      rw [ofPiece, hcut]
      dsimp only
      rw [ofParts, if_pos hx, ← Nesting.cut_eq_some hcut, htrim]
    | missingValue hcut hx hy =>
      rw [ofPiece, hcut]
      exact (if_neg hx).trans (if_pos hy)

/-! ### Blocks -/

theorem readAll_eq_ok_iff {ds : List Declaration} :
    readAll t = .ok ds ↔ List.Forall₂ Declares (pieces t) ds := by
  rw [readAll_eq_mapM, Css.mapM_eq_ok_iff]
  simp only [ofPiece_eq_ok_iff]

theorem readAll_eq_error_iff :
    readAll t = .error e ↔
      ∃ good bad rest, pieces t = good ++ bad :: rest ∧ (∀ piece ∈ good, ∃ d, Declares piece d) ∧
        IsFault bad e := by
  rw [readAll_eq_mapM, Css.mapM_eq_error_iff]
  simp only [ofPiece_eq_ok_iff]
  refine exists_congr fun good => exists_congr fun bad => exists_congr fun rest =>
    and_congr_right fun hpieces => and_congr_right fun _ => ?_
  refine ofPiece_eq_error_iff (trim_eq_self_of_mem_pieces (t := t) ?_)
  rw [hpieces]
  exact List.mem_append_right _ List.mem_cons_self

theorem readAll_eq_nil_iff : readAll t = .ok [] ↔ pieces t = [] := by
  rw [readAll_eq_ok_iff, List.forall₂_nil_right_iff]

theorem readBlock_eq_ok_iff {mayBeEmpty : Bool} {ds : List Declaration} :
    readBlock mayBeEmpty t = .ok ds ↔ readAll t = .ok ds ∧ (ds ≠ [] ∨ mayBeEmpty = true) := by
  rw [readBlock]
  split
  next hread => simp [hread]
  next hread => cases mayBeEmpty <;> simp [hread]
  next hread =>
    rw [hread]
    constructor
    · intro h
      cases h
      exact ⟨rfl, .inl (List.cons_ne_nil _ _)⟩
    · exact fun h => h.1

theorem readBlock_eq_error_iff {mayBeEmpty : Bool} :
    readBlock mayBeEmpty t = .error e ↔
      readAll t = .error e ∨ readAll t = .ok [] ∧ mayBeEmpty = false ∧ e = .emptyBlock := by
  rw [readBlock]
  split
  next hread => simp [hread]
  next hread => cases mayBeEmpty <;> simp [hread, eq_comm]
  next hread => simp [hread]

/-- **A declaration block is the list of its pieces.** It is read exactly if each piece has a colon
that counts with something on both sides of it, and there is a piece, if there has to be one. The
declarations are those of the pieces, in order. Otherwise the first piece that declares nothing is
to blame, or the block is empty. -/
theorem readBlock_iff_pieces (mayBeEmpty : Bool) (t : Text) :
    (∀ ds, readBlock mayBeEmpty t = .ok ds ↔
      List.Forall₂ Declares (pieces t) ds ∧ (pieces t ≠ [] ∨ mayBeEmpty = true)) ∧
    ∀ e, readBlock mayBeEmpty t = .error e ↔
      (∃ good bad rest, pieces t = good ++ bad :: rest ∧ (∀ piece ∈ good, ∃ d, Declares piece d) ∧
        IsFault bad e) ∨
      pieces t = [] ∧ mayBeEmpty = false ∧ e = .emptyBlock := by
  refine ⟨fun ds => ?_, fun e => ?_⟩
  · rw [readBlock_eq_ok_iff, readAll_eq_ok_iff]
    refine and_congr_right fun h => or_congr_left (not_congr ?_)
    -- There are as many declarations as pieces.
    rw [← List.length_eq_zero_iff, ← List.length_eq_zero_iff, h.length_eq]
  · rw [readBlock_eq_error_iff, readAll_eq_error_iff, readAll_eq_nil_iff]

/-- The semicolon in brackets cuts nothing, the blank piece is passed over, and the piece without a
property is to blame, not the one without a colon behind it. -/
example :
    readBlock false "CONTENT: attr(a;b); ; : red; top".toList =
      .error (.missingProperty ": red".toList) := by
  decide +kernel

end Declaration
end CosmeticFilter
