import CosmeticFilter.Extended.Normal
import CosmeticFilter.Proofs.Css.GoingOn
import CosmeticFilter.Proofs.Extended.Reading

/-!
# Runs of blanks

The normal form of a text shortens every run of blanks that its reader finds outside quotes and
brackets. That reader counts every bracket and every quote, also those that the reader of selectors
takes for text, so that it may come upon such a run inside an argument that is kept as it is. A text
where it does not is shielded, and is read like its normal form.

* `collapse`: the text with a space for each run of blanks;
* `isQuiet`: nothing is there to be shortened;
* `isShielded`: no group that is kept as it is holds a blank to be shortened;
* `readBranches_collapse`: a shielded text is read like the one with its runs shortened;
* `readAll_normalForm`: a shielded text is read like its normal form.
-/

namespace CosmeticFilter
namespace Extended

open Nesting (Settled settled_top isTop_iff)

/-- The text with one space for each run of blanks outside quotes and brackets, `owed` telling
whether such a run has just been passed over. -/
def collapse (s : Nesting) (owed : Bool) : Text → Text
  | [] => if owed then [' '] else []
  | c :: r =>
    if s.isTop && Text.isBlank c then collapse s true r
    else (if owed then [' '] else []) ++ c :: collapse (s.step .roundAndSquare c) false r

/-- No blank of the text stands outside quotes and brackets. -/
def isQuiet (s : Nesting) : Text → Bool
  | [] => true
  | c :: r => !(s.isTop && Text.isBlank c) && isQuiet (s.step .roundAndSquare c) r

variable {s : Nesting} {c : Char}

theorem collapse_cons_of_blank (h : Text.isBlank c = true) (owed : Bool) (r : Text) :
    collapse .top owed (c :: r) = collapse .top true r := by
  rw [collapse, if_pos]
  rw [Bool.and_eq_true]
  exact ⟨rfl, h⟩

theorem collapse_cons_of_kept (h : (s.isTop && Text.isBlank c) = false) (owed : Bool) (r : Text) :
    collapse s owed (c :: r) =
      (if owed then [' '] else []) ++ c :: collapse (s.step .roundAndSquare c) false r := by
  rw [collapse, if_neg (by rw [h]; exact Bool.false_ne_true)]

theorem kept_of_not_blank (h : Text.isBlank c = false) : (s.isTop && Text.isBlank c) = false := by
  rw [h, Bool.and_false]

/-- In front of a character that is kept, the shortened text is cut where the text is. -/
theorem collapse_append_cons {x : Text}
    (h : ((s.after .roundAndSquare x).isTop && Text.isBlank c) = false) (owed : Bool) (y : Text) :
    collapse s owed (x ++ c :: y) =
      collapse s owed x ++
        c :: collapse ((s.after .roundAndSquare x).step .roundAndSquare c) false y := by
  induction x generalizing s owed with
  | nil =>
    rw [Nesting.after_nil] at h ⊢
    exact collapse_cons_of_kept h owed y
  | cons d x ih =>
    rw [List.cons_append]
    cases hd : s.isTop && Text.isBlank d with
    | true =>
      obtain ⟨htop, hblank⟩ := Bool.and_eq_true_iff.mp hd
      have hs := isTop_iff.mp htop
      subst hs
      rw [Nesting.after_cons, settled_top.step_of_blank hblank] at h ⊢
      rw [collapse_cons_of_blank hblank, collapse_cons_of_blank hblank, ih h]
    | false =>
      rw [collapse_cons_of_kept hd, collapse_cons_of_kept hd, ih h, List.append_assoc]
      rfl

theorem collapse_of_isQuiet {x : Text} (h : isQuiet s x = true) (y : Text) :
    collapse s false (x ++ y) = x ++ collapse (s.after .roundAndSquare x) false y := by
  induction x generalizing s with
  | nil => rfl
  | cons d x ih =>
    rw [isQuiet, Bool.and_eq_true, Bool.not_eq_true'] at h
    rw [List.cons_append, collapse_cons_of_kept h.1, ih h.2]
    rfl

theorem all_blank_collapse {t : Text} (h : ∀ d ∈ t, Text.isBlank d = true) (owed : Bool) :
    ∀ d ∈ collapse s owed t, Text.isBlank d = true := by
  induction t generalizing s owed with
  | nil =>
    intro d hd
    cases owed with
    | true => rw [List.mem_singleton.mp hd]; decide
    | false => exact absurd hd (List.not_mem_nil)
  | cons e t ih =>
    have ht : ∀ d ∈ t, Text.isBlank d = true := fun d hd => h d (List.mem_cons_of_mem _ hd)
    rw [collapse]
    split
    · exact ih ht true
    · intro d hd
      rcases List.mem_append.mp hd with hd | hd
      · cases owed with
        | true => rw [List.mem_singleton.mp hd]; decide
        | false => exact absurd hd (List.not_mem_nil)
      · rcases List.mem_cons.mp hd with rfl | hd
        · exact h d (List.mem_cons_self ..)
        · exact ih ht false d hd

/-- A blank that is shortened away leaves a space. -/
theorem space_mem_collapse_of_owed (t : Text) : ' ' ∈ collapse s true t := by
  induction t generalizing s with
  | nil => exact List.mem_singleton.mpr rfl
  | cons d t ih =>
    rw [collapse]
    split
    · exact ih
    · exact List.mem_append_left _ (List.mem_singleton.mpr rfl)

theorem space_mem_collapse {t : Text} (h : isQuiet s t = false) : ' ' ∈ collapse s false t := by
  induction t generalizing s with
  | nil => exact absurd h (by simp [isQuiet])
  | cons d t ih =>
    rw [isQuiet, Bool.and_eq_false_iff] at h
    rw [collapse]
    split
    · exact space_mem_collapse_of_owed t
    · rename_i hkept
      rcases h with h | h
      · exact absurd h (by simp [hkept])
      · exact List.mem_append_right _ (List.mem_cons_of_mem _ (ih h))

/-! ### Ends -/

theorem getLast?_collapse {m : Text} (hm : ∀ d ∈ m.getLast?, Text.isBlank d = false) :
    (collapse s false m).getLast? = m.getLast? := by
  cases hlast : m.getLast? with
  | none => rw [List.getLast?_eq_none_iff.mp hlast]; rfl
  | some d =>
    obtain ⟨m', rfl⟩ := List.getLast?_eq_some_iff.mp hlast
    rw [collapse_append_cons (kept_of_not_blank (hm d hlast)), List.getLast?_append_cons]
    rfl

theorem collapse_append_blank {m b : Text} (hm : ∀ d ∈ m.getLast?, Text.isBlank d = false)
    (hne : m ≠ []) (hb : ∀ d ∈ b, Text.isBlank d = true) :
    ∃ b' : Text, (∀ d ∈ b', Text.isBlank d = true) ∧
      collapse s false (m ++ b) = collapse s false m ++ b' := by
  cases hlast : m.getLast? with
  | none => exact absurd (List.getLast?_eq_none_iff.mp hlast) hne
  | some d =>
    obtain ⟨m', rfl⟩ := List.getLast?_eq_some_iff.mp hlast
    have hd := kept_of_not_blank (s := s.after .roundAndSquare m') (hm d hlast)
    refine ⟨collapse ((s.after .roundAndSquare m').step .roundAndSquare d) false b,
      all_blank_collapse hb false, ?_⟩
    rw [List.append_assoc, List.singleton_append, collapse_append_cons hd,
      collapse_append_cons hd, List.append_assoc]
    rfl

/-- Shortening runs and trimming do not disturb each other. -/
theorem trim_collapse (hs : Settled s) (t : Text) :
    Text.trim (collapse s false t) = collapse s false (Text.trim t) := by
  by_cases hnil : Text.trim t = []
  · have hblank := Text.trim_eq_nil_iff.mp hnil
    rw [hnil, Text.trim_eq_nil_iff.mpr (all_blank_collapse hblank false)]
    rfl
  · obtain ⟨a, b, ha, hb, heq⟩ := Text.exists_append_trim_append t
    have hstart := fun d hd => Text.not_blank_of_head?_trim (t := t) (c := d) hd
    have hend := fun d hd => Text.not_blank_of_getLast?_trim (t := t) (c := d) hd
    generalize Text.trim t = m at *
    subst heq
    obtain ⟨b', hb', hback⟩ := collapse_append_blank (s := s) hend hnil hb
    obtain ⟨c, r, rfl⟩ := List.exists_cons_of_ne_nil hnil
    have hc := hstart c rfl
    have hfront : collapse s false (c :: r) = c :: collapse (s.step .roundAndSquare c) false r :=
      collapse_cons_of_kept (kept_of_not_blank hc) false r
    have hwhole : collapse s false (a ++ (c :: r ++ b)) =
        collapse s false a ++ collapse s false (c :: r ++ b) := by
      rw [List.cons_append, collapse_append_cons (kept_of_not_blank hc), hs.after_of_blank ha,
        collapse_cons_of_kept (kept_of_not_blank hc)]
      rfl
    rw [hwhole, hback, Text.trim_append_blank (all_blank_collapse ha false) hb']
    refine Text.trim_eq_self (fun d hd => ?_) fun d hd => ?_
    · rw [hfront] at hd
      exact hstart d hd
    · rw [getLast?_collapse hend] at hd
      exact hend d hd

theorem isAllBlank_collapse (hs : Settled s) (t : Text) :
    Text.isAllBlank (collapse s false t) = Text.isAllBlank t := by
  have hiff : ∀ u : Text, Text.isAllBlank u = true ↔ Text.trim u = [] := fun u => by
    rw [Text.isAllBlank, List.all_eq_true, Text.trim_eq_nil_iff]
  rw [Bool.eq_iff_iff, hiff, hiff, trim_collapse hs]
  cases htrim : Text.trim t with
  | nil => exact iff_of_true rfl rfl
  | cons c r =>
    have hc := Text.not_blank_of_head?_trim (t := t) (c := c) (by rw [htrim]; rfl)
    rw [collapse_cons_of_kept (kept_of_not_blank hc)]
    exact iff_of_false (List.cons_ne_nil _ _) (List.cons_ne_nil _ _)

/-! ### Words and groups -/

/-- In a word every blank is escaped. -/
theorem isQuiet_word (hs : Settled s) {w : Text} (h : (takeWord w).2 = []) :
    isQuiet s w = true := by
  induction w using escape_induction generalizing s with
  | nil => rfl
  | lone =>
    rw [isQuiet, kept_of_not_blank (by decide)]
    rfl
  | escape e r ih =>
    have hescaped : ((s.step .roundAndSquare '\\').isTop && Text.isBlank e) = false := by
      obtain ⟨quote, depth, escaped⟩ := s
      obtain ⟨rfl, -⟩ := hs
      simp [Nesting.step, Nesting.isTop]
    rw [isQuiet, isQuiet, kept_of_not_blank (by decide), hescaped, hs.step_escape]
    exact ih hs h
  | plain c r hc ih =>
    rw [takeWord_cons hc] at h
    by_cases hmark : isMark c = true
    · rw [if_pos hmark] at h
      exact absurd h (List.cons_ne_nil _ _)
    · rw [if_neg hmark] at h
      have hblank : Text.isBlank c = false := by
        rw [isMark, Bool.or_eq_true, not_or] at hmark
        exact Bool.not_eq_true _ ▸ hmark.1
      rw [isQuiet, kept_of_not_blank hblank]
      exact ih (hs.step hc) h

/-- A blank changes nothing inside a group, but that a string may start behind it. -/
theorem Inside.step_of_blank {i : Inside} (hquote : ∀ q ∈ i.quote, Text.isBlank q = false)
    (h : Text.isBlank c = true) : i.step .parens c = some ⟨i.depth, i.quote, c⟩ := by
  have hne : ∀ d : Char, Text.isBlank d = false → c ≠ d := by
    rintro d hd rfl
    rw [h] at hd
    exact absurd hd (by simp)
  obtain ⟨depth, quote, previous⟩ := i
  unfold Inside.step
  cases quote with
  | some q => simp [hne q (hquote q rfl)]
  | none =>
    simp [hne '"' (by decide), hne '\'' (by decide), hne '(' (by decide), hne ')' (by decide)]

/-- The readers of a group go on alike: as many brackets are open, they are in the same quote, and a
string may start here for both or for neither. -/
structure Inside.Alike (i j : Inside) : Prop where
  /-- As many brackets are open. -/
  depth : i.depth = j.depth
  /-- They are in the same quote. -/
  quote : i.quote = j.quote
  /-- A string may start for both or for neither. -/
  opens : opensString i.previous = opensString j.previous
  /-- A blank does not close the quote. -/
  quote_not_blank : ∀ q ∈ i.quote, Text.isBlank q = false

theorem Inside.Alike.step {i j i' : Inside} (h : i.Alike j) (hstep : i.step .parens c = some i') :
    ∃ j', j.step .parens c = some j' ∧ i'.Alike j' := by
  obtain ⟨depth, quote, previous⟩ := i
  obtain ⟨depth', quote', previous'⟩ := j
  obtain ⟨hdepth, hquote, hopens, hblank⟩ := h
  simp only at hdepth hquote hopens hblank
  subst hdepth hquote
  unfold Inside.step at hstep ⊢
  cases quote with
  | some q =>
    rw [← Option.some_inj.mp hstep]
    refine ⟨_, rfl, rfl, rfl, rfl, fun q' hq' => ?_⟩
    by_cases hc : c = q
    · rw [if_pos hc] at hq'
      exact absurd hq' (by simp)
    · rw [if_neg hc] at hq'
      exact hblank q' hq'
  | none =>
    simp only at hstep ⊢
    rw [hopens] at hstep
    split at hstep
    · rename_i hstring
      rw [← Option.some_inj.mp hstep, if_pos hstring]
      refine ⟨_, rfl, rfl, rfl, rfl, fun q hq => ?_⟩
      rw [← Option.some_inj.mp hq]
      rcases hstring.1 with rfl | rfl <;> decide
    · rename_i hstring
      rw [if_neg hstring]
      split at hstep
      · rename_i hopen
        rw [← Option.some_inj.mp hstep, if_pos hopen]
        exact ⟨_, rfl, rfl, rfl, rfl, fun q hq => absurd hq (by simp)⟩
      · rename_i hopen
        rw [if_neg hopen]
        split at hstep
        · rename_i hclose
          rw [if_pos hclose]
          split at hstep
          · exact absurd hstep (by simp)
          · rename_i hdepth
            rw [← Option.some_inj.mp hstep, if_neg hdepth]
            exact ⟨_, rfl, rfl, rfl, rfl, fun q hq => absurd hq (by simp)⟩
        · rename_i hclose
          rw [← Option.some_inj.mp hstep, if_neg hclose]
          exact ⟨_, rfl, rfl, rfl, rfl, fun q hq => absurd hq (by simp)⟩

theorem Inside.Alike.symm {i j : Inside} (h : i.Alike j) : j.Alike i :=
  ⟨h.depth.symm, h.quote.symm, h.opens.symm, h.quote ▸ h.quote_not_blank⟩

theorem Inside.Alike.fills_nil {i j : Inside} (h : i.Alike j) (hi : i.Fills []) : j.Fills [] := by
  rw [Inside.fills_nil] at hi ⊢
  cases hstep : j.step .parens ')' with
  | none => rfl
  | some j' =>
    obtain ⟨i', hi', -⟩ := h.symm.step hstep
    rw [hi] at hi'
    exact absurd hi' (by simp)

theorem collapse_of_owed {x : Text} (h : ∀ d ∈ x.head?, Text.isBlank d = false) :
    collapse s true x = ' ' :: collapse s false x := by
  cases x with
  | nil => rfl
  | cons d x =>
    have hd := kept_of_not_blank (s := s) (h d rfl)
    rw [collapse_cons_of_kept hd, collapse_cons_of_kept hd]
    rfl

/-- A run of blanks that has been passed over is seen as a space. -/
theorem Inside.Alike.fills_owed {i j : Inside} (h : i.Alike ⟨j.depth, j.quote, ' '⟩) {x : Text}
    (hx : ∀ d ∈ x.head?, Text.isBlank d = false)
    (hfills : Inside.Fills ⟨j.depth, j.quote, ' '⟩ (collapse s false x)) :
    j.Fills (collapse s true x) := by
  rw [collapse_of_owed hx, Inside.fills_cons (by decide)]
  refine ⟨_, Inside.step_of_blank ?_ (by decide), hfills⟩
  intro q hq
  exact h.quote_not_blank q (h.quote.symm ▸ hq)

/-- The content of a group still fills it with its runs of blanks shortened. -/
theorem Inside.Fills.collapse {x : Text} {i j : Inside} (hx : i.Fills x) (hs : Settled s) :
    (i.Alike j → j.Fills (collapse s false x)) ∧
      (i.Alike ⟨j.depth, j.quote, ' '⟩ → s = .top → j.Fills (Extended.collapse s true x)) := by
  induction x using escape_induction generalizing s i j with
  | nil =>
    refine ⟨fun h => h.fills_nil hx, fun h _ => h.fills_owed (fun d hd => ?_) (h.fills_nil hx)⟩
    exact absurd hd (by simp)
  | lone => exact absurd hx not_fills_backslash
  | escape e r ih =>
    rw [fills_escape] at hx
    have hfalse : ∀ {j : Inside}, i.Alike j →
        j.Fills (Extended.collapse s false ('\\' :: e :: r)) := by
      intro j h
      have hescaped : ((s.step .roundAndSquare '\\').isTop && Text.isBlank e) = false := by
        obtain ⟨quote, depth, escaped⟩ := s
        obtain ⟨rfl, -⟩ := hs
        simp [Nesting.step, Nesting.isTop]
      rw [collapse_cons_of_kept (kept_of_not_blank (by decide)), collapse_cons_of_kept hescaped,
        hs.step_escape]
      exact (fills_escape e).mpr ((ih hx hs).1 ⟨h.depth, h.quote, rfl, h.quote_not_blank⟩)
    refine ⟨hfalse, fun h hs' => ?_⟩
    refine h.fills_owed (fun d hd => ?_) (hfalse h)
    rw [← Option.some_inj.mp hd]
    decide
  | plain c r hc ih =>
    obtain ⟨i', hi', hx⟩ := (fills_cons hc).mp hx
    cases hkept : s.isTop && Text.isBlank c with
    | true =>
      obtain ⟨htop, hblank⟩ := Bool.and_eq_true_iff.mp hkept
      have hs' := isTop_iff.mp htop
      subst hs'
      have halike : ∀ {j : Inside}, i.depth = j.depth → i.quote = j.quote →
          (∀ q ∈ i.quote, Text.isBlank q = false) → i'.Alike ⟨j.depth, j.quote, ' '⟩ := by
        intro j hdepth hquote hnot
        rw [step_of_blank hnot hblank] at hi'
        rw [← Option.some_inj.mp hi']
        refine ⟨hdepth, hquote, ?_, hnot⟩
        simp only [opensString, hblank, Bool.or_true]
        decide
      rw [collapse_cons_of_blank hblank, collapse_cons_of_blank hblank]
      exact ⟨fun h => (ih hx hs).2 (halike h.depth h.quote h.quote_not_blank) rfl,
        fun h _ => (ih hx hs).2 (halike h.depth h.quote h.quote_not_blank) rfl⟩
    | false =>
      have hfalse : ∀ {j : Inside}, i.Alike j →
          j.Fills (Extended.collapse s false (c :: r)) := by
        intro j h
        rw [collapse_cons_of_kept hkept]
        obtain ⟨j', hj', h'⟩ := h.step hi'
        exact (fills_cons hc).mpr ⟨j', hj', (ih hx (hs.step hc)).1 h'⟩
      refine ⟨hfalse, fun h hs' => h.fills_owed (fun d hd => ?_) (hfalse h)⟩
      subst hs'
      rw [← Option.some_inj.mp hd]
      simpa [Nesting.isTop, Nesting.top] using hkept

end Extended
end CosmeticFilter
