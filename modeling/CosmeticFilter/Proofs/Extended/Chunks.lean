import CosmeticFilter.Extended.Token
import Mathlib.Data.List.Basic
import Mathlib.Tactic.Conv

/-!
# Chunks of a text that is put together

A text that ends outside groups, and not in a backslash that waits for its character, is cut by
itself: its chunks stay as they are when the text goes on. The one seam that is no cut is between
two words.

* `Chunk.text`, `flatMap_text_chunks`: the chunks of a text make up the text;
* `endsInEscape`: the text ends in a backslash that waits for its character;
* `groupContent_eq_of_closed`, `takeWord_eq_of_mark`: what a group or a word takes depends on
  nothing behind it;
* `chunks_append`: the chunks of a concatenation.
-/

namespace CosmeticFilter
namespace Extended

/-- The characters of a chunk. -/
def Chunk.text : Chunk → Text
  | mark c => [c]
  | word w => w
  | group g content closed => g.opening :: content ++ if closed then [g.closing] else []

/-- The chunk is no group without its closing mark. -/
def Chunk.isClosed : Chunk → Bool
  | mark _ => true
  | word _ => true
  | group _ _ closed => closed

/-- The chunk is a word. -/
def Chunk.isWord : Chunk → Bool
  | mark _ => false
  | word _ => true
  | group _ _ _ => false

/-- The text is empty or starts with a mark. -/
def startsWithMark (t : Text) : Bool := t.head?.all isMark

/-- The text ends in a backslash that waits for its character. -/
def endsInEscape : Text → Bool
  | [] => false
  | [c] => c == '\\'
  | c :: e :: r => if c = '\\' then endsInEscape r else endsInEscape (e :: r)

@[simp] theorem startsWithMark_nil : startsWithMark [] = true := rfl

@[simp] theorem startsWithMark_cons (c : Char) (r : Text) : startsWithMark (c :: r) = isMark c := by
  rw [startsWithMark, List.head?_cons, Option.all_some]

@[simp] theorem not_isMark_backslash : isMark '\\' = false := by decide

theorem endsInEscape_cons {c : Char} (h : c ≠ '\\') (r : Text) :
    endsInEscape (c :: r) = endsInEscape r := by
  cases r with
  | nil => rw [endsInEscape, endsInEscape, beq_eq_false_iff_ne.mpr h]
  | cons e r => rw [endsInEscape, if_neg h]

theorem endsInEscape_escape (e : Char) (r : Text) :
    endsInEscape ('\\' :: e :: r) = endsInEscape r := by
  rw [endsInEscape, if_pos rfl]

theorem ne_backslash {c : Char} {r : Text} (hlone : c = '\\' → r = [] → False)
    (hescape : ∀ (e : Char) (r' : Text), c = '\\' → r = e :: r' → False) : c ≠ '\\' := by
  rintro rfl
  cases r with
  | nil => exact hlone rfl rfl
  | cons e r' => exact hescape e r' rfl rfl

/-- The induction on a text whose backslashes take the next character with them. -/
theorem escape_induction {motive : Text → Prop} (nil : motive []) (lone : motive ['\\'])
    (escape : ∀ e r, motive r → motive ('\\' :: e :: r))
    (plain : ∀ c r, c ≠ '\\' → motive r → motive (c :: r)) (t : Text) : motive t := by
  fun_induction endsInEscape t with
  | case1 => exact nil
  | case2 c =>
    by_cases hc : c = '\\'
    · subst hc
      exact lone
    · exact plain c [] hc nil
  | case3 e r ih => exact escape e r ih
  | case4 c e r hc ih => exact plain c (e :: r) hc ih

theorem endsInEscape_append {t : Text} (h : endsInEscape t = false) (u : Text) :
    endsInEscape (t ++ u) = endsInEscape u := by
  fun_induction endsInEscape t with
  | case1 => rfl
  | case2 c => exact endsInEscape_cons (beq_eq_false_iff_ne.mp h) u
  | case3 e r ih =>
    rw [List.cons_append, List.cons_append, endsInEscape_escape]
    exact ih h
  | case4 c e r hc ih =>
    rw [List.cons_append, endsInEscape_cons hc]
    exact ih h

theorem endsInEscape_concat {c : Char} (hc : c ≠ '\\') (t : Text) :
    endsInEscape (t ++ [c]) = false := by
  induction t using escape_induction with
  | nil => exact beq_eq_false_iff_ne.mpr hc
  | lone => exact endsInEscape_escape c []
  | escape e r ih => exact (endsInEscape_escape e _).trans ih
  | plain d r hd ih => exact (endsInEscape_cons hd _).trans ih

theorem getLast?_of_escape {t : Text} (h : endsInEscape t = true) : t.getLast? = some '\\' := by
  rcases List.eq_nil_or_concat t with rfl | ⟨u, c, rfl⟩
  · exact absurd h Bool.false_ne_true
  · rw [List.concat_eq_append] at h ⊢
    by_contra hlast
    rw [List.getLast?_concat, Option.some_inj] at hlast
    rw [endsInEscape_concat hlast] at h
    exact absurd h Bool.false_ne_true

/-! ### Groups -/

theorem Inside.eq_closing_of_step {g : Group} {s : Inside} {c : Char} (h : s.step g c = none) :
    c = g.closing := by
  unfold Inside.step at h
  cases hquote : s.quote with
  | some q => rw [hquote] at h; exact absurd h (by simp)
  | none =>
    rw [hquote] at h
    cases g with
    | parens =>
      by_cases hstring : (c = '"' ∨ c = '\'') ∧ opensString s.previous = true
      · simp [hstring] at h
      · by_cases hopen : c = '('
        · simp [hopen] at h
        · by_cases hclose : c = ')'
          · exact hclose
          · simp [hstring, hopen, hclose] at h
    | square =>
      by_cases hstring : c = '"' ∨ c = '\''
      · simp [hstring] at h
      · by_cases hclose : c = ']'
        · exact hclose
        · simp [hstring, hclose] at h
    | quoted q =>
      by_cases hclose : c = q
      · exact hclose
      · simp [hclose] at h

theorem groupContent_escape (g : Group) (s : Inside) (e : Char) (r : Text) :
    groupContent g s ('\\' :: e :: r) =
      Text.onto '\\' (Text.onto e (groupContent g { s with previous := e } r)) := by
  conv_lhs => unfold groupContent
  rfl

theorem groupContent_cons {c : Char} (hc : c ≠ '\\') (g : Group) (s : Inside) (r : Text) :
    groupContent g s (c :: r) =
      match s.step g c with
      | none => ([], c :: r)
      | some s' => Text.onto c (groupContent g s' r) := by
  conv_lhs => unfold groupContent
  split
  · rename_i heq
    exact absurd heq (List.cons_ne_nil _ _)
  · rename_i heq
    exact absurd (List.cons.inj heq).1 hc
  · rename_i heq
    exact absurd (List.cons.inj heq).1 hc
  · rename_i heq
    obtain ⟨rfl, rfl⟩ := List.cons.inj heq
    rfl

/-- What follows the content of a group is nothing, or the closing mark. -/
theorem head?_groupContent_snd (g : Group) (s : Inside) (t : Text) :
    ∀ c ∈ (groupContent g s t).2.head?, c = g.closing := by
  fun_induction groupContent g s t with
  | case1 => simp
  | case2 => simp
  | case3 s e r ih => exact ih
  | case4 s c r _ _ hstep =>
    intro d hd
    rw [← Option.some_inj.mp hd]
    exact Inside.eq_closing_of_step hstep
  | case5 s c r _ _ s' hstep ih => exact ih

/-- Where a group is closed depends on nothing behind its closing mark. -/
theorem groupContent_eq_of_closed {g : Group} {s : Inside} {t x y : Text} {c : Char}
    (h : groupContent g s t = (x, c :: y)) (z : Text) :
    groupContent g s (x ++ c :: z) = (x, c :: z) := by
  fun_induction groupContent g s t generalizing x with
  | case1 => exact absurd h (by simp)
  | case2 => exact absurd h (by simp)
  | case3 s e r ih =>
    obtain ⟨rfl, htail⟩ := Prod.mk.inj h
    have hinner := ih (Prod.ext rfl htail)
    rw [Text.onto_fst, List.cons_append, List.cons_append, groupContent_escape, hinner]
    rfl
  | case4 s d r hlone hescape hstep =>
    obtain ⟨rfl, htail⟩ := Prod.mk.inj h
    obtain ⟨rfl, rfl⟩ := List.cons.inj htail
    rw [List.nil_append, groupContent_cons (ne_backslash hlone hescape), hstep]
  | case5 s d r hlone hescape s' hstep ih =>
    obtain ⟨rfl, htail⟩ := Prod.mk.inj h
    have hinner := ih (Prod.ext rfl htail)
    rw [List.cons_append, groupContent_cons (ne_backslash hlone hescape), hstep]
    simp only [hinner]
    rfl

theorem groupContent_append_of_closed {g : Group} {s : Inside} {t : Text}
    (h : (groupContent g s t).2 ≠ []) (u : Text) :
    groupContent g s (t ++ u) = ((groupContent g s t).1, (groupContent g s t).2 ++ u) := by
  obtain ⟨c, y, hrest⟩ := List.exists_cons_of_ne_nil h
  have hall := groupContent_append g s t
  have hsame := groupContent_eq_of_closed (Prod.ext rfl hrest : groupContent g s t = (_, c :: y))
    (y ++ u)
  rw [hrest] at hall ⊢
  rw [← hall, List.append_assoc, List.cons_append, hsame, hall]

/-- The content of a closed group does not end in a waiting backslash. -/
theorem endsInEscape_groupContent_fst {g : Group} {s : Inside} {t : Text}
    (h : (groupContent g s t).2 ≠ []) : endsInEscape (groupContent g s t).1 = false := by
  fun_induction groupContent g s t with
  | case1 => exact absurd rfl h
  | case2 => exact absurd rfl h
  | case3 s e r ih => exact ih h
  | case4 s c r _ _ hstep => rfl
  | case5 s c r hlone hescape s' hstep ih =>
    rw [Text.onto_fst, endsInEscape_cons (ne_backslash hlone hescape)]
    exact ih h

theorem Group.closing_ne_backslash {c : Char} {g : Group} (h : ofMark? c = some g) :
    g.closing ≠ '\\' := by
  cases g with
  | parens => decide
  | square => decide
  | quoted q =>
    have hq : q = c := opening_of_ofMark? h
    subst hq
    rintro hq
    rw [Group.closing] at hq
    subst hq
    exact absurd h (by decide)

/-- The text is the whole content of a group in round brackets: from this state of its reader, the
bracket right behind the text closes it. -/
def Inside.Fills (i : Inside) (t : Text) : Prop :=
  groupContent .parens i (t ++ [')']) = (t, [')'])

instance (i : Inside) (t : Text) : Decidable (i.Fills t) :=
  inferInstanceAs (Decidable (groupContent .parens i (t ++ [')']) = (t, [')'])))

namespace Inside

variable {i : Inside} {t : Text}

/-- It does not matter what stands behind the bracket. -/
theorem fills_iff (z : Text) : i.Fills t ↔ groupContent .parens i (t ++ ')' :: z) = (t, ')' :: z) :=
  ⟨fun h => groupContent_eq_of_closed h z, fun h => groupContent_eq_of_closed h []⟩

theorem fills_escape (e : Char) : i.Fills ('\\' :: e :: t) ↔ Fills { i with previous := e } t := by
  unfold Fills
  rw [List.cons_append, List.cons_append, groupContent_escape]
  simp only [Text.onto, List.cons.injEq, true_and, Prod.ext_iff]

theorem not_fills_backslash : ¬ i.Fills ['\\'] := by
  unfold Fills
  rw [List.singleton_append, groupContent_escape]
  intro h
  exact absurd (congrArg Prod.snd h) (List.cons_ne_nil _ _).symm

theorem fills_nil : i.Fills [] ↔ i.step .parens ')' = none := by
  unfold Fills
  rw [List.nil_append, groupContent_cons (by decide)]
  cases hstep : i.step .parens ')' with
  | none => simp
  | some j => simp [Text.onto]

theorem fills_cons {c : Char} (hc : c ≠ '\\') :
    i.Fills (c :: t) ↔ ∃ j, i.step .parens c = some j ∧ j.Fills t := by
  unfold Fills
  rw [List.cons_append, groupContent_cons hc]
  cases hstep : i.step .parens c with
  | none => simp
  | some j => simp [Text.onto, Prod.ext_iff]

end Inside

/-! ### Words -/

theorem takeWord_escape (e : Char) (r : Text) :
    takeWord ('\\' :: e :: r) = Text.onto '\\' (Text.onto e (takeWord r)) := rfl

theorem takeWord_cons {c : Char} (hc : c ≠ '\\') (r : Text) :
    takeWord (c :: r) = if isMark c then ([], c :: r) else Text.onto c (takeWord r) := by
  conv_lhs => unfold takeWord
  split
  · rename_i heq
    exact absurd heq (List.cons_ne_nil _ _)
  · rename_i heq
    exact absurd (List.cons.inj heq).1 hc
  · rename_i heq
    obtain ⟨rfl, rfl⟩ := List.cons.inj heq
    rfl

theorem takeWord_of_mark {c : Char} (h : isMark c = true) (r : Text) :
    takeWord (c :: r) = ([], c :: r) := by
  have hc : c ≠ '\\' := by
    rintro rfl
    exact absurd h (by simp)
  rw [takeWord_cons hc, if_pos h]

theorem takeWord_of_not_mark {c : Char} (h : isMark c = false) (hc : c ≠ '\\') (r : Text) :
    takeWord (c :: r) = Text.onto c (takeWord r) := by
  rw [takeWord_cons hc, if_neg (by rw [h]; exact Bool.false_ne_true)]

/-- A word ends where the text does, or in front of a mark. -/
theorem startsWithMark_takeWord_snd (t : Text) : startsWithMark (takeWord t).2 = true := by
  fun_induction takeWord t with
  | case1 => rfl
  | case2 e r ih => exact ih
  | case3 c r _ hmark => exact hmark
  | case4 c r _ hmark ih => exact ih

/-- A word in front of a mark does not end in a waiting backslash. -/
theorem endsInEscape_takeWord_fst {t : Text} (h : (takeWord t).2 ≠ []) :
    endsInEscape (takeWord t).1 = false := by
  fun_induction takeWord t with
  | case1 => exact absurd rfl h
  | case2 e r ih => exact ih h
  | case3 c r _ hmark => rfl
  | case4 c r hescape hmark ih =>
    by_cases hc : c = '\\'
    · -- a lone backslash leaves nothing behind
      subst hc
      cases r with
      | nil => exact absurd rfl h
      | cons e r => exact absurd rfl (hescape e r rfl)
    · rw [Text.onto_fst, endsInEscape_cons hc]
      exact ih h

/-- A word that does not end in a waiting backslash goes up to the next mark, whatever follows. -/
theorem takeWord_append_of_word {t : Text} (h : (takeWord t).2 = [])
    (hescape : endsInEscape t = false) (z : Text) :
    takeWord (t ++ z) = (t ++ (takeWord z).1, (takeWord z).2) := by
  fun_induction takeWord t with
  | case1 => rfl
  | case2 e r ih =>
    rw [List.cons_append, List.cons_append, takeWord_escape, ih h hescape]
    rfl
  | case3 c r _ hmark => exact absurd h (by simp)
  | case4 c r hlone hmark ih =>
    have hc : c ≠ '\\' := by
      rintro rfl
      cases r with
      | nil => exact absurd hescape (by simp [endsInEscape])
      | cons e r => exact hlone e r rfl rfl
    rw [endsInEscape_cons hc] at hescape
    rw [List.cons_append, takeWord_of_not_mark (Bool.not_eq_true _ ▸ hmark) hc, ih h hescape]
    rfl

theorem takeWord_of_startsWithMark {z : Text} (h : startsWithMark z = true) :
    takeWord z = ([], z) := by
  cases z with
  | nil => rfl
  | cons c r => exact takeWord_of_mark h r

/-- What a word takes stays the same when the text goes on, if the word ends before. -/
theorem takeWord_append_of_seam {t u : Text}
    (h : (takeWord t).2 = [] → endsInEscape t = false ∧ startsWithMark u = true) :
    takeWord (t ++ u) = ((takeWord t).1, (takeWord t).2 ++ u) := by
  fun_induction takeWord t with
  | case1 => exact takeWord_of_startsWithMark (h rfl).2
  | case2 e r ih =>
    rw [List.cons_append, List.cons_append, takeWord_escape, ih h]
    rfl
  | case3 c r _ hmark => exact takeWord_of_mark hmark _
  | case4 c r hescape hmark ih =>
    by_cases hc : c = '\\'
    · subst hc
      cases r with
      | nil => exact absurd (h rfl).1 (by simp [endsInEscape])
      | cons e r => exact absurd rfl (hescape e r rfl)
    · rw [Text.onto_snd, endsInEscape_cons hc] at h
      rw [List.cons_append, takeWord_of_not_mark (Bool.not_eq_true _ ▸ hmark) hc, ih h]
      rfl

/-- What a word takes of a text, it takes by itself. -/
theorem takeWord_fst (t : Text) : takeWord (takeWord t).1 = ((takeWord t).1, []) := by
  fun_induction takeWord t with
  | case1 => rfl
  | case2 e r ih =>
    rw [Text.onto_fst, Text.onto_fst, takeWord_escape, ih]
    rfl
  | case3 c r _ hmark => rfl
  | case4 c r hescape hmark ih =>
    by_cases hc : c = '\\'
    · subst hc
      cases r with
      | nil => rfl
      | cons e r => exact absurd rfl (hescape e r rfl)
    · rw [Text.onto_fst, takeWord_of_not_mark (Bool.not_eq_true _ ▸ hmark) hc, ih]
      rfl

theorem endsInEscape_takeWord_snd {t : Text} (h : endsInEscape t = false) :
    endsInEscape (takeWord t).2 = false := by
  by_cases hrest : (takeWord t).2 = []
  · rw [hrest]
    rfl
  · rw [← takeWord_append t, endsInEscape_append (endsInEscape_takeWord_fst hrest)] at h
    exact h

/-! ### Chunks -/

theorem ne_backslash_of_isMark {c : Char} (h : isMark c = true) : c ≠ '\\' := by
  rintro rfl
  exact absurd h (by simp)

theorem mem_getLast?_cons {α : Type} {k : α} {l : List α} (h : k ∈ l.getLast?) (a : α) :
    k ∈ (a :: l).getLast? := by
  rw [List.getLast?_cons_of_ne_nil]
  · exact h
  · rintro rfl
    exact absurd h (by simp)

theorem isMark_of_ofMark? {c : Char} {g : Group} (h : Group.ofMark? c = some g) :
    isMark c = true := by
  unfold Group.ofMark? at h
  by_cases hparens : c = '('
  · subst hparens; decide
  · by_cases hsquare : c = '['
    · subst hsquare; decide
    · by_cases hquote : c = '"' ∨ c = '\''
      · rcases hquote with rfl | rfl <;> decide
      · simp [hparens, hsquare, hquote] at h

theorem not_blank_of_ofMark? {c : Char} {g : Group} (hopen : Group.ofMark? c = some g) :
    Text.isBlank c = false := by
  unfold Group.ofMark? at hopen
  by_cases hparens : c = '('
  · subst hparens; decide
  · by_cases hsquare : c = '['
    · subst hsquare; decide
    · by_cases hquote : c = '"' ∨ c = '\''
      · rcases hquote with rfl | rfl <;> decide
      · simp [hparens, hsquare, hquote] at hopen

theorem isMark_of_blank {c : Char} (hc : Text.isBlank c = true) : isMark c = true := by
  rw [isMark, hc, Bool.true_or]

/-- A blank opens no group. -/
theorem ofMark?_of_blank {c : Char} (hc : Text.isBlank c = true) : Group.ofMark? c = none := by
  by_contra hne
  obtain ⟨g, hg⟩ := Option.ne_none_iff_exists'.mp hne
  rw [not_blank_of_ofMark? hg] at hc
  exact absurd hc (by simp)

theorem chunks_nil : chunks [] = [] := by
  unfold chunks
  rfl

theorem chunks_of_word {c : Char} (h : isMark c = false) (r : Text) :
    chunks (c :: r) = .word (takeWord (c :: r)).1 :: chunks (takeWord (c :: r)).2 := by
  conv_lhs => unfold chunks
  exact if_pos h

theorem chunks_of_mark {c : Char} (h : isMark c = true) (hopen : Group.ofMark? c = none)
    (r : Text) : chunks (c :: r) = .mark c :: chunks r := by
  conv_lhs => unfold chunks
  simp only
  rw [if_neg (by rw [h]; exact Bool.noConfusion), hopen]

theorem chunks_of_group {c : Char} {g : Group} (hopen : Group.ofMark? c = some g) (r : Text) :
    chunks (c :: r) =
      .group g (groupContent g ⟨0, none, c⟩ r).1 (!(groupContent g ⟨0, none, c⟩ r).2.isEmpty) ::
        chunks (groupContent g ⟨0, none, c⟩ r).2.tail := by
  conv_lhs => unfold chunks
  simp only
  rw [if_neg (by rw [isMark_of_ofMark? hopen]; exact Bool.noConfusion), hopen]

/-- The induction on the chunks of a text: nothing, a word, a mark that opens no group, a group. -/
theorem chunks_induction {motive : Text → Prop} (nil : motive [])
    (word : ∀ c r, isMark c = false → motive (takeWord (c :: r)).2 → motive (c :: r))
    (mark : ∀ c r, isMark c = true → Group.ofMark? c = none → motive r → motive (c :: r))
    (group : ∀ c r g, Group.ofMark? c = some g →
      motive (groupContent g ⟨0, none, c⟩ r).2.tail → motive (c :: r))
    (t : Text) : motive t := by
  fun_induction chunks t with
  | case1 => exact nil
  | case2 c r hmark ih => exact word c r hmark ih
  | case3 c r hmark hopen ih => exact mark c r (Bool.not_eq_false _ ▸ hmark) hopen ih
  | case4 c r hmark g hopen inside ih => exact group c r g hopen ih

/-- The chunks of a text make up the text. -/
theorem flatMap_text_chunks (t : Text) : (chunks t).flatMap Chunk.text = t := by
  induction t using chunks_induction with
  | nil => rw [chunks_nil]; rfl
  | word c r hmark ih =>
    rw [chunks_of_word hmark, List.flatMap_cons, ih]
    exact takeWord_append (c :: r)
  | mark c r hmark hopen ih =>
    rw [chunks_of_mark hmark hopen, List.flatMap_cons, ih]
    rfl
  | group c r g hopen ih =>
    rw [chunks_of_group hopen, List.flatMap_cons, ih, Chunk.text,
      Group.opening_of_ofMark? hopen]
    have hall := groupContent_append g ⟨0, none, c⟩ r
    cases hrest : (groupContent g ⟨0, none, c⟩ r).2 with
    | nil =>
      rw [hrest, List.append_nil] at hall
      simp [hall]
    | cons d y =>
      have hclosing := head?_groupContent_snd g ⟨0, none, c⟩ r d (by rw [hrest]; rfl)
      rw [hrest] at hall
      conv_rhs => rw [← hall]
      simp [hclosing]

/-- No word starts in front of a mark. -/
theorem isWord_head?_chunks {t : Text} (h : startsWithMark t = true) :
    ∀ k ∈ (chunks t).head?, k.isWord = false := by
  cases t with
  | nil =>
    rw [chunks_nil]
    exact fun k hk => absurd hk (by simp)
  | cons c r =>
    rw [startsWithMark_cons] at h
    intro k hk
    cases hopen : Group.ofMark? c with
    | none =>
      rw [chunks_of_mark h hopen] at hk
      rw [← Option.some_inj.mp hk]
      rfl
    | some g =>
      rw [chunks_of_group hopen] at hk
      rw [← Option.some_inj.mp hk]
      rfl

/-- A word makes one chunk. -/
theorem chunks_takeWord_fst {c : Char} (h : isMark c = false) (r : Text) :
    chunks (takeWord (c :: r)).1 = [.word (takeWord (c :: r)).1] := by
  obtain ⟨w, hw⟩ : ∃ w, (takeWord (c :: r)).1 = c :: w := by
    by_cases hc : c = '\\'
    · subst hc
      cases r with
      | nil => exact ⟨[], rfl⟩
      | cons e r => exact ⟨_, rfl⟩
    · rw [takeWord_of_not_mark h hc]
      exact ⟨_, rfl⟩
  have htake := takeWord_fst (c :: r)
  rw [hw] at htake ⊢
  rw [chunks_of_word h, htake, chunks_nil]

/-- A closed group makes one chunk, and what follows it is cut by itself. -/
theorem chunks_closed_group {c d : Char} {g : Group} (hopen : Group.ofMark? c = some g)
    {content z : Text} (h : groupContent g ⟨0, none, c⟩ (content ++ d :: z) = (content, d :: z)) :
    chunks (c :: (content ++ d :: z)) = .group g content true :: chunks z := by
  rw [chunks_of_group hopen, h]
  rfl

/-- What follows a closed group ends in a waiting backslash if the whole text does. -/
theorem endsInEscape_group {c d : Char} {r y : Text} {g : Group} (hopen : Group.ofMark? c = some g)
    (hd : (groupContent g ⟨0, none, c⟩ r).2 = d :: y) (hescape : endsInEscape (c :: r) = false) :
    endsInEscape y = false := by
  have hrest : (groupContent g ⟨0, none, c⟩ r).2 ≠ [] := by
    rw [hd]
    exact List.cons_ne_nil d y
  have hall := groupContent_append g ⟨0, none, c⟩ r
  have hclosing := head?_groupContent_snd g ⟨0, none, c⟩ r d (by rw [hd]; rfl)
  rw [endsInEscape_cons (ne_backslash_of_isMark (isMark_of_ofMark? hopen)), ← hall, hd,
    endsInEscape_append (endsInEscape_groupContent_fst hrest), endsInEscape_cons] at hescape
  · exact hescape
  · rw [hclosing]
    exact Group.closing_ne_backslash hopen

/-- A text that ends outside groups, and not in a waiting backslash, is cut by itself when it goes
on, unless a word goes on with a word. -/
theorem chunks_append {t u : Text} (hclosed : ∀ k ∈ chunks t, k.isClosed = true)
    (hescape : endsInEscape t = false)
    (hseam : ∀ k ∈ (chunks t).getLast?, k.isWord = true → startsWithMark u = true) :
    chunks (t ++ u) = chunks t ++ chunks u := by
  induction t using chunks_induction with
  | nil => rw [chunks_nil]; rfl
  | word c r hmark ih =>
    rw [chunks_of_word hmark] at hclosed hseam ⊢
    have htake : takeWord (c :: (r ++ u)) =
        ((takeWord (c :: r)).1, (takeWord (c :: r)).2 ++ u) := by
      refine takeWord_append_of_seam (t := c :: r) fun hrest => ⟨hescape, ?_⟩
      rw [hrest, chunks_nil] at hseam
      exact hseam _ rfl rfl
    rw [List.cons_append, chunks_of_word hmark, htake, List.cons_append]
    rw [ih (fun k hk => hclosed k (List.mem_cons_of_mem _ hk)) (endsInEscape_takeWord_snd hescape)
      fun k hk => hseam k (mem_getLast?_cons hk _)]
  | mark c r hmark hopen ih =>
    rw [chunks_of_mark hmark hopen] at hclosed hseam ⊢
    rw [endsInEscape_cons (ne_backslash_of_isMark hmark)] at hescape
    rw [List.cons_append, chunks_of_mark hmark hopen, List.cons_append]
    rw [ih (fun k hk => hclosed k (List.mem_cons_of_mem _ hk)) hescape
      fun k hk => hseam k (mem_getLast?_cons hk _)]
  | group c r g hopen ih =>
    rw [chunks_of_group hopen] at hclosed hseam ⊢
    have hrest : (groupContent g ⟨0, none, c⟩ r).2 ≠ [] := by
      have := hclosed _ (List.mem_cons_self ..)
      simpa [Chunk.isClosed] using this
    have hgroup := groupContent_append_of_closed hrest u
    obtain ⟨d, y, hd⟩ := List.exists_cons_of_ne_nil hrest
    rw [List.cons_append, chunks_of_group hopen, hgroup, List.cons_append]
    rw [hd, List.cons_append, List.tail_cons, List.isEmpty_cons, List.isEmpty_cons, List.tail_cons]
    rw [hd, List.tail_cons] at ih hclosed hseam
    rw [ih (fun k hk => hclosed k (List.mem_cons_of_mem _ hk)) (endsInEscape_group hopen hd hescape)
      fun k hk => hseam k (mem_getLast?_cons hk _)]

end Extended
end CosmeticFilter
