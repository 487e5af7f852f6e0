import CosmeticFilter.Proofs.Extended.Chunks
import CosmeticFilter.Proofs.Text.Trim

/-!
# Chunks and the text behind them

What the text of a chunk is cut into by itself, and what becomes of the last chunk of a text that
goes on: a word goes on with a word, and anything else ends where it is.

* `Chunk.IsCut`, `cut_induction`: the chunks of a text are cut off one after the other;
* `chunks_take`, `chunks_exchange`: the first chunks of a text, with something else behind them;
* `IsWord`, `chunks_append_word`: a word that goes on;
* `IsWord.trimEnd`: trimming leaves a word;
* `startsWithMark_text`, `not_blank_getLast?`: the ends of other chunks;
* `exists_chunks_append_word`, `chunks_append_escaped`: where a text goes on with a word.
-/

namespace CosmeticFilter
namespace Extended

/-- The chunk has been cut off in front of a text. -/
structure Chunk.IsCut (k : Chunk) (r : Text) : Prop where
  /-- It is not empty. -/
  text_ne_nil : k.text ≠ []
  /-- It is the only chunk of its text, if it is not left open. -/
  chunks_text : k.isClosed = true → chunks k.text = [k]
  /-- A mark follows a word. -/
  seam : k.isWord = true → startsWithMark r = true
  /-- It does not end in a waiting backslash, if anything follows it. -/
  escape : r ≠ [] → endsInEscape k.text = false

theorem isCut_word {c : Char} (h : isMark c = false) (r : Text) :
    (Chunk.word (takeWord (c :: r)).1).IsCut (takeWord (c :: r)).2 := by
  refine ⟨fun hnil => ?_, fun _ => chunks_takeWord_fst h r, fun _ => startsWithMark_takeWord_snd _,
    endsInEscape_takeWord_fst⟩
  have hchunks := chunks_takeWord_fst h r
  rw [show (takeWord (c :: r)).1 = [] from hnil, chunks_nil] at hchunks
  exact absurd hchunks (List.cons_ne_nil _ _).symm

theorem isCut_mark {c : Char} (h : isMark c = true) (hopen : Group.ofMark? c = none) (r : Text) :
    (Chunk.mark c).IsCut r := by
  refine ⟨List.cons_ne_nil _ _, fun _ => ?_, fun hword => absurd hword Bool.false_ne_true,
    fun _ => beq_eq_false_iff_ne.mpr (ne_backslash_of_isMark h)⟩
  rw [Chunk.text, chunks_of_mark h hopen, chunks_nil]

theorem isCut_group {c : Char} {g : Group} (hopen : Group.ofMark? c = some g) (r : Text) :
    (Chunk.group g (groupContent g ⟨0, none, c⟩ r).1
      (!(groupContent g ⟨0, none, c⟩ r).2.isEmpty)).IsCut
        (groupContent g ⟨0, none, c⟩ r).2.tail := by
  refine ⟨fun hnil => absurd (List.append_eq_nil_iff.mp hnil).1 (List.cons_ne_nil _ _), ?_,
    fun hword => absurd hword Bool.false_ne_true, ?_⟩
  · intro hclosed
    obtain ⟨d, y, hd⟩ : ∃ d y, (groupContent g ⟨0, none, c⟩ r).2 = d :: y :=
      List.exists_cons_of_ne_nil (by simpa [Chunk.isClosed] using hclosed)
    have hclosing := head?_groupContent_snd g ⟨0, none, c⟩ r d (by rw [hd]; rfl)
    have hsame := groupContent_eq_of_closed (Prod.ext rfl hd :
      groupContent g ⟨0, none, c⟩ r = ((groupContent g ⟨0, none, c⟩ r).1, d :: y)) []
    have hone := chunks_closed_group hopen hsame
    rw [chunks_nil, hclosing] at hone
    rw [Chunk.text, hd, Group.opening_of_ofMark? hopen]
    exact hone
  · intro htail
    have hrest : (groupContent g ⟨0, none, c⟩ r).2 ≠ [] := by
      intro hnil
      rw [hnil] at htail
      exact htail rfl
    rw [Chunk.text, List.isEmpty_eq_false_iff.mpr hrest, Group.opening_of_ofMark? hopen,
      List.cons_append, endsInEscape_cons (ne_backslash_of_isMark (isMark_of_ofMark? hopen)),
      endsInEscape_append (endsInEscape_groupContent_fst hrest)]
    exact beq_eq_false_iff_ne.mpr (Group.closing_ne_backslash hopen)

/-- The induction on a text that takes off one chunk after the other. -/
theorem cut_induction {motive : Text → Prop} (nil : motive [])
    (cons : ∀ k r, chunks (k.text ++ r) = k :: chunks r → k.IsCut r → motive r →
      motive (k.text ++ r)) (t : Text) : motive t := by
  have hcons : ∀ {t r : Text} {k : Chunk}, chunks t = k :: chunks r → k.IsCut r → motive r →
      motive t := by
    intro t r k hchunks hcut hr
    have htext : t = k.text ++ r := by
      rw [← flatMap_text_chunks t, hchunks, List.flatMap_cons, flatMap_text_chunks]
    rw [htext] at hchunks ⊢
    exact cons k r hchunks hcut hr
  induction t using chunks_induction with
  | nil => exact nil
  | word c r hmark ih => exact hcons (chunks_of_word hmark r) (isCut_word hmark r) ih
  | mark c r hmark hopen ih => exact hcons (chunks_of_mark hmark hopen r) (isCut_mark hmark hopen r) ih
  | group c r g hopen ih => exact hcons (chunks_of_group hopen r) (isCut_group hopen r) ih

/-- A chunk that is not left open is the only chunk of its text. -/
theorem chunks_text {t : Text} {k : Chunk} (hk : k ∈ chunks t) (hclosed : k.isClosed = true) :
    chunks k.text = [k] := by
  induction t using cut_induction with
  | nil =>
    rw [chunks_nil] at hk
    exact absurd hk List.not_mem_nil
  | cons l r hchunks hcut ih =>
    rw [hchunks] at hk
    rcases List.mem_cons.mp hk with rfl | hk
    · exact hcut.chunks_text hclosed
    · exact ih hk

theorem startsWithMark_append {t : Text} (h : t ≠ []) (u : Text) :
    startsWithMark (t ++ u) = startsWithMark t := by
  obtain ⟨c, r, rfl⟩ := List.exists_cons_of_ne_nil h
  rw [List.cons_append, startsWithMark_cons, startsWithMark_cons]

/-- The first chunks of a text, if none of them is left open, are the chunks of their own text. -/
theorem chunks_take {t : Text} {ks ls : List Chunk} (h : chunks t = ks ++ ls)
    (hclosed : ∀ k ∈ ks, k.isClosed = true) :
    chunks (ks.flatMap Chunk.text) = ks ∧
      (ls ≠ [] → endsInEscape (ks.flatMap Chunk.text) = false) ∧
      ∀ k ∈ ks.getLast?, k.isWord = true → startsWithMark (ls.flatMap Chunk.text) = true := by
  induction t using cut_induction generalizing ks with
  | nil =>
    rw [chunks_nil] at h
    obtain ⟨rfl, rfl⟩ := List.append_eq_nil_iff.mp h.symm
    exact ⟨chunks_nil, fun _ => rfl, fun k hk => absurd hk (by simp)⟩
  | cons l r hchunks hcut ih =>
    rw [hchunks] at h
    cases ks with
    | nil => exact ⟨chunks_nil, fun _ => rfl, fun k hk => absurd hk (by simp)⟩
    | cons k ks =>
      rw [List.cons_append] at h
      obtain ⟨rfl, hr⟩ := List.cons.inj h
      have hrest : r = ks.flatMap Chunk.text ++ ls.flatMap Chunk.text := by
        rw [← flatMap_text_chunks r, hr, List.flatMap_append]
      obtain ⟨htake, hescape, hseam⟩ := ih hr fun k' hk' => hclosed k' (List.mem_cons_of_mem _ hk')
      have hone := hcut.chunks_text (hclosed l (List.mem_cons_self ..))
      cases ks with
      | nil =>
        rw [List.flatMap_nil, List.nil_append] at hrest
        rw [List.flatMap_singleton]
        refine ⟨hone, fun hls => hcut.escape fun hnil => hls ?_, fun k hk hword => ?_⟩
        · rw [hnil, chunks_nil] at hr
          exact hr.symm
        · obtain rfl : l = k := Option.some_inj.mp hk
          rw [← hrest]
          exact hcut.seam hword
      | cons k' ks =>
        have hne : (k' :: ks).flatMap Chunk.text ≠ [] := by
          intro hnil
          rw [hnil, chunks_nil] at htake
          exact absurd htake (List.cons_ne_nil _ _).symm
        have hl : endsInEscape l.text = false := hcut.escape fun hnil =>
          hne (List.append_eq_nil_iff.mp (hrest.symm.trans hnil)).1
        rw [List.flatMap_cons]
        refine ⟨?_, fun hls => ?_, fun k hk => hseam k ?_⟩
        · rw [chunks_append, hone, htake]
          · rfl
          · rw [hone]
            exact fun k hk => List.mem_singleton.mp hk ▸ hclosed l (List.mem_cons_self ..)
          · exact hl
          · rw [hone]
            intro k hk hword
            obtain rfl : l = k := Option.some_inj.mp hk
            rw [← startsWithMark_append hne (ls.flatMap Chunk.text), ← hrest]
            exact hcut.seam hword
        · rw [endsInEscape_append hl]
          exact hescape hls
        · rw [List.getLast?_cons_cons] at hk
          exact hk

/-- What follows the first chunks of a text may be replaced by something else that starts with a
mark if it does. -/
theorem chunks_exchange {t u : Text} {ks ls : List Chunk} (h : chunks t = ks ++ ls)
    (hclosed : ∀ k ∈ ks, k.isClosed = true) (hls : ls ≠ [])
    (hu : startsWithMark (ls.flatMap Chunk.text) = true → startsWithMark u = true) :
    chunks (ks.flatMap Chunk.text ++ u) = ks ++ chunks u := by
  obtain ⟨htake, hescape, hseam⟩ := chunks_take h hclosed
  rw [chunks_append (htake.symm ▸ hclosed) (hescape hls), htake]
  rw [htake]
  exact fun k hk hword => hu (hseam k hk hword)

/-! ### Words -/

/-- The text is one word. -/
def IsWord (w : Text) : Prop := chunks w = [.word w]

instance (w : Text) : Decidable (IsWord w) := inferInstanceAs (Decidable (chunks w = [.word w]))

/-- A word is not empty, starts with no mark, and is taken as a whole. -/
theorem IsWord.cases {w : Text} (h : IsWord w) :
    ∃ c r, w = c :: r ∧ isMark c = false ∧ takeWord w = (w, []) := by
  unfold IsWord at h
  cases w with
  | nil =>
    rw [chunks_nil] at h
    exact absurd h (List.cons_ne_nil _ _).symm
  | cons c r =>
    cases hmark : isMark c with
    | false =>
      rw [chunks_of_word hmark] at h
      have hfst : (takeWord (c :: r)).1 = c :: r := Chunk.word.inj (List.cons.inj h).1
      have hall := takeWord_append (c :: r)
      rw [hfst] at hall
      exact ⟨c, r, rfl, hmark, Prod.ext hfst (List.self_eq_append_right.mp hall.symm)⟩
    | true =>
      cases hopen : Group.ofMark? c with
      | none =>
        rw [chunks_of_mark hmark hopen] at h
        exact absurd (List.cons.inj h).1 (by simp)
      | some g =>
        rw [chunks_of_group hopen] at h
        exact absurd (List.cons.inj h).1 (by simp)

theorem isWord_of_takeWord {c : Char} (h : isMark c = false) (r : Text) :
    IsWord (takeWord (c :: r)).1 := chunks_takeWord_fst h r

theorem IsWord.ne_nil {w : Text} (h : IsWord w) : w ≠ [] := by
  obtain ⟨c, r, rfl, -, -⟩ := h.cases
  exact List.cons_ne_nil c r

theorem not_blank_of_not_isMark {c : Char} (h : isMark c = false) : Text.isBlank c = false := by
  unfold isMark at h
  exact (Bool.or_eq_false_iff.mp h).1

theorem IsWord.not_blank {w : Text} (h : IsWord w) : ∀ c ∈ w.head?, Text.isBlank c = false := by
  obtain ⟨c, r, rfl, hmark, -⟩ := h.cases
  intro d hd
  rw [← Option.some_inj.mp hd]
  exact not_blank_of_not_isMark hmark

/-- A word goes on with a word. -/
theorem IsWord.append {v w : Text} (hv : IsWord v) (hw : IsWord w)
    (hescape : endsInEscape v = false) : IsWord (v ++ w) := by
  obtain ⟨c, r, rfl, hmark, htake⟩ := hv.cases
  obtain ⟨-, -, -, -, htake'⟩ := hw.cases
  have hboth := takeWord_append_of_word (congrArg Prod.snd htake) hescape w
  rw [htake'] at hboth
  unfold IsWord
  rw [List.cons_append] at hboth ⊢
  rw [chunks_of_word hmark, hboth, chunks_nil]

theorem text_ne_nil {k : Chunk} (h : chunks k.text = [k]) : k.text ≠ [] := by
  intro hnil
  rw [hnil, chunks_nil] at h
  exact absurd h (List.cons_ne_nil _ _).symm

theorem eq_nil_of_chunks {t : Text} (h : chunks t = []) : t = [] := by
  rw [← flatMap_text_chunks t, h]
  rfl

/-- Behind a text that ends with a word, a word goes on with it. -/
theorem chunks_append_word {t v w : Text} {ks : List Chunk} (h : chunks t = ks ++ [.word v])
    (hclosed : ∀ k ∈ chunks t, k.isClosed = true) (hescape : endsInEscape t = false)
    (hw : IsWord w) : chunks (t ++ w) = ks ++ [.word (v ++ w)] := by
  have hmem : Chunk.word v ∈ chunks t := h ▸ List.mem_append_right _ (List.mem_singleton_self _)
  have hks : ∀ k ∈ ks, k.isClosed = true := fun k hk =>
    hclosed k (h ▸ List.mem_append_left _ hk)
  have hv : IsWord v := chunks_text hmem rfl
  have ht : t = ks.flatMap Chunk.text ++ v := by
    rw [← flatMap_text_chunks t, h, List.flatMap_append, List.flatMap_singleton]
    rfl
  rw [ht, endsInEscape_append ((chunks_take h hks).2.1 (List.cons_ne_nil _ _))] at hescape
  rw [ht, List.append_assoc, chunks_exchange h hks (List.cons_ne_nil _ _), hv.append hw hescape]
  rw [List.flatMap_singleton, startsWithMark_append hv.ne_nil]
  exact id

/-- A start of a word is a word. -/
theorem takeWord_of_append {t u : Text} (h : (takeWord (t ++ u)).2 = []) : (takeWord t).2 = [] := by
  induction t using escape_induction with
  | nil => rfl
  | lone => rfl
  | escape e r ih => exact ih h
  | plain c r hc ih =>
    rw [List.cons_append] at h
    cases hmark : isMark c with
    | false =>
      rw [takeWord_of_not_mark hmark hc] at h ⊢
      exact ih h
    | true =>
      rw [takeWord_of_mark hmark] at h
      exact absurd h (List.cons_ne_nil _ _)

theorem IsWord.of_append {v w : Text} (h : IsWord (v ++ w)) (hne : v ≠ []) : IsWord v := by
  obtain ⟨c, r, heq, hmark, htake⟩ := h.cases
  obtain ⟨d, v', rfl⟩ := List.exists_cons_of_ne_nil hne
  obtain ⟨rfl, -⟩ := List.cons.inj ((List.cons_append ..).symm.trans heq)
  have hsnd := takeWord_of_append (congrArg Prod.snd htake)
  have hall := takeWord_append (d :: v')
  rw [hsnd, List.append_nil] at hall
  have hword := isWord_of_takeWord hmark v'
  rw [hall] at hword
  exact hword

theorem IsWord.trimEnd {v : Text} (h : IsWord v) : IsWord (Text.trimEnd v) := by
  obtain ⟨b, hb, heq⟩ := Text.exists_append_trimEnd v
  refine IsWord.of_append (heq ▸ h) fun hnil => ?_
  obtain ⟨c, r, hv⟩ := List.exists_cons_of_ne_nil h.ne_nil
  have hc := h.not_blank c (by rw [hv]; rfl)
  rw [Text.trimEnd_eq_nil_iff.mp hnil c (by rw [hv]; exact List.mem_cons_self ..)] at hc
  exact absurd hc (by simp)

/-! ### Marks and groups -/

/-- A chunk that is no word starts with a mark. -/
theorem startsWithMark_text {k : Chunk} (h : chunks k.text = [k]) (hk : k.isWord = false) :
    startsWithMark k.text = true := by
  cases htext : k.text with
  | nil => rfl
  | cons c r =>
    rw [startsWithMark_cons]
    by_contra hmark
    rw [htext, chunks_of_word (Bool.not_eq_true _ ▸ hmark)] at h
    rw [← (List.cons.inj h).1] at hk
    exact absurd hk (by simp [Chunk.isWord])

/-- The group of a chunk that is the only one of its text. -/
theorem ofMark?_opening {g : Group} {content : Text} {closed : Bool}
    (h : chunks (Chunk.group g content closed).text = [.group g content closed]) :
    Group.ofMark? g.opening = some g := by
  rw [Chunk.text, List.cons_append] at h
  cases hmark : isMark g.opening with
  | false =>
    rw [chunks_of_word hmark] at h
    exact absurd (List.cons.inj h).1 (by simp)
  | true =>
    cases hopen : Group.ofMark? g.opening with
    | none =>
      rw [chunks_of_mark hmark hopen] at h
      exact absurd (List.cons.inj h).1 (by simp)
    | some g' =>
      rw [chunks_of_group hopen] at h
      rw [(Chunk.group.inj (List.cons.inj h).1).1]

theorem not_blank_closing {g : Group} (h : Group.ofMark? g.opening = some g) :
    Text.isBlank g.closing = false := by
  cases g with
  | parens => decide
  | square => decide
  | quoted q => exact not_blank_of_ofMark? h

/-- The chunk is a blank. -/
def Chunk.isBlank : Chunk → Bool
  | mark c => Text.isBlank c
  | word _ => false
  | group _ _ _ => false

/-- A chunk that is neither a blank nor a word does not end with a blank. -/
theorem not_blank_getLast? {k : Chunk} (h : chunks k.text = [k]) (hclosed : k.isClosed = true)
    (hblank : k.isBlank = false) (hword : k.isWord = false) :
    ∀ c ∈ k.text.getLast?, Text.isBlank c = false := by
  cases k with
  | mark c =>
    intro d hd
    rw [← Option.some_inj.mp hd]
    exact hblank
  | word w => exact absurd hword (by simp [Chunk.isWord])
  | group g content closed =>
    have hclosing := not_blank_closing (ofMark?_opening h)
    obtain rfl : closed = true := hclosed
    intro d hd
    rw [Chunk.text, if_pos rfl, List.getLast?_concat] at hd
    rw [← Option.some_inj.mp hd]
    exact hclosing

/-- A chunk that is no blank does not start with one. -/
theorem not_blank_head? {k : Chunk} (h : chunks k.text = [k]) (hblank : k.isBlank = false) :
    ∀ c ∈ k.text.head?, Text.isBlank c = false := by
  cases k with
  | mark c =>
    intro d hd
    rw [← Option.some_inj.mp hd]
    exact hblank
  | word w => exact IsWord.not_blank h
  | group g content closed =>
    intro d hd
    rw [← Option.some_inj.mp hd]
    exact not_blank_of_ofMark? (ofMark?_opening h)

/-! ### Where a word ends -/

/-- A text ends with a word, or with no word. -/
theorem last_word_cases (t : Text) :
    (∃ ks w, chunks t = ks ++ [.word w]) ∨ ∀ k ∈ (chunks t).getLast?, k.isWord = false := by
  obtain hnil | ⟨ks, k, ht⟩ := List.eq_nil_or_concat (chunks t)
  · rw [hnil]
    exact Or.inr fun k hk => absurd hk (by simp)
  · rw [List.concat_eq_append] at ht
    cases k with
    | word w => exact Or.inl ⟨ks, w, ht⟩
    | mark c =>
      rw [ht, List.getLast?_concat]
      exact Or.inr fun k hk => Option.some_inj.mp hk ▸ rfl
    | group g content closed =>
      rw [ht, List.getLast?_concat]
      exact Or.inr fun k hk => Option.some_inj.mp hk ▸ rfl

/-- A character that is neither a mark nor a backslash goes on with the last word of a text, or it
starts one behind the last chunk. -/
theorem exists_chunks_append_word {t : Text} {c : Char}
    (hclosed : ∀ k ∈ chunks t, k.isClosed = true) (hescape : endsInEscape t = false)
    (hmark : isMark c = false) (hc : c ≠ '\\') (y : Text) :
    ∃ ks last w v ls, (last = [] ∧ w = [] ∨ last = [.word w]) ∧ chunks t = ks ++ last ∧
      chunks (t ++ c :: y) = ks ++ .word (w ++ c :: v) :: ls := by
  have hword := isWord_of_takeWord hmark y
  have hall := takeWord_append (c :: y)
  have hrest := chunks_of_word hmark y
  have hfirst : (takeWord (c :: y)).1 = c :: (takeWord y).1 := by
    rw [takeWord_of_not_mark hmark hc]
    rfl
  rcases last_word_cases t with ⟨ks, w, ht⟩ | hlast
  · have hone := chunks_append_word ht hclosed hescape hword
    refine ⟨ks, [.word w], w, (takeWord y).1, chunks (takeWord (c :: y)).2, Or.inr rfl, ht, ?_⟩
    have hrestWord : chunks (t ++ (takeWord (c :: y)).1 ++ (takeWord (c :: y)).2) =
        ks ++ [.word (w ++ (takeWord (c :: y)).1)] ++ chunks (takeWord (c :: y)).2 := by
      by_cases hnil : (takeWord (c :: y)).2 = []
      · rw [hnil, List.append_nil, chunks_nil, List.append_nil, hone]
      · rw [chunks_append, hone]
        · intro k hk
          rw [hone] at hk
          rcases List.mem_append.mp hk with hk | hk
          · exact hclosed k (ht ▸ List.mem_append_left _ hk)
          · rw [List.mem_singleton.mp hk]
            rfl
        · rw [endsInEscape_append hescape]
          exact endsInEscape_takeWord_fst hnil
        · exact fun _ _ _ => startsWithMark_takeWord_snd _
    rw [List.append_assoc, hall, hfirst, List.append_assoc] at hrestWord
    exact hrestWord
  · have hchunks : chunks (t ++ c :: y) = chunks t ++ chunks (c :: y) := by
      refine chunks_append hclosed hescape fun k hk hkword => ?_
      rw [hlast k hk] at hkword
      exact absurd hkword Bool.false_ne_true
    refine ⟨chunks t, [], [], (takeWord y).1, chunks (takeWord (c :: y)).2, Or.inl ⟨rfl, rfl⟩,
      (List.append_nil _).symm, ?_⟩
    rw [hchunks, hrest, hfirst]
    rfl

/-- Only a word ends in a backslash that waits for its character. -/
theorem exists_word_of_escape {t : Text} (hclosed : ∀ k ∈ chunks t, k.isClosed = true)
    (hescape : endsInEscape t = true) :
    ∃ ks w, chunks t = ks ++ [.word w] ∧ endsInEscape w = true := by
  obtain hnil | ⟨ks, k, ht⟩ := List.eq_nil_or_concat (chunks t)
  · rw [eq_nil_of_chunks hnil] at hescape
    exact absurd hescape Bool.false_ne_true
  · rw [List.concat_eq_append] at ht
    have htext : t = ks.flatMap Chunk.text ++ k.text := by
      rw [← flatMap_text_chunks t, ht, List.flatMap_append, List.flatMap_singleton]
    have hmem : k ∈ chunks t := ht ▸ List.mem_append_right _ (List.mem_singleton_self _)
    have hks := (chunks_take ht fun k hk => hclosed k (ht ▸ List.mem_append_left _ hk)).2.1
      (List.cons_ne_nil _ _)
    rw [htext, endsInEscape_append hks] at hescape
    have hk := chunks_text hmem (hclosed k hmem)
    cases k with
    | word w => exact ⟨ks, w, ht, hescape⟩
    | mark c =>
      have hc : c ≠ '\\' := by
        rintro rfl
        rw [Chunk.text, chunks_of_word not_isMark_backslash] at hk
        exact absurd (List.cons.inj hk).1 (by simp)
      have hend := endsInEscape_concat hc []
      rw [List.nil_append, ← Chunk.text, hescape] at hend
      exact absurd hend (by simp)
    | group g content closed =>
      obtain rfl : closed = true := hclosed _ hmem
      rw [Chunk.text, if_pos rfl,
        endsInEscape_concat (Group.closing_ne_backslash (ofMark?_opening hk))] at hescape
      exact absurd hescape (by simp)

/-- An escaped character belongs to the word, whatever it is. -/
theorem IsWord.append_escaped {w : Text} (hw : IsWord w) (hescape : endsInEscape w = true)
    (c : Char) : IsWord (w ++ [c]) := by
  have htake : ∀ w : Text, (takeWord w).2 = [] → endsInEscape w = true →
      takeWord (w ++ [c]) = (w ++ [c], []) := by
    intro w
    induction w using escape_induction with
    | nil => exact fun _ h => absurd h Bool.false_ne_true
    | lone => exact fun _ _ => rfl
    | escape e r ih =>
      intro hrest hr
      rw [endsInEscape_escape] at hr
      rw [List.cons_append, List.cons_append, takeWord_escape, ih hrest hr]
      rfl
    | plain d r hd ih =>
      intro hrest hr
      rw [endsInEscape_cons hd] at hr
      cases hmark : isMark d with
      | true =>
        rw [takeWord_of_mark hmark] at hrest
        exact absurd hrest (List.cons_ne_nil _ _)
      | false =>
        rw [takeWord_of_not_mark hmark hd] at hrest
        rw [List.cons_append, takeWord_of_not_mark hmark hd, ih hrest hr]
        rfl
  obtain ⟨d, r, rfl, hmark, hall⟩ := hw.cases
  have hboth := htake _ (congrArg Prod.snd hall) hescape
  unfold IsWord
  rw [List.cons_append] at hboth ⊢
  rw [chunks_of_word hmark, hboth, chunks_nil]

theorem chunks_append_escaped {t w : Text} {ks : List Chunk} (ht : chunks t = ks ++ [.word w])
    (hclosed : ∀ k ∈ chunks t, k.isClosed = true) (hescape : endsInEscape w = true) (c : Char) :
    chunks (t ++ [c]) = ks ++ [.word (w ++ [c])] := by
  have hword : IsWord w :=
    chunks_text (k := .word w) (ht ▸ List.mem_append_right _ (List.mem_singleton_self _)) rfl
  have htext : t = ks.flatMap Chunk.text ++ w := by
    rw [← flatMap_text_chunks t, ht, List.flatMap_append, List.flatMap_singleton]
    rfl
  have hks : ∀ k ∈ ks, k.isClosed = true := fun k hk => hclosed k (ht ▸ List.mem_append_left _ hk)
  rw [htext, List.append_assoc, chunks_exchange ht hks (List.cons_ne_nil _ _),
    hword.append_escaped hescape c]
  rw [List.flatMap_singleton, startsWithMark_append hword.ne_nil]
  exact id

end Extended
end CosmeticFilter
