import CosmeticFilter.Proofs.Extended.Seams

/-!
# The tokens of a selector

Cutting a selector into tokens loses nothing, whether its groups are closed or not. Which marks open
groups cannot be told from the marks alone, as a quote also closes the string that it has opened:
the tokens before a mark decide, and they are read from left to right.

* `MarksEscaped`, `marksEscaped_takeWord`: the words outside groups;
* `groupStep`, `openGroup`: the group that is open behind tokens;
* `Encloses`, `Fits`: what a token is like between the tokens before it and those behind it;
* `fitsFrom_chunks`: the tokens of a text, one chunk after the other;
* `lexemes_of_fitsFrom`: tokens that fit are those of the text that they make up;
* `tokens_eq_iff`: the tokens of a selector.
-/

namespace CosmeticFilter
namespace Extended

variable {g : Group} {s : Option Group} {k : Token} {ks r : List Token} {cs : List Chunk}
  {c : Char} {n : Nat} {content w : Text}

/-! ### Marks that do not count -/

/-- Every mark in the text stands behind a backslash that takes it with it. -/
def MarksEscaped (w : Text) : Prop :=
  ∀ x c y, w = x ++ c :: y → isMark c = true → endsInEscape x = true

theorem marksEscaped_nil : MarksEscaped [] :=
  fun _ _ _ h _ => absurd h.symm (by simp)

theorem marksEscaped_lone : MarksEscaped ['\\'] := by
  rintro x c y h hmark
  cases x with
  | nil =>
    obtain ⟨rfl, -⟩ := List.cons.inj h
    exact absurd hmark (by simp)
  | cons d x => exact absurd (List.cons.inj h).2 (by simp)

theorem MarksEscaped.escape (h : MarksEscaped w) (e : Char) : MarksEscaped ('\\' :: e :: w) := by
  rintro x c y hsplit hmark
  match x with
  | [] =>
    obtain ⟨rfl, -⟩ := List.cons.inj hsplit
    exact absurd hmark (by simp)
  | [d] =>
    -- the escaped character itself
    obtain ⟨rfl, -⟩ := List.cons.inj hsplit
    rfl
  | d :: e' :: x =>
    obtain ⟨rfl, htail⟩ := List.cons.inj hsplit
    obtain ⟨rfl, hrest⟩ := List.cons.inj htail
    rw [endsInEscape_escape]
    exact h x c y hrest hmark

theorem MarksEscaped.cons (h : MarksEscaped w) (hc : c ≠ '\\') (hmark : isMark c = false) :
    MarksEscaped (c :: w) := by
  rintro x d y hsplit hd
  cases x with
  | nil =>
    obtain ⟨rfl, -⟩ := List.cons.inj hsplit
    rw [hmark] at hd
    exact absurd hd Bool.false_ne_true
  | cons e x =>
    obtain ⟨rfl, htail⟩ := List.cons.inj hsplit
    rw [endsInEscape_cons hc]
    exact h x d y htail hd

theorem marksEscaped_takeWord (t : Text) : MarksEscaped (takeWord t).1 := by
  induction t using escape_induction with
  | nil => exact marksEscaped_nil
  | lone => exact marksEscaped_lone
  | escape e r ih =>
    rw [takeWord_escape]
    exact ih.escape e
  | plain c r hc ih =>
    cases hmark : isMark c with
    | false =>
      rw [takeWord_of_not_mark hmark hc]
      exact ih.cons hc hmark
    | true =>
      rw [takeWord_of_mark hmark]
      exact marksEscaped_nil

/-- A text whose marks are all escaped is taken as a whole. -/
theorem takeWord_of_marksEscaped (h : MarksEscaped w) : (takeWord w).2 = [] := by
  by_contra hrest
  obtain ⟨c, y, hc⟩ := List.exists_cons_of_ne_nil hrest
  have hmark := startsWithMark_takeWord_snd w
  have hall := takeWord_append w
  rw [hc] at hmark hall
  have hescape := h _ c y hall.symm hmark
  rw [endsInEscape_takeWord_fst hrest] at hescape
  exact absurd hescape Bool.false_ne_true

/-! ### Tokens one after the other -/

/-- The group that is open behind a token, if this one is open in front of it. -/
def groupStep (s : Option Group) (k : Token) : Option Group :=
  match k.kind, s with
  | .word, s => s
  | .mark, none => k.text.head?.bind Group.ofMark?
  | .mark, some g => if k.text = [g.closing] then none else some g

theorem groupStep_word (hkind : k.kind = .word) : groupStep s k = s := by
  unfold groupStep
  rw [hkind]

theorem groupStep_mark (hkind : k.kind = .mark) (htext : k.text = [c]) :
    groupStep none k = Group.ofMark? c := by
  unfold groupStep
  rw [hkind, htext]
  rfl

theorem groupStep_closing (hkind : k.kind = .mark) (htext : k.text = [g.closing]) :
    groupStep (some g) k = none := by
  unfold groupStep
  rw [hkind]
  exact if_pos htext

/-- The group that is open behind tokens. -/
def openGroup (ks : List Token) : Option Group := ks.foldl groupStep none

/-- What a group takes of the text behind its opening mark. -/
def Group.takeContent (g : Group) (t : Text) : Text × Text := groupContent g ⟨0, none, g.opening⟩ t

/-- The tokens behind the opening mark of a group: its content, in one word at most, and then the
mark that closes it, or nothing. -/
def Encloses (g : Group) (r : List Token) : Prop :=
  ∃ content rest, r = content ++ rest ∧ content.length ≤ 1 ∧ (∀ k ∈ content, k.kind = .word) ∧
    (∀ k ∈ rest.head?, k.kind = .mark ∧ k.text = [g.closing]) ∧
    g.takeContent (r.flatMap Token.text) =
      (content.flatMap Token.text, rest.flatMap Token.text)

/-- What a token is like behind tokens that leave a group open or none, and in front of others. -/
structure Fits (s : Option Group) (k : Token) (r : List Token) : Prop where
  /-- It is not empty. -/
  text_ne_nil : k.text ≠ []
  /-- A mark is one character. -/
  mark : k.kind = .mark → ∃ c, k.text = [c] ∧ isMark c = true
  /-- A mark follows a word. -/
  apart : k.kind = .word → ∀ l ∈ r.head?, l.kind = .mark
  /-- Outside groups, the marks in a word are escaped, and the one behind it is not. -/
  escaped : k.kind = .word → s = none →
    MarksEscaped k.text ∧ (r ≠ [] → endsInEscape k.text = false)
  /-- A mark that opens a group is followed by its content. -/
  encloses : s = none → ∀ g ∈ groupStep s k, Encloses g r

/-- Each of the tokens fits where it stands. -/
def FitsFrom : Option Group → List Token → Prop
  | _, [] => True
  | s, k :: r => Fits s k r ∧ FitsFrom (groupStep s k) r

theorem FitsFrom.of_append (h : FitsFrom s (ks ++ r)) : FitsFrom (ks.foldl groupStep s) r := by
  induction ks generalizing s with
  | nil => exact h
  | cons k ks ih => exact ih h.2

theorem fitsFrom_iff :
    FitsFrom s ks ↔ ∀ x k y, ks = x ++ k :: y → Fits (x.foldl groupStep s) k y := by
  constructor
  · rintro h x k y rfl
    exact h.of_append.1
  · intro h
    induction ks generalizing s with
    | nil => trivial
    | cons l ks ih =>
      refine ⟨h [] l ks rfl, ih fun x k y hks => h (l :: x) k y ?_⟩
      rw [hks, List.cons_append]

theorem FitsFrom.text_ne_nil (h : FitsFrom s ks) (hk : k ∈ ks) : k.text ≠ [] := by
  obtain ⟨x, y, hks⟩ := List.append_of_mem hk
  exact (fitsFrom_iff.mp h x k y hks).text_ne_nil

/-- Words neither open nor close a group. -/
theorem foldl_groupStep (h : ∀ k ∈ ks, k.kind = .word) : ks.foldl groupStep s = s := by
  induction ks with
  | nil => rfl
  | cons k ks ih =>
    obtain ⟨hk, hks⟩ := List.forall_mem_cons.mp h
    rw [List.foldl_cons, groupStep_word hk]
    exact ih hks

theorem fits_mark (hmark : isMark c = true)
    (hencloses : s = none → ∀ g, Group.ofMark? c = some g → Encloses g r) :
    Fits s ⟨.mark, [c], n⟩ r where
  text_ne_nil := List.cons_ne_nil c []
  mark := fun _ => ⟨c, rfl, hmark⟩
  apart := fun h => nomatch h
  escaped := fun h => nomatch h
  encloses := by
    rintro rfl g hg
    exact hencloses rfl g hg

theorem fits_word (hne : w ≠ []) (hnext : ∀ l ∈ r.head?, l.kind = .mark)
    (hescaped : s = none → MarksEscaped w ∧ (r ≠ [] → endsInEscape w = false)) :
    Fits s ⟨.word, w, n⟩ r where
  text_ne_nil := hne
  mark := fun h => nomatch h
  apart := fun _ => hnext
  escaped := fun _ => hescaped
  encloses := by
    rintro rfl g hg
    exact nomatch hg

/-! ### The tokens of chunks -/

theorem flatMap_text_place (n : Nat) (ls : List (TokenKind × Text)) :
    (place n ls).flatMap Token.text = ls.flatMap Prod.snd := by
  induction ls generalizing n with
  | nil => rfl
  | cons l ls ih => exact congrArg (l.2 ++ ·) (ih _)

/-- A token without its place. -/
def Token.lexeme (k : Token) : TokenKind × Text := (k.kind, k.text)

theorem eq_place_iff : ks = place n (ks.map Token.lexeme) ↔
    ∀ x k y, ks = x ++ k :: y → k.start = n + (x.flatMap Token.text).length := by
  induction ks generalizing n with
  | nil => exact iff_of_true rfl fun x k y h => absurd h.symm (by simp)
  | cons l ks ih =>
    constructor
    · intro hplace x k y h
      obtain ⟨hl, hks⟩ := List.cons.inj hplace
      cases x with
      | nil =>
        rw [← (List.cons.inj h).1, hl]
        rfl
      | cons m x =>
        obtain ⟨rfl, htail⟩ := List.cons.inj h
        rw [ih.mp hks x k y htail, List.flatMap_cons, List.length_append, Nat.add_assoc]
    · intro h
      have hl : l = ⟨l.kind, l.text, n⟩ := by
        rw [← show l.start = n from h [] l ks rfl]
      have hks := ih.mpr fun x k y hks => by
        rw [h (l :: x) k y (by rw [hks, List.cons_append]), List.flatMap_cons, List.length_append,
          ← Nat.add_assoc]
      exact List.cons_eq_cons.mpr ⟨hl, hks⟩

theorem map_lexeme_place (n : Nat) (ls : List (TokenKind × Text)) :
    (place n ls).map Token.lexeme = ls := by
  induction ls generalizing n with
  | nil => rfl
  | cons l ls ih => exact congrArg (l :: ·) (ih _)

/-- The lexemes of a chunk make up its text. -/
theorem flatMap_snd_lexemes (k : Chunk) : k.lexemes.flatMap Prod.snd = k.text := by
  cases k with
  | mark c => rfl
  | word w => exact List.append_nil w
  | group g content closed => cases content <;> cases closed <;> simp [Chunk.lexemes, Chunk.text]

theorem flatMap_snd_flatMap_lexemes (cs : List Chunk) :
    (cs.flatMap Chunk.lexemes).flatMap Prod.snd = cs.flatMap Chunk.text := by
  rw [List.flatMap_assoc]
  exact List.flatMap_congr fun k _ => flatMap_snd_lexemes k

/-- A chunk that is no word starts with a mark. -/
theorem kind_head?_place (h : ∀ k ∈ cs.head?, k.isWord = false) (n : Nat) :
    ∀ l ∈ (place n (cs.flatMap Chunk.lexemes)).head?, l.kind = .mark := by
  cases cs with
  | nil => exact fun l hl => nomatch hl
  | cons k cs =>
    cases k with
    | mark c => exact fun l hl => Option.some_inj.mp hl ▸ rfl
    | word w => exact absurd (h _ rfl) (by simp [Chunk.isWord])
    | group g content closed => exact fun l hl => Option.some_inj.mp hl ▸ rfl

theorem isMark_closing (h : Group.ofMark? g.opening = some g) : isMark g.closing = true := by
  cases g with
  | parens => decide
  | square => decide
  | quoted q => exact isMark_of_ofMark? h

section Group

variable {ls : List (TokenKind × Text)}

theorem head?_place (hclosing : ∀ l ∈ ls.head?, l = (.mark, [g.closing])) (n : Nat) :
    ∀ k ∈ (place n ls).head?, k.kind = .mark ∧ k.text = [g.closing] := by
  intro k hk
  cases ls with
  | nil => exact nomatch hk
  | cons l ls =>
    obtain rfl := hclosing l rfl
    rw [← Option.some_inj.mp hk]
    exact ⟨rfl, rfl⟩

/-- The content of a group is no token or one word. -/
theorem encloses_place (hclosing : ∀ l ∈ ls.head?, l = (.mark, [g.closing]))
    (hcontent : g.takeContent (content ++ ls.flatMap Prod.snd) = (content, ls.flatMap Prod.snd))
    (n : Nat) :
    Encloses g (place n ((if content.isEmpty then [] else [(.word, content)]) ++ ls)) := by
  rw [← flatMap_text_place (n + content.length) ls] at hcontent
  cases content with
  | nil =>
    exact ⟨[], place n ls, rfl, Nat.zero_le 1, fun k hk => (nomatch hk), head?_place hclosing n,
      hcontent⟩
  | cons c w =>
    refine ⟨[⟨.word, c :: w, n⟩], place _ ls, rfl, Nat.le_refl 1, fun k hk => ?_,
      head?_place hclosing _, ?_⟩
    · rw [List.mem_singleton.mp hk]
    · rw [List.flatMap_singleton]
      exact hcontent

/-- The tokens of a group, if this is what is left when its content has been read. -/
theorem fitsFrom_group (hopen : Group.ofMark? g.opening = some g)
    (hclosing : ∀ l ∈ ls.head?, l = (.mark, [g.closing]))
    (hcontent : g.takeContent (content ++ ls.flatMap Prod.snd) = (content, ls.flatMap Prod.snd))
    (h : ∀ n, FitsFrom (some g) (place n ls)) (n : Nat) :
    FitsFrom none (place n ((.mark, [g.opening]) ::
      ((if content.isEmpty then [] else [(.word, content)]) ++ ls))) := by
  refine ⟨fits_mark (isMark_of_ofMark? hopen) fun _ g' hg' => ?_, ?_⟩
  · obtain rfl : g = g' := Option.some_inj.mp (hopen.symm.trans hg')
    exact encloses_place hclosing hcontent _
  · rw [groupStep_mark rfl rfl, hopen]
    cases content with
    | nil => exact h _
    | cons c w =>
      have hmark := fun l hl => (head?_place hclosing (n + 1 + (c :: w).length) l hl).1
      exact ⟨fits_word (List.cons_ne_nil c w) hmark fun hs => (nomatch hs), h _⟩

end Group

/-- The tokens of a text fit, one chunk after the other. -/
theorem fitsFrom_chunks (t : Text) (n : Nat) :
    FitsFrom none (place n ((chunks t).flatMap Chunk.lexemes)) := by
  induction t using chunks_induction generalizing n with
  | nil =>
    rw [chunks_nil]
    trivial
  | word c r hmark ih =>
    rw [chunks_of_word hmark]
    refine ⟨fits_word (isWord_of_takeWord hmark r).ne_nil ?_ fun _ => ?_, ih _⟩
    · exact kind_head?_place (isWord_head?_chunks (startsWithMark_takeWord_snd _)) _
    · refine ⟨marksEscaped_takeWord _, fun hr => endsInEscape_takeWord_fst fun hnil => hr ?_⟩
      rw [hnil, chunks_nil]
      rfl
  | mark c r hmark hopen ih =>
    rw [chunks_of_mark hmark hopen]
    refine ⟨fits_mark hmark fun _ g hg => absurd (hopen.symm.trans hg) (by simp), ?_⟩
    rw [groupStep_mark rfl rfl, hopen]
    exact ih _
  | group c r g hopen ih =>
    obtain rfl : g.opening = c := Group.opening_of_ofMark? hopen
    have hall := groupContent_append g ⟨0, none, g.opening⟩ r
    rw [chunks_of_group hopen, List.flatMap_cons, Chunk.lexemes, List.cons_append,
      List.append_assoc]
    cases hrest : (groupContent g ⟨0, none, g.opening⟩ r).2 with
    | nil =>
      -- the group is never closed, and its content is the rest of the text
      rw [hrest, List.append_nil] at hall
      rw [List.tail_nil, chunks_nil, List.isEmpty_nil, Bool.not_true, if_neg Bool.false_ne_true,
        List.flatMap_nil, List.nil_append]
      refine fitsFrom_group hopen ?_ ?_ ?_ n
      · exact fun l hl => nomatch hl
      · rw [List.flatMap_nil, List.append_nil, hall]
        exact Prod.ext hall hrest
      · exact fun _ => trivial
    | cons d y =>
      obtain rfl : d = g.closing :=
        head?_groupContent_snd g ⟨0, none, g.opening⟩ r d (by rw [hrest]; rfl)
      rw [hrest] at ih
      refine fitsFrom_group hopen ?_ ?_ ?_ n
      · exact fun l hl => (Option.some_inj.mp hl).symm
      · exact groupContent_eq_of_closed (Prod.ext rfl hrest) _
      · intro n
        refine ⟨fits_mark (isMark_closing hopen) fun hs => (nomatch hs), ?_⟩
        rw [groupStep_closing rfl rfl]
        exact ih _

/-! ### The chunks of tokens -/

theorem chunks_fits_word (h : Fits none k r) (hkind : k.kind = .word) (hr : FitsFrom none r) :
    chunks (k.text ++ r.flatMap Token.text) = .word k.text :: chunks (r.flatMap Token.text) := by
  obtain ⟨hmarks, hseam⟩ := h.escaped hkind rfl
  have htake : takeWord (k.text ++ r.flatMap Token.text) = (k.text, r.flatMap Token.text) := by
    have hword := takeWord_of_marksEscaped hmarks
    cases r with
    | nil =>
      have hall := takeWord_append k.text
      rw [hword, List.append_nil] at hall
      rw [List.flatMap_nil, List.append_nil]
      exact Prod.ext hall hword
    | cons l r =>
      obtain ⟨c, hc, hmark⟩ := hr.1.mark (h.apart hkind l rfl)
      rw [takeWord_append_of_word hword (hseam (List.cons_ne_nil l r)), List.flatMap_cons, hc,
        List.singleton_append, takeWord_of_mark hmark, List.append_nil]
  obtain ⟨c, w, hc⟩ := List.exists_cons_of_ne_nil h.text_ne_nil
  have hmark : isMark c = false := by
    by_contra hmark
    exact absurd (hmarks [] c w hc (Bool.not_eq_false _ ▸ hmark)) (by decide)
  rw [hc, List.cons_append] at htake ⊢
  rw [chunks_of_word hmark, htake]

theorem lexemes_content (hlength : ks.length ≤ 1) (hword : ∀ k ∈ ks, k.kind = .word)
    (hne : ∀ k ∈ ks, k.text ≠ []) :
    (if (ks.flatMap Token.text).isEmpty then [] else [(.word, ks.flatMap Token.text)]) =
      ks.map Token.lexeme := by
  match ks with
  | [] => rfl
  | [k] =>
    rw [List.flatMap_singleton, List.isEmpty_eq_false_iff.mpr (hne k (List.mem_singleton_self k)),
      if_neg Bool.false_ne_true, List.map_singleton, Token.lexeme,
      hword k (List.mem_singleton_self k)]
  | k :: l :: ks => exact absurd hlength (by simp)

/-- The tokens of a group and those behind it, if the latter are the tokens of their text. -/
theorem lexemes_group (hopen : Group.ofMark? g.opening = some g) (h : Encloses g r)
    (hr : FitsFrom (some g) r)
    (ih : ∀ later, later.length < r.length → FitsFrom none later →
      (chunks (later.flatMap Token.text)).flatMap Chunk.lexemes = later.map Token.lexeme) :
    (chunks (g.opening :: r.flatMap Token.text)).flatMap Chunk.lexemes =
      (.mark, [g.opening]) :: r.map Token.lexeme := by
  obtain ⟨content, rest, rfl, hone, hword, hclosing, htake⟩ := h
  have hcontent := lexemes_content hone hword fun l hl =>
    hr.text_ne_nil (List.mem_append_left _ hl)
  have hrest := hr.of_append
  rw [foldl_groupStep hword] at hrest
  rw [Group.takeContent] at htake
  rw [chunks_of_group hopen, htake, List.flatMap_cons, Chunk.lexemes, hcontent, List.map_append]
  cases rest with
  | nil =>
    rw [List.flatMap_nil, List.tail_nil, chunks_nil]
    exact List.append_nil _
  | cons l later =>
    obtain ⟨hkind, htext⟩ := hclosing l rfl
    have hlater := hrest.2
    rw [groupStep_closing hkind htext] at hlater
    have hlength : later.length < (content ++ l :: later).length := by
      rw [List.length_append, List.length_cons]
      omega
    rw [List.flatMap_cons, htext, List.singleton_append, List.tail_cons, ih later hlength hlater,
      List.map_cons, Token.lexeme, hkind, htext, List.cons_append, List.append_assoc]
    rfl

/-- Tokens that fit are those of the chunks of their text. -/
theorem lexemes_of_fitsFrom (h : FitsFrom none ks) :
    (chunks (ks.flatMap Token.text)).flatMap Chunk.lexemes = ks.map Token.lexeme := by
  induction hlength : ks.length using Nat.strong_induction_on generalizing ks with
  | _ m ih =>
  subst hlength
  cases ks with
  | nil =>
    rw [List.flatMap_nil, chunks_nil]
    rfl
  | cons k r =>
    obtain ⟨hk, hr⟩ := h
    rw [List.flatMap_cons, List.map_cons, Token.lexeme]
    cases hkind : k.kind with
    | word =>
      rw [groupStep_word hkind] at hr
      rw [chunks_fits_word hk hkind hr, List.flatMap_cons, ih r.length (Nat.lt_succ_self _) hr rfl]
      rfl
    | mark =>
      obtain ⟨c, hc, hmark⟩ := hk.mark hkind
      have hstep := groupStep_mark hkind hc
      rw [hc, List.singleton_append]
      cases hopen : Group.ofMark? c with
      | none =>
        rw [hstep, hopen] at hr
        rw [chunks_of_mark hmark hopen, List.flatMap_cons, ih r.length (Nat.lt_succ_self _) hr rfl]
        rfl
      | some g =>
        obtain rfl := Group.opening_of_ofMark? hopen
        rw [hopen] at hstep
        rw [hstep] at hr
        exact lexemes_group hopen (hk.encloses rfl g hstep) hr fun later hlater hfits =>
          ih later.length (Nat.lt_succ_of_lt hlater) hfits rfl

/-- **The tokens of a selector.** Put together, they are the selector without the blanks around it.
Each token starts where those before it end, and it fits in between the others. No other tokens are
like that. -/
theorem tokens_eq_iff (t : Text) (ks : List Token) :
    tokens t = ks ↔
      ks.flatMap Token.text = Text.trim t ∧
        ∀ x k y, ks = x ++ k :: y →
          k.start = (x.flatMap Token.text).length ∧ Fits (openGroup x) k y := by
  constructor
  · rintro rfl
    have hplace : tokens t = place 0 ((tokens t).map Token.lexeme) := by
      rw [tokens, map_lexeme_place]
    refine ⟨?_, fun x k y h => ⟨?_, ?_⟩⟩
    · rw [tokens, flatMap_text_place, flatMap_snd_flatMap_lexemes, flatMap_text_chunks]
    · rw [eq_place_iff.mp hplace x k y h, Nat.zero_add]
    · exact fitsFrom_iff.mp (fitsFrom_chunks _ 0) x k y h
  · rintro ⟨htext, h⟩
    have hplace : ks = place 0 (ks.map Token.lexeme) := eq_place_iff.mpr fun x k y hks => by
      rw [(h x k y hks).1, Nat.zero_add]
    rw [tokens, ← htext, lexemes_of_fitsFrom (fitsFrom_iff.mpr fun x k y hks => (h x k y hks).2)]
    exact hplace.symm

end Extended
end CosmeticFilter
