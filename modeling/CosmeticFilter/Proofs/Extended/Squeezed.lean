import CosmeticFilter.Proofs.Extended.Written

/-!
# Squeezed texts

Native text that is read piece by piece is copied, groups and escaped characters included, but for
the blanks between its pieces: a run of them leaves one space, none at the start, and none behind a
space that has been copied already. That space may belong to an escape, which the copier does not
see.

* `squeeze`: the copy of a text;
* `squeeze_induction`: the induction on what is copied and on blanks;
* `prefix_squeeze_append`, `squeeze_append_of_not_blank`: the copy of a text that goes on;
* `pending_piecesFrom`: what is pending after pieces that only add text is the squeezed text;
* `after_squeeze`: the copy is nested, and cut at commas, like the text.
-/

namespace CosmeticFilter
namespace Extended

/-- The text with runs of blanks outside groups shortened to a space, `spaced` telling whether a
space, or nothing, stands in front of it. -/
def squeeze (spaced : Bool) : Text → Text
  | [] => []
  | c :: r =>
    if c = '\\' then c :: (r.take 1 ++ squeeze (r.head? == some ' ') r.tail)
    else if Text.isBlank c then (if spaced then [] else [' ']) ++ squeeze true r
    else match Group.ofMark? c with
      | none => c :: squeeze false r
      | some g =>
        let inside := groupContent g ⟨0, none, c⟩ r
        c :: (inside.1 ++ (inside.2.take 1 ++ squeeze false inside.2.tail))
termination_by t => t.length
decreasing_by
  all_goals
    simp only [List.length_cons, List.length_tail]
    try have := length_groupContent_snd_le g ⟨0, none, c⟩ r
    omega

variable {b : Bool} {c : Char} {r : Text}

@[simp] theorem squeeze_nil (b : Bool) : squeeze b [] = [] := by rw [squeeze]

@[simp] theorem squeeze_lone (b : Bool) : squeeze b ['\\'] = ['\\'] := by
  rw [squeeze, if_pos rfl]
  simp

theorem squeeze_escape (b : Bool) (e : Char) (r : Text) :
    squeeze b ('\\' :: e :: r) = '\\' :: e :: squeeze (e == ' ') r := by
  rw [squeeze, if_pos rfl]
  rfl

theorem squeeze_cons (hc : c ≠ '\\') :
    squeeze b (c :: r) =
      if Text.isBlank c then (if b then [] else [' ']) ++ squeeze true r
      else match Group.ofMark? c with
        | none => c :: squeeze false r
        | some g =>
          let inside := groupContent g ⟨0, none, c⟩ r
          c :: (inside.1 ++ (inside.2.take 1 ++ squeeze false inside.2.tail)) := by
  rw [squeeze, if_neg hc]

theorem squeeze_blank (hc : Text.isBlank c = true) (b : Bool) (r : Text) :
    squeeze b (c :: r) = (if b then [] else [' ']) ++ squeeze true r := by
  rw [squeeze_cons (ne_backslash_of_isMark (isMark_of_blank hc)), if_pos hc]

theorem squeeze_plain (hc : c ≠ '\\') (hblank : Text.isBlank c = false)
    (hopen : Group.ofMark? c = none) (b : Bool) (r : Text) :
    squeeze b (c :: r) = c :: squeeze false r := by
  rw [squeeze_cons hc, if_neg (by rw [hblank]; exact Bool.false_ne_true), hopen]

theorem squeeze_group {g : Group} (hopen : Group.ofMark? c = some g) (b : Bool) (r : Text) :
    squeeze b (c :: r) = c :: ((groupContent g ⟨0, none, c⟩ r).1 ++
      ((groupContent g ⟨0, none, c⟩ r).2.take 1 ++
        squeeze false (groupContent g ⟨0, none, c⟩ r).2.tail)) := by
  rw [squeeze_cons (ne_backslash_of_isMark (isMark_of_ofMark? hopen)),
    if_neg (by rw [not_blank_of_ofMark? hopen]; exact Bool.false_ne_true), hopen]

/-- A closed group is copied. -/
theorem squeeze_closed_group {g : Group} (hopen : Group.ofMark? c = some g) {content z : Text}
    {d : Char} (h : groupContent g ⟨0, none, c⟩ (content ++ d :: z) = (content, d :: z))
    (b : Bool) :
    squeeze b (c :: (content ++ d :: z)) = c :: (content ++ d :: squeeze false z) := by
  rw [squeeze_group hopen, h]
  rfl

/-- A closed group does not end in a backslash that waits for its character. -/
theorem endsInEscape_closed_group {g : Group} (hopen : Group.ofMark? c = some g) {d : Char}
    {rest : Text} (h : (groupContent g ⟨0, none, c⟩ r).2 = d :: rest) :
    endsInEscape (c :: ((groupContent g ⟨0, none, c⟩ r).1 ++ [d])) = false := by
  have hd : d = g.closing := head?_groupContent_snd g ⟨0, none, c⟩ r d (by rw [h]; rfl)
  rw [endsInEscape_cons (ne_backslash_of_isMark (isMark_of_ofMark? hopen)),
    endsInEscape_append (endsInEscape_groupContent_fst (by rw [h]; exact List.cons_ne_nil _ _)), hd,
    endsInEscape, beq_eq_false_iff_ne]
  exact Group.closing_ne_backslash hopen

/-- The induction on what the copier tells apart: a text that is copied as a whole, a blank, and an
escape, a group or a character at the start that is copied. -/
theorem squeeze_induction {motive : Text → Prop} (same : ∀ t, (∀ b, squeeze b t = t) → motive t)
    (blank : ∀ c r, Text.isBlank c = true → motive r → motive (c :: r))
    (copied : ∀ x z b', x ≠ [] → endsInEscape x = false →
      (∀ b, squeeze b (x ++ z) = x ++ squeeze b' z) → motive z → motive (x ++ z))
    (t : Text) : motive t := by
  induction hn : t.length using Nat.strong_induction_on generalizing t with
  | _ n ih =>
    subst hn
    match t with
    | [] => exact same [] squeeze_nil
    | c :: r =>
      by_cases hc : c = '\\'
      · subst hc
        match r with
        | [] => exact same _ squeeze_lone
        | e :: r =>
          have hlt : r.length < ('\\' :: e :: r).length := Nat.lt_succ_of_lt (Nat.lt_succ_self _)
          exact copied ['\\', e] r (e == ' ') (List.cons_ne_nil _ _) rfl
            (fun b => squeeze_escape b e r) (ih r.length hlt r rfl)
      cases hblank : Text.isBlank c with
      | true => exact blank c r hblank (ih r.length (Nat.lt_succ_self _) r rfl)
      | false =>
        cases hopen : Group.ofMark? c with
        | none =>
          refine copied [c] r false (List.cons_ne_nil _ _) ?_ (fun b => ?_)
            (ih r.length (Nat.lt_succ_self _) r rfl)
          · exact (endsInEscape_cons hc []).trans rfl
          · exact squeeze_plain hc hblank hopen b r
        | some g =>
          have happend := groupContent_append g ⟨0, none, c⟩ r
          cases hrest : (groupContent g ⟨0, none, c⟩ r).2 with
          | nil =>
            rw [hrest, List.append_nil] at happend
            refine same _ fun b => ?_
            rw [squeeze_group hopen, hrest, happend]
            simp
          | cons d z =>
            have hwhole : c :: r = c :: ((groupContent g ⟨0, none, c⟩ r).1 ++ [d]) ++ z := by
              rw [hrest] at happend
              simp [happend]
            have hlt : z.length < (c :: r).length := by
              rw [hwhole, List.length_append, List.length_cons]
              omega
            rw [hwhole]
            refine copied _ z false (List.cons_ne_nil _ _) (endsInEscape_closed_group hopen hrest)
              (fun b => ?_) (ih _ hlt z rfl)
            rw [← hwhole, squeeze_group hopen, hrest]
            simp

/-- What is copied of a text that starts with no blank does not depend on what stands before. -/
theorem squeeze_congr (h : ∀ c ∈ r.head?, Text.isBlank c = false) (b b' : Bool) :
    squeeze b r = squeeze b' r := by
  cases r using squeeze_induction with
  | same t ht => rw [ht, ht]
  | blank c r hc _ =>
    rw [h c rfl] at hc
    exact absurd hc (by simp)
  | copied x z b'' _ _ hx _ => rw [hx, hx]

/-- A character that is no blank stays where it is. -/
theorem head?_squeeze (h : ∀ c ∈ r.head?, Text.isBlank c = false) (b : Bool) :
    (squeeze b r).head? = r.head? := by
  cases r using squeeze_induction with
  | same t ht => rw [ht]
  | blank c r hc _ =>
    rw [h c rfl] at hc
    exact absurd hc (by simp)
  | copied x z b' hne _ hx _ =>
    rw [hx, List.head?_append_of_ne_nil x hne, List.head?_append_of_ne_nil x hne]

/-- Blanks at the start leave a space or nothing. -/
theorem trimStart_squeeze (b : Bool) (t : Text) :
    Text.trimStart (squeeze b t) = squeeze true (Text.trimStart t) := by
  induction t generalizing b with
  | nil => simp
  | cons c r ih =>
    cases hc : Text.isBlank c with
    | true =>
      rw [squeeze_blank hc, Text.trimStart_cons_of_blank hc]
      cases b with
      | true => exact ih true
      | false =>
        rw [if_neg Bool.false_ne_true, List.singleton_append,
          Text.trimStart_cons_of_blank (by decide)]
        exact ih true
    | false =>
      have hhead : ∀ d ∈ (c :: r).head?, Text.isBlank d = false := fun d hd => by
        rw [← Option.some_inj.mp hd]
        exact hc
      rw [Text.trimStart_cons_of_not_blank hc, squeeze_congr hhead true b]
      refine Text.trimStart_eq_self fun d hd => ?_
      rw [head?_squeeze hhead] at hd
      exact hhead d hd

/-- Where no blank is copied at the start, there may be any. -/
theorem squeeze_trimStart (t : Text) : squeeze true (Text.trimStart t) = squeeze true t := by
  induction t with
  | nil => rfl
  | cons c r ih =>
    cases hc : Text.isBlank c with
    | true =>
      rw [Text.trimStart_cons_of_blank hc, squeeze_blank hc, ih]
      rfl
    | false => rw [Text.trimStart_cons_of_not_blank hc]

/-- A last character that is no blank stays the last one. -/
theorem getLast?_squeeze {t : Text} (h : ∀ c ∈ t.getLast?, Text.isBlank c = false) (b : Bool) :
    (squeeze b t).getLast? = t.getLast? := by
  have hrest : ∀ {x u : Text}, (∀ c ∈ (x ++ u).getLast?, Text.isBlank c = false) →
      ∀ c ∈ u.getLast?, Text.isBlank c = false := by
    intro x u hxu c hc
    rw [List.getLast?_append, Option.mem_def.mp hc] at hxu
    exact hxu c rfl
  induction t using squeeze_induction generalizing b with
  | same t ht => rw [ht]
  | blank c r hc ih =>
    have hr := ih (hrest (x := [c]) h) true
    rw [squeeze_blank hc, List.getLast?_append, hr, List.getLast?_cons]
    cases hlast : r.getLast? with
    | some d => rfl
    | none =>
      rw [List.getLast?_eq_none_iff] at hlast
      rw [hlast] at h
      exact absurd hc (by rw [h c rfl]; exact Bool.false_ne_true)
  | copied x z b' _ _ hx ih => rw [hx, List.getLast?_append, List.getLast?_append, ih (hrest h)]

/-- The copy of a text without blanks around it has none either. -/
theorem trim_squeeze {t : Text} (ht : Text.trim t = t) (b : Bool) :
    Text.trim (squeeze b t) = squeeze b t := by
  have hhead : ∀ c ∈ t.head?, Text.isBlank c = false := fun c hc =>
    Text.not_blank_of_head?_trim (ht.symm ▸ hc)
  have hlast : ∀ c ∈ t.getLast?, Text.isBlank c = false := fun c hc =>
    Text.not_blank_of_getLast?_trim (ht.symm ▸ hc)
  refine Text.trim_eq_self ?_ ?_
  · rwa [head?_squeeze hhead]
  · rwa [getLast?_squeeze hlast]

/-- Both start with the same character. -/
theorem head?_trim_squeeze {t : Text} (ht : Text.trim t = t) (b : Bool) :
    (Text.trim (squeeze b t)).head? = (Text.trim t).head? := by
  rw [trim_squeeze ht, ht]
  exact head?_squeeze (fun c hc => Text.not_blank_of_head?_trim (ht.symm ▸ hc)) b

/-- The copy has no other characters than the text, but for spaces. -/
theorem mem_of_mem_squeeze {d : Char} {t : Text} {b : Bool} (h : d ∈ squeeze b t) :
    d = ' ' ∨ d ∈ t := by
  induction t using squeeze_induction generalizing b with
  | same t ht => exact Or.inr (ht b ▸ h)
  | blank c r hc ih =>
    rw [squeeze_blank hc] at h
    rcases List.mem_append.mp h with hspace | hr
    · cases b
      · exact Or.inl (List.mem_singleton.mp hspace)
      · exact absurd hspace List.not_mem_nil
    · exact (ih hr).imp_right (List.mem_cons_of_mem _)
  | copied x z b' _ _ hx ih =>
    rw [hx] at h
    rcases List.mem_append.mp h with hx | hz
    · exact Or.inr (List.mem_append_left _ hx)
    · exact (ih hz).imp_right (List.mem_append_right _)

/-- The copy ends in a waiting backslash if the text does. -/
theorem endsInEscape_squeeze (b : Bool) (t : Text) :
    endsInEscape (squeeze b t) = endsInEscape t := by
  induction t using squeeze_induction generalizing b with
  | same t ht => rw [ht]
  | blank c r hc ih =>
    rw [squeeze_blank hc, endsInEscape_cons (ne_backslash_of_isMark (isMark_of_blank hc)),
      ← ih true]
    cases b
    · exact endsInEscape_cons (by decide) _
    · rfl
  | copied x z b' _ hescape hx ih =>
    rw [hx, endsInEscape_append hescape, endsInEscape_append hescape, ih]

/-! ### Texts that go on -/

/-- A group that is not closed takes one more character, at least as its closing mark. -/
theorem groupContent_concat {g : Group} {i : Inside} {t : Text} (h : (groupContent g i t).2 = [])
    (c : Char) :
    groupContent g i (t ++ [c]) = (t ++ [c], []) ∨ groupContent g i (t ++ [c]) = (t, [c]) := by
  have honto : ∀ {d : Char} {r : Text} {taken : Text × Text},
      taken = (r ++ [c], []) ∨ taken = (r, [c]) →
      Text.onto d taken = (d :: r ++ [c], []) ∨ Text.onto d taken = (d :: r, [c]) := by
    rintro d r taken (rfl | rfl)
    · exact Or.inl rfl
    · exact Or.inr rfl
  induction t using escape_induction generalizing i with
  | nil =>
    by_cases hc : c = '\\'
    · subst hc
      exact Or.inl rfl
    · rw [List.nil_append, groupContent_cons hc]
      cases i.step g c with
      | none => exact Or.inr rfl
      | some i' => exact Or.inl rfl
  | lone => exact Or.inl (groupContent_escape g i c [])
  | escape e r ih =>
    rw [groupContent_escape] at h
    rw [List.cons_append, List.cons_append, groupContent_escape]
    exact honto (honto (ih h))
  | plain d r hd ih =>
    rw [groupContent_cons hd] at h
    rw [List.cons_append, groupContent_cons hd]
    cases hstep : i.step g d with
    | none =>
      rw [hstep] at h
      exact absurd h (List.cons_ne_nil _ _)
    | some i' =>
      rw [hstep] at h
      exact honto (ih h)

/-- One more character is copied behind the copy, or, if it is a blank, perhaps something else. -/
theorem squeeze_concat (b : Bool) (t : Text) (c : Char) :
    ∃ z, squeeze b (t ++ [c]) = squeeze b t ++ z ∧ (Text.isBlank c = false → z = [c]) := by
  induction hn : t.length using Nat.strong_induction_on generalizing b t with
  | _ n ih =>
    subst hn
    match t with
    | [] =>
      by_cases hc : c = '\\'
      · exact ⟨[c], by rw [hc]; simp, fun _ => rfl⟩
      cases hblank : Text.isBlank c with
      | true => exact ⟨squeeze b [c], by simp, by simp⟩
      | false =>
        refine ⟨[c], ?_, fun _ => rfl⟩
        rw [List.nil_append, squeeze_nil, List.nil_append]
        cases hopen : Group.ofMark? c with
        | none => rw [squeeze_plain hc hblank hopen, squeeze_nil]
        | some g => rw [squeeze_group hopen, groupContent]; simp
    | d :: r =>
      by_cases hd : d = '\\'
      · subst hd
        match r with
        | [] => exact ⟨[c], by rw [squeeze_lone]; exact (squeeze_escape b c []).trans (by simp),
            fun _ => rfl⟩
        | e :: r =>
          obtain ⟨z, hz, hcopied⟩ := ih r.length (by simp only [List.length_cons]; omega) (e == ' ') r rfl
          refine ⟨z, ?_, hcopied⟩
          rw [List.cons_append, List.cons_append, squeeze_escape, squeeze_escape, hz]
          rfl
      cases hblank : Text.isBlank d with
      | true =>
        obtain ⟨z, hz, hcopied⟩ := ih r.length (Nat.lt_succ_self _) true r rfl
        refine ⟨z, ?_, hcopied⟩
        rw [List.cons_append, squeeze_blank hblank, squeeze_blank hblank, hz, List.append_assoc]
      | false =>
        cases hopen : Group.ofMark? d with
        | none =>
          obtain ⟨z, hz, hcopied⟩ := ih r.length (Nat.lt_succ_self _) false r rfl
          refine ⟨z, ?_, hcopied⟩
          rw [List.cons_append, squeeze_plain hd hblank hopen, squeeze_plain hd hblank hopen, hz]
          rfl
        | some g =>
          rw [List.cons_append, squeeze_group hopen, squeeze_group hopen]
          have happend := groupContent_append g ⟨0, none, d⟩ r
          cases hrest : (groupContent g ⟨0, none, d⟩ r).2 with
          | nil =>
            rw [hrest, List.append_nil] at happend
            refine ⟨[c], ?_, fun _ => rfl⟩
            rcases groupContent_concat hrest c with heq | heq <;> simp [heq, happend]
          | cons e x =>
            have hlength := congrArg List.length happend
            rw [hrest, List.length_append, List.length_cons] at hlength
            obtain ⟨z, hz, hcopied⟩ := ih x.length (by simp; omega) false x rfl
            refine ⟨z, ?_, hcopied⟩
            rw [groupContent_append_of_closed (by rw [hrest]; exact List.cons_ne_nil _ _), hrest]
            simp [hz]

/-- What is copied of a text stays where the text goes on. -/
theorem prefix_squeeze_append (b : Bool) (t u : Text) :
    squeeze b t <+: squeeze b (t ++ u) := by
  induction u generalizing t with
  | nil => exact (List.append_nil t).symm ▸ List.prefix_refl _
  | cons c u ih =>
    obtain ⟨z, hz, -⟩ := squeeze_concat b t c
    rw [List.append_cons]
    exact (hz ▸ List.prefix_append _ _ : squeeze b t <+: squeeze b (t ++ [c])).trans (ih _)

/-- Characters that are no blanks are copied. -/
theorem squeeze_append_of_not_blank {u : Text} (hu : ∀ c ∈ u, Text.isBlank c = false) (b : Bool)
    (t : Text) : squeeze b (t ++ u) = squeeze b t ++ u := by
  induction u generalizing t with
  | nil => rw [List.append_nil, List.append_nil]
  | cons c u ih =>
    obtain ⟨hc, hu⟩ := List.forall_mem_cons.mp hu
    obtain ⟨z, hz, hcopied⟩ := squeeze_concat b t c
    rw [List.append_cons, ih hu, hz, hcopied hc, ← List.append_cons]

/-! ### What is pending -/

/-- A space, or nothing, stands at the end of the text, given whether it stands in front of it. -/
def spacedAfter (b : Bool) (t : Text) : Bool := (t.getLast?.map (· == ' ')).getD b

@[simp] theorem spacedAfter_nil (b : Bool) : spacedAfter b [] = b := rfl

theorem spacedAfter_concat (b : Bool) (t : Text) (c : Char) :
    spacedAfter b (t ++ [c]) = (c == ' ') := by
  simp [spacedAfter]

@[simp] theorem spacedAfter_singleton (b : Bool) (c : Char) : spacedAfter b [c] = (c == ' ') := rfl

theorem spacedAfter_append (b : Bool) (t u : Text) :
    spacedAfter b (t ++ u) = spacedAfter (spacedAfter b t) u := by
  rcases List.eq_nil_or_concat u with rfl | ⟨u, c, rfl⟩
  · simp
  · rw [List.concat_eq_append, ← List.append_assoc, spacedAfter_concat, spacedAfter_concat]

theorem spacedAfter_cons (b : Bool) (c : Char) (t : Text) :
    spacedAfter b (c :: t) = spacedAfter (c == ' ') t := by
  rw [← List.singleton_append, spacedAfter_append]
  rfl

/-- The text with a chunk added to it. -/
def appendChunk (t : Text) (k : Chunk) : Text :=
  t ++ if k.isBlank then (if spacedAfter true t then [] else [' ']) else k.text

theorem pending_writeSpace {d : Draft} (h : d.nodes = []) :
    d.writeSpace.pending = d.pending ++ if spacedAfter true d.pending then [] else [' '] := by
  have hspaced : (d.pending.isEmpty && d.nodes.isEmpty || d.pending.getLast? == some ' ') =
      spacedAfter true d.pending := by
    rw [h]
    rcases List.eq_nil_or_concat d.pending with hnil | ⟨t, c, ht⟩
    · rw [hnil]
      rfl
    · rw [ht, List.concat_eq_append, spacedAfter_concat]
      simp
  rw [Draft.writeSpace, hspaced]
  cases spacedAfter true d.pending
  · rfl
  · simp

/-- What is pending in front of a branch's first node is what its chunks add up to. -/
theorem pending_foldl_piecesFrom {ks : List Chunk} {h : Held}
    (hclean : ∀ q ∈ piecesFrom h ks, q.isClean = true) {d : Draft} (hd : d.nodes = []) :
    ((piecesFrom h ks).foldl Draft.addText d).pending =
      ks.foldl appendChunk (d.pending ++ h.text) := by
  induction ks generalizing h d with
  | nil =>
    rw [piecesFrom, foldl_addText_pending (ne_space_of_release h), flatMap_text_release]
    rfl
  | cons k ks ih =>
    rw [piecesFrom] at hclean ⊢
    have hfeed : ∀ q ∈ (h.feed k).1, q.isClean = true :=
      fun q hq => hclean q (List.mem_append_left _ hq)
    rw [List.foldl_append, ih (fun q hq => hclean q (List.mem_append_right _ hq))
      (by rw [foldl_addText_nodes, hd]), List.foldl_cons]
    congr 1
    cases hk : k.isBlank with
    | true =>
      cases k with
      | word w => exact absurd hk (by simp [Chunk.isBlank])
      | group g content closed => exact absurd hk (by simp [Chunk.isBlank])
      | mark c =>
        have hc : Text.isBlank c = true := hk
        have hspace : ∀ e : Draft, (e.addText .space).pending = e.writeSpace.pending := by
          intro e
          simp [Draft.addText]
        rw [feed_blank hc, List.foldl_append, List.foldl_cons, List.foldl_nil, hspace,
          pending_writeSpace (by rw [foldl_addText_nodes, hd]),
          foldl_addText_pending (ne_space_of_release h), flatMap_text_release, appendChunk,
          if_pos hk, Held.text, List.append_nil]
    | false =>
      rw [foldl_addText_pending (ne_space_of_feed hk), List.append_assoc, text_feed hfeed,
        ← List.append_assoc, appendChunk, hk, spaced_eq_text hk]
      rfl

/-- A word is copied. -/
theorem squeeze_takeWord (b : Bool) (t : Text) :
    squeeze b t = (takeWord t).1 ++ squeeze (spacedAfter b (takeWord t).1) (takeWord t).2 := by
  induction t using escape_induction generalizing b with
  | nil =>
    rw [show takeWord [] = ([], []) from rfl]
    simp
  | lone =>
    rw [show takeWord ['\\'] = (['\\'], []) by decide, squeeze_lone, squeeze_nil]
    rfl
  | escape e r ih =>
    rw [squeeze_escape, takeWord_escape, ih]
    simp [Text.onto, spacedAfter_cons]
  | plain c r hc ih =>
    rw [takeWord_cons hc]
    split
    · rfl
    · rename_i hmark
      have hmark : isMark c = false := by rwa [Bool.not_eq_true] at hmark
      have hopen : Group.ofMark? c = none := by
        by_contra hne
        obtain ⟨g, hg⟩ := Option.ne_none_iff_exists'.mp hne
        rw [isMark_of_ofMark? hg] at hmark
        exact absurd hmark (by simp)
      have hspace : (c == ' ') = false := by
        rw [beq_eq_false_iff_ne]
        rintro rfl
        exact absurd hmark (by decide)
      rw [squeeze_plain hc (not_blank_of_not_isMark hmark) hopen, ih]
      simp [Text.onto, spacedAfter_cons, hspace]

/-- The chunks of a text add up to the squeezed text. -/
theorem foldl_appendChunk (t u : Text) :
    (chunks t).foldl appendChunk u = u ++ squeeze (spacedAfter true u) t := by
  induction t using chunks_induction generalizing u with
  | nil => simp [chunks_nil]
  | word c r hmark ih =>
    rw [chunks_of_word hmark, List.foldl_cons, ih, squeeze_takeWord _ (c :: r), appendChunk]
    simp [Chunk.isBlank, Chunk.text, spacedAfter_append]
  | mark c r hmark hopen ih =>
    rw [chunks_of_mark hmark hopen, List.foldl_cons, ih, appendChunk]
    cases hc : Text.isBlank c with
    | true =>
      rw [squeeze_blank hc]
      cases hu : spacedAfter true u <;> simp [Chunk.isBlank, hc, hu, spacedAfter_append]
    | false =>
      have hspace : (c == ' ') = false := by
        rw [beq_eq_false_iff_ne]
        rintro rfl
        exact absurd hc (by decide)
      rw [squeeze_plain (ne_backslash_of_isMark hmark) hc hopen]
      simp [Chunk.isBlank, hc, Chunk.text, spacedAfter_append, hspace]
  | group c r g hopen ih =>
    rw [chunks_of_group hopen, List.foldl_cons, ih, appendChunk, squeeze_group hopen]
    have hclosing := head?_groupContent_snd g ⟨0, none, c⟩ r
    have hspace : (g.closing == ' ') = false := by
      rw [beq_eq_false_iff_ne]
      intro hc
      have hopening : Group.ofMark? g.opening = some g := by
        rw [Group.opening_of_ofMark? hopen, hopen]
      have hblank := not_blank_closing hopening
      rw [hc] at hblank
      exact absurd hblank (by decide)
    cases hrest : (groupContent g ⟨0, none, c⟩ r).2 with
    | nil => simp [Chunk.isBlank, Chunk.text, Group.opening_of_ofMark? hopen]
    | cons d z =>
      rw [hrest] at hclosing
      have hd : d = g.closing := hclosing d rfl
      simp [Chunk.isBlank, Chunk.text, Group.opening_of_ofMark? hopen, spacedAfter_append,
        spacedAfter_cons, hd, hspace]

/-- What is pending after pieces that only add text is the squeezed text. -/
theorem pending_piecesFrom {t : Text}
    (hclean : ∀ q ∈ piecesFrom .nothing (chunks t), q.isClean = true) :
    ((piecesFrom .nothing (chunks t)).foldl Draft.addText .empty).pending = squeeze true t := by
  rw [pending_foldl_piecesFrom hclean rfl]
  exact foldl_appendChunk t []

/-! ### Nesting -/

section Nesting

open Nesting (Settled)

variable {k : Brackets} {s : Nesting} {p : Char → Bool}

/-- The copy of a text is nested like the text, and cut where the text is. -/
theorem after_squeeze (hs : Settled s) (hp : ∀ c, Text.isBlank c = true → p c = false) (b : Bool)
    (t : Text) :
    s.after k (squeeze b t) = s.after k t ∧
      (Nesting.cut k p s (squeeze b t) = none ↔ Nesting.cut k p s t = none) := by
  induction t using squeeze_induction generalizing s b with
  | same t ht => simp [ht]
  | blank c r hc ih =>
    have hcut : ∀ c, Text.isBlank c = true → Nesting.cutsAt k p s c = false :=
      fun c hc => by rw [Nesting.cutsAt, hp c hc, Bool.and_false]
    have hspace : Text.isBlank ' ' = true := by decide
    rw [squeeze_blank hc]
    cases b <;>
    simp [Nesting.cut_cons_eq_none_iff, hs.step_of_blank hc, hs.step_of_blank hspace, hcut c hc,
      hcut ' ' hspace, ih hs]
  | copied x z b' _ hescape hx ih =>
    obtain ⟨hafter, hcut⟩ := ih (hs.after (b := k) hescape) b'
    rw [hx, Nesting.after_append, Nesting.after_append, Nesting.cut_append_eq_none_iff,
      Nesting.cut_append_eq_none_iff]
    exact ⟨hafter, and_congr_right fun _ => hcut⟩

end Nesting

end Extended
end CosmeticFilter
