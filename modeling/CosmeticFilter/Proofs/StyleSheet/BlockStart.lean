import CosmeticFilter.Proofs.Css.Scope
import CosmeticFilter.Proofs.Extended.Foreign
import CosmeticFilter.Proofs.StyleSheet.RemovalForms
import CosmeticFilter.Proofs.StyleSheet.SharedCache

/-!
# Where the block begins

The opening braces of a rule are tried from right to left. A brace within the block is tried before
the one that begins it, but then the text in front of it is the selector with a brace behind it, and
this is no selector. So the block begins where it was written, also if the selector holds braces
itself: those are tried too late. What the cache remembers of the earlier attempts does not matter,
for their texts are longer than the selector.

* `braceSplits_append_cons`: the braces on both sides of an opening brace;
* `removalMarks_eq_nil`, `hasComment_eq_false`: what does not occur in a text is not found in it;
* `exists_of_stripRemoval`: the texts in front of later braces;
* `compileAttempts_append_cons`: an attempt behind others that find no selector;
* `compileRule_block`: a rule is read as the selector and the block that it is written from.
-/

namespace CosmeticFilter
namespace StyleSheet

open Extended (Follows Selector Cache normalForm)

variable {t u : Text}

/-! ### Braces -/

/-- The opening braces in front of one, the brace itself, and those behind it. -/
theorem braceSplits_append_cons (t u : Text) :
    braceSplits (t ++ '\x7b' :: u) =
      (braceSplits t).map (fun (x, y) => (x, y ++ '\x7b' :: u)) ++
        (t, u) :: (braceSplits u).map fun (x, y) => (t ++ '\x7b' :: x, y) := by
  induction t with
  | nil => simp [braceSplits, Text.onto]
  | cons c r ih =>
    rw [List.cons_append, braceSplits, ih, braceSplits]
    by_cases hc : c = '\x7b'
    · simp [hc, Text.onto, Function.comp_def]
    · simp [hc, Text.onto, Function.comp_def]

/-- From right to left, the braces behind an opening brace are tried before it. -/
theorem exists_reverse_braceSplits (t u : Text) :
    ∃ later earlier, (braceSplits (t ++ '\x7b' :: u)).reverse = later ++ (t, u) :: earlier ∧
      ∀ x y, (x, y) ∈ later → ∃ v, x = t ++ '\x7b' :: v := by
  refine ⟨((braceSplits u).map fun (x, y) => (t ++ '\x7b' :: x, y)).reverse,
    ((braceSplits t).map fun (x, y) => (x, y ++ '\x7b' :: u)).reverse, ?_, fun x y hmem => ?_⟩
  · rw [braceSplits_append_cons, List.reverse_append, List.reverse_cons, List.append_assoc,
      List.singleton_append]
  · obtain ⟨⟨v, w⟩, -, heq⟩ := List.mem_map.mp (List.mem_reverse.mp hmem)
    exact ⟨v, (Prod.mk.inj heq).1.symm⟩

/-! ### Marks -/

theorem removalMarks_eq_nil (h : Text.occursIn ":remove".toList (Text.lower t) = false) :
    removalMarks t = [] := by
  rw [List.eq_nil_iff_forall_not_mem]
  rintro ⟨x, y⟩ hmem
  obtain ⟨m, rfl, hm⟩ := exists_of_mem_marksFrom hmem
  have hmark : removalMark = ":remove".toList ++ "()".toList := by decide
  have hlower : Text.lower (x ++ (m ++ y)) =
      Text.lower x ++ ":remove".toList ++ ("()".toList ++ Text.lower y) := by
    rw [Text.lower, List.map_append, List.map_append, ← Text.lower, ← Text.lower, ← Text.lower, hm,
      hmark]
    simp only [List.append_assoc]
  rw [Text.occursIn_iff.mpr ⟨_, _, hlower.symm⟩] at h
  exact absurd h (by simp)

/-- In front of a brace behind a selector without marks, the selector stands with the brace behind
it, whether a mark has been taken off or not. -/
theorem exists_of_stripRemoval (hmarks : removalMarks t = []) {selector : Text} {marked : Bool}
    (h : stripRemoval (t ++ '\x7b' :: u) = .ok (selector, marked)) :
    ∃ v, selector = Text.trimStart t ++ '\x7b' :: v := by
  have hbrace : Text.isBlank '\x7b' = false := by decide
  have hhead : ∀ w : Text, ∀ c ∈ ('\x7b' :: w).head?, c.toLower ∉ "remove()".toList := by
    rintro w c ⟨⟩
    decide
  unfold stripRemoval at h
  rw [Text.trim_append_cons hbrace] at h
  simp only at h
  split at h
  · exact ⟨_, (Prod.mk.inj (Except.ok.inj h)).1.symm⟩
  · rename_i before after hone
    split at h
    · obtain ⟨rfl, -⟩ := Prod.mk.inj (Except.ok.inj h)
      have hmem : (before, after) ∈ removalMarks (Text.trimStart t ++ '\x7b' :: Text.trimEnd u) :=
        hone ▸ List.mem_singleton_self _
      rw [removalMarks, marksFrom_append (hhead _),
        show marksFrom .top (Text.trimStart t) = [] from
          (removalMarks_trimStart_eq_nil_iff t).mpr hmarks, List.map_nil, List.nil_append,
        marksFrom_cons_of_none fun _ => cutMark?_cons_of_ne (by decide) _, List.map_map] at hmem
      obtain ⟨⟨x, y⟩, -, hpair⟩ := List.mem_map.mp hmem
      obtain ⟨rfl, -⟩ := Prod.mk.inj hpair
      exact ⟨_, Text.trimEnd_append_cons hbrace _ x⟩
    · exact absurd h (by simp)
  · exact absurd h (by simp)

/-! ### Comments -/

/-- A comment begins with a slash and a star. -/
theorem of_hasCommentFrom {quote previous : Option Char}
    (h : hasCommentFrom quote previous t = true) :
    previous = some '/' ∧ t.head? = some '*' ∨ "/*".toList <:+: t := by
  induction t generalizing quote previous with
  | nil => exact absurd h Bool.false_ne_true
  | cons c r ih =>
    have hlater : ∀ quote, hasCommentFrom quote (some c) r = true → "/*".toList <:+: c :: r := by
      intro quote hr
      rcases ih hr with ⟨hslash, hstar⟩ | hoccurs
      · obtain ⟨r', rfl⟩ := List.head?_eq_some_iff.mp hstar
        rw [Option.some_inj.mp hslash]
        exact ⟨[], r', rfl⟩
      · exact hoccurs.trans ⟨[c], [], by simp⟩
    unfold hasCommentFrom at h
    split at h
    · exact Or.inr (hlater _ h)
    · split_ifs at h with hquote hcomment
      · exact Or.inr (hlater _ h)
      · exact Or.inl ⟨hcomment.2, congrArg some hcomment.1⟩
      · exact Or.inr (hlater _ h)

theorem hasComment_eq_false (h : Text.occursIn "/*".toList t = false) : hasComment t = false := by
  rw [← Bool.not_eq_true] at h ⊢
  intro hcomment
  rcases of_hasCommentFrom hcomment with ⟨hnone, -⟩ | hoccurs
  · exact absurd hnone (by simp)
  · exact h (Text.occursIn_iff.mpr hoccurs)

/-! ### Attempts that find no selector -/

/-- An attempt counts if those before it find no selector and ask for none with its normal form. -/
theorem compileAttempts_append_cons {as : List Attempt} {a : Attempt} {tree : Selector}
    {rule : Rule} (hrefused : ∀ b ∈ as, ∀ tree, Selector.ofText b.text ≠ .ok tree)
    (hform : ∀ b ∈ as, normalForm b.text ≠ normalForm a.text)
    (hread : Selector.ofText a.text = .ok tree) (hrule : a.rule? tree = some rule)
    (later : List Attempt) : (compileAttempts .empty (as ++ a :: later)).1 = some rule := by
  obtain ⟨hfollows, hfound⟩ := compileAttempts_keeps (P := Follows (as.map Attempt.text) .empty)
    (fun cache hcache b hb => hcache.read (List.mem_map_of_mem hb)) (.refl _ _)
  have hnone : (compileAttempts .empty as).1 = none := by
    rw [Option.eq_none_iff_forall_ne_some]
    intro found hsome
    obtain ⟨cache, b, tree', hcache, hb, hanswer, -⟩ := hfound found hsome
    obtain ⟨s, hs, -, hsame⟩ := hcache b.text
    obtain ⟨b', hb', rfl⟩ : ∃ b' ∈ as, b'.text = s := by
      rcases hs with rfl | hs
      · exact ⟨b, hb, rfl⟩
      · exact List.mem_map.mp hs
    rw [hsame, Cache.read_empty] at hanswer
    exact hrefused b' hb' tree' hanswer
  have hanswer : ((compileAttempts .empty as).2.read a.text).1 = .ok tree := by
    obtain ⟨s, rfl | hs, hsa, hsame⟩ := hfollows a.text
    · rw [hsame, Cache.read_empty, hread]
    · obtain ⟨b, hb, rfl⟩ := List.mem_map.mp hs
      exact absurd hsa (hform b hb)
  rw [compileAttempts_append, hnone, Option.isSome_none, if_neg Bool.false_ne_true, compileAttempts,
    hanswer]
  simp only [Except.toOption, Option.bind_some, hrule]

/-! ### The block -/

/-- A brace within the block leaves no selector in front of it. -/
theorem not_ofText_of_ofSplit? {tree : Selector} (hread : Selector.ofText t = .ok tree)
    (hescape : Extended.endsInEscape t = false) (hmarks : removalMarks t = []) {rule after : Text}
    {a : Attempt} (ha : Attempt.ofSplit? rule (t ++ '\x7b' :: u) after = some a) :
    (∀ tree', Selector.ofText a.text ≠ .ok tree') ∧
      normalForm a.text ≠ normalForm (Text.trim t) := by
  obtain ⟨marked, hstrip, -, -⟩ := Attempt.ofSplit?_eq_some ha
  obtain ⟨v, hv⟩ := exists_of_stripRemoval hmarks hstrip
  rw [hv]
  refine ⟨fun tree' hread' => ?_, normalForm_append_cons_ne (by decide) t v⟩
  have hstart : Extended.readAll .top (Text.trimStart t) = .ok tree.branches := by
    rw [← Extended.readAll_trim, Text.trim_trimStart, Extended.readAll_trim]
    exact Extended.Selector.ofText_eq_ok.mp hread
  exact Extended.not_readAll_append hstart ((Css.IsRest.trimStart t).escape hescape) (by decide) v
    tree'.branches (Extended.Selector.ofText_eq_ok.mp hread')

/-- The rule passes all that is checked before its block is looked for. -/
theorem attempts_block {tree : Selector} (hread : Selector.ofText t = .ok tree)
    (hcomment : Text.occursIn "/*".toList (t ++ '\x7b' :: u) = false)
    (hlast : u.getLast? = some '\x7d') :
    attempts (t ++ '\x7b' :: u) = Attempt.each (Text.trimStart t ++ '\x7b' :: u) := by
  obtain ⟨c, r, htrim, hc⟩ :=
    Extended.exists_trim_of_readAll (Extended.Selector.ofText_eq_ok.mp hread)
  have hrule : Text.trim (t ++ '\x7b' :: u) = Text.trimStart t ++ '\x7b' :: u := by
    rw [Text.trim_append_cons (by decide), Text.trimEnd_eq_self]
    rw [hlast]
    rintro d ⟨⟩
    decide
  have hhead : (Text.trimStart t ++ '\x7b' :: u).head? = some c := by
    have hne : Text.trim t ≠ [] := by
      rw [htrim]
      exact List.cons_ne_nil c r
    obtain ⟨b, -, hstart⟩ := Text.exists_append_trimEnd (Text.trimStart t)
    have hstart : Text.trimStart t = Text.trim t ++ b := hstart
    rw [hstart, List.append_assoc, List.head?_append_of_ne_nil _ hne, htrim]
    rfl
  have hne : ∀ d, Css.isForeign d = true → some c ≠ some d := by
    rintro d hd ⟨⟩
    rw [hd] at hc
    exact absurd hc (by simp)
  have hsupported : checkSupported (Text.trimStart t ++ '\x7b' :: u) = .ok () := by
    have hnone : hasComment (Text.trimStart t ++ '\x7b' :: u) = false := by
      refine hasComment_eq_false ?_
      rw [← Bool.not_eq_true, Text.occursIn_iff] at hcomment ⊢
      obtain ⟨a, -, hstart⟩ := Text.exists_trimStart_append t
      refine fun hoccurs => hcomment (hoccurs.trans ⟨a, [], ?_⟩)
      conv_rhs => rw [hstart]
      simp
    unfold checkSupported
    rw [hhead, if_neg (hne '@' (by decide)), hnone]
    rfl
  unfold attempts
  simp only [hrule]
  rw [if_neg (List.append_ne_nil_of_right_ne_nil _ (List.cons_ne_nil _ _)), hhead,
    if_neg (hne '\x7b' (by decide)), hsupported]

/-- The brace behind a selector finds the rule. -/
theorem exists_ofSplit?_block (rule : Text) {block : Text} {tree : Selector} {ds : List Declaration}
    (hread : Selector.ofText t = .ok tree) (hmarks : removalMarks t = [])
    (hremoval : tree.hasRemoval = false) (hblock : Declaration.readBlock false block = .ok ds) :
    ∃ a, Attempt.ofSplit? rule t (block ++ ['\x7d']) = some a ∧ a.text = Text.trim t ∧
      a.rule? tree = some ⟨normalForm t, tree, ds, false⟩ := by
  have hne : Text.trim t ≠ [] := by
    obtain ⟨c, r, heq, -⟩ :=
      Extended.exists_trim_of_readAll (Extended.Selector.ofText_eq_ok.mp hread)
    rw [heq]
    exact List.cons_ne_nil c r
  have hform : normalForm (Text.trim t) = normalForm t := by
    rw [normalForm, Text.trim_trim, normalForm]
  have hdrop : dropBrace? (block ++ ['\x7d']) = some block := by
    rw [dropBrace?, List.getLast?_concat, if_pos rfl, List.dropLast_concat]
  have hdone : ruleOf rule (Text.trim t) false tree (block ++ ['\x7d']) =
      .ok ⟨normalForm t, tree, ds, false⟩ := by
    simp only [ruleOf, hdrop, hremoval, Bool.or_false, hblock, hform]
  refine ⟨⟨Text.trim t, fun tree =>
    (ruleOf rule (Text.trim t) false tree (block ++ ['\x7d'])).toOption⟩, ?_, rfl, ?_⟩
  · rw [Attempt.ofSplit?, stripRemoval_of_no_marks hmarks]
    simp only [if_neg hne]
  · simp only [hdone]
    rfl

/-- The attempts at a rule that starts with no blank: the braces of the block find no selector, and
the one that begins it finds the rule. -/
theorem compileAttempts_block {block : Text} {tree : Selector} {ds : List Declaration}
    (hread : Selector.ofText t = .ok tree) (hescape : Extended.endsInEscape t = false)
    (hmarks : removalMarks t = []) (hremoval : tree.hasRemoval = false)
    (hblock : Declaration.readBlock false block = .ok ds) :
    (compileAttempts .empty (Attempt.each (t ++ '\x7b' :: (block ++ ['\x7d'])))).1 =
      some ⟨normalForm t, tree, ds, false⟩ := by
  obtain ⟨later, earlier, hsplits, hlater⟩ := exists_reverse_braceSplits t (block ++ ['\x7d'])
  have hmem : '\x7b' ∈ t ++ '\x7b' :: (block ++ ['\x7d']) :=
    List.mem_append_right _ (List.mem_cons_self ..)
  obtain ⟨a, ha, htext, hdone⟩ := exists_ofSplit?_block
    (t ++ '\x7b' :: (block ++ ['\x7d'])) hread hmarks hremoval hblock
  rw [Attempt.each, if_pos hmem, hsplits, List.filterMap_append,
    List.filterMap_cons_some (f := fun c : Text × Text => Attempt.ofSplit? _ c.1 c.2) ha]
  have hrefused : ∀ b ∈ later.filterMap fun c =>
      Attempt.ofSplit? (t ++ '\x7b' :: (block ++ ['\x7d'])) c.1 c.2,
      (∀ tree', Selector.ofText b.text ≠ .ok tree') ∧ normalForm b.text ≠ normalForm a.text := by
    intro b hb
    obtain ⟨⟨before, after⟩, hc, hsplit⟩ := List.mem_filterMap.mp hb
    obtain ⟨v, rfl⟩ := hlater before after hc
    rw [htext]
    exact not_ofText_of_ofSplit? hread hescape hmarks hsplit
  refine compileAttempts_append_cons (fun b hb => (hrefused b hb).1) (fun b hb => (hrefused b hb).2)
    ?_ hdone _
  rw [Extended.Selector.ofText_eq_ok] at hread ⊢
  rwa [htext, Extended.readAll_trim]

/-- **Where the block begins.** A selector without `:remove` and without a backslash at its end,
and a block behind it, are read as what they are by themselves, however many braces they hold. -/
theorem compileRule_block {selector block : Text} {tree : Selector} {ds : List Declaration}
    (hread : Selector.ofText selector = .ok tree) (hlast : selector.getLast? ≠ some '\\')
    (hmark : Text.occursIn ":remove".toList (Text.lower selector) = false)
    (hremoval : tree.hasRemoval = false) (hblock : Declaration.readBlock false block = .ok ds)
    (hcomment : Text.occursIn "/*".toList (selector ++ '\x7b' :: block ++ ['\x7d']) = false) :
    (compileRule .empty (selector ++ '\x7b' :: block ++ ['\x7d'])).1 =
      .ok ⟨normalForm selector, tree, ds, false⟩ := by
  have hescape : Extended.endsInEscape selector = false := by
    rw [← Bool.not_eq_true]
    exact fun hescape => hlast (Extended.getLast?_of_escape hescape)
  have hstart : Selector.ofText (Text.trimStart selector) = .ok tree := by
    rw [Extended.Selector.ofText_eq_ok] at hread ⊢
    rwa [← Extended.readAll_trim, Text.trim_trimStart, Extended.readAll_trim]
  have hform : normalForm (Text.trimStart selector) = normalForm selector := by
    rw [normalForm, Text.trim_trimStart, normalForm]
  rw [List.append_assoc, List.cons_append] at hcomment ⊢
  have hrule := compileAttempts_block hstart ((Css.IsRest.trimStart selector).escape hescape)
    ((removalMarks_trimStart_eq_nil_iff selector).mpr (removalMarks_eq_nil hmark)) hremoval hblock
  rw [← attempts_block hread hcomment (List.getLast?_concat ..), compileRule_eq, hform] at hrule
  cases hcompiled : (compileRule .empty (selector ++ '\x7b' :: (block ++ ['\x7d']))).1 with
  | error e =>
    rw [hcompiled] at hrule
    exact absurd hrule (by simp [Except.toOption])
  | ok rule =>
    rw [hcompiled] at hrule
    exact congrArg Except.ok (Option.some_inj.mp hrule)

/-- A selector with a brace in an argument and one in a string. -/
def bracedSelector : Text := " p:contains(a \x7b b)  > b[title=\"\x7d\"]".toList

/-- A block with both braces in a value. -/
def bracedBlock : Text := " content: \"\x7b x \x7d\"; color: red".toList

/-- Three braces could begin the block, and the second one does. -/
theorem compileRule_block_braces :
    let tree : Selector := ⟨[[.fragment "p".toList, .textual .contains "a \x7b b".toList,
      .fragment " > b[title=\"\x7d\"]".toList]]⟩
    let ds : List Declaration :=
      [⟨"content".toList, "\"\x7b x \x7d\"".toList⟩, ⟨"color".toList, "red".toList⟩]
    Selector.ofText bracedSelector = .ok tree ∧ bracedSelector.getLast? ≠ some '\\' ∧
      Text.occursIn ":remove".toList (Text.lower bracedSelector) = false ∧
      tree.hasRemoval = false ∧ Declaration.readBlock false bracedBlock = .ok ds ∧
      Text.occursIn "/*".toList (bracedSelector ++ '\x7b' :: bracedBlock ++ ['\x7d']) = false ∧
      (compileRule .empty (bracedSelector ++ '\x7b' :: bracedBlock ++ ['\x7d'])).1 =
        .ok ⟨"p:contains(a \x7b b) > b[title=\"\x7d\"]".toList, tree, ds, false⟩ := by
  intro tree ds
  have hread : Selector.ofText bracedSelector = .ok tree := by decide +kernel
  have hlast : bracedSelector.getLast? ≠ some '\\' := by decide
  have hmark : Text.occursIn ":remove".toList (Text.lower bracedSelector) = false := by decide
  have hblock : Declaration.readBlock false bracedBlock = .ok ds := by decide +kernel
  have hcomment : Text.occursIn "/*".toList
      (bracedSelector ++ '\x7b' :: bracedBlock ++ ['\x7d']) = false := by decide
  have hform : normalForm bracedSelector = "p:contains(a \x7b b) > b[title=\"\x7d\"]".toList := by
    decide +kernel
  refine ⟨hread, hlast, hmark, rfl, hblock, hcomment, ?_⟩
  rw [← hform]
  exact compileRule_block hread hlast hmark rfl hblock hcomment

end StyleSheet
end CosmeticFilter
