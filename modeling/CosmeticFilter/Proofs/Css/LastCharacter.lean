import CosmeticFilter.Proofs.Css.GoingOn

/-!
# How a selector ends

The last character of a selector belongs to a name, is `*`, closes an argument or an attribute
selector, or is escaped. In particular it is no colon and no combinator that stands for itself.

* `isLast`: these characters;
* `EndsInLast`: what a reader takes, if it takes all of the text, ends like this;
* `isLast_or_escaped_of_readChain`: the last character of a selector;
* `exists_isLast_of_readChain`: the same without escapes.
-/

namespace CosmeticFilter
namespace Css

open Extended (endsInEscape endsInEscape_cons endsInEscape_escape)

/-- A selector may end with this character. -/
def isLast (c : Char) : Bool := isIdentChar c || c == '*' || c == ')' || c == ']'

/-- The character neither separates nor escapes. -/
structure Stands (c : Char) : Prop where
  /-- It is no blank. -/
  not_blank : Text.isBlank c = false
  /-- It is no backslash. -/
  ne_backslash : c ≠ '\\'

/-- A text that is read to its end ends with a character of a name, `*`, or a closing bracket, or its
last character is escaped. -/
def EndsInLast {ε α : Type} (read : Text → Except ε (α × Text)) : Prop :=
  ∀ (t : Text) (c : Char) (x : α), Stands c → read (t ++ [c]) = .ok (x, []) →
    isLast c = true ∨ endsInEscape t = true

variable {ε α β : Type} {c : Char}

/-- A backslash that waits in an end of the text waits in the text. -/
theorem IsRest.last {r t : Text} (h : IsRest r t)
    (hr : isLast c = true ∨ endsInEscape r = true) : isLast c = true ∨ endsInEscape t = true := by
  refine hr.imp_right fun hescape => ?_
  by_contra hnot
  rw [h.escape (Bool.not_eq_true _ ▸ hnot)] at hescape
  exact absurd hescape Bool.false_ne_true

theorem trimStart_append_last (hc : Stands c) (t : Text) :
    Text.trimStart (t ++ [c]) = Text.trimStart t ++ [c] := by
  by_cases hnil : Text.trimStart t = []
  · rw [Text.trimStart_append_of_blank hnil, hnil, Text.trimStart_cons_of_not_blank hc.not_blank]
    rfl
  · exact Text.trimStart_append hnil [c]

theorem EndsInLast.trimStart {read : Text → Except ε (α × Text)} (h : EndsInLast read) :
    EndsInLast fun t => read (Text.trimStart t) := by
  intro t c x hc hok
  simp only at hok
  rw [trimStart_append_last hc] at hok
  exact (IsRest.trimStart t).last (h _ c x hc hok)

/-- The last character is taken by the second reader, which needs one. -/
theorem EndsInLast.bind {first : Text → Except ε (α × Text)}
    {next : α → Text → Except ε (β × Text)} (hfirst : ∀ b, LeavesUnread first b [])
    (hnil : ∀ x y, next x [] ≠ .ok (y, [])) (hnext : ∀ x, EndsInLast (next x)) :
    EndsInLast (fun t => first t >>= fun taken => next taken.1 taken.2) := by
  intro t c y hc hok
  obtain ⟨⟨x, mid⟩, hx, hy⟩ := Outcome.bind_eq_ok.mp hok
  have hmid : mid ≠ [] := by
    rintro rfl
    exact hnil x y hy
  obtain ⟨r', hr', rfl, -⟩ := hfirst [c] t x mid (apart_nil t [c]) hx
    (List.length_pos_iff.mpr hmid)
  exact hr'.last (hnext x r' c y hc hy)

/-- An escape that takes the last character, and not just a backslash in front of it, is written with
hexadecimal digits. -/
theorem isLast_of_takeEscape {d : Char} {r : Text} (hc : Stands c)
    (h : (takeEscape (d :: r ++ [c])).2 = []) : isLast c = true := by
  cases hd : isHexDigit d with
  | false =>
    rw [List.cons_append, takeEscape_cons hd] at h
    exact absurd h (List.append_ne_nil_of_right_ne_nil _ (List.cons_ne_nil _ _))
  | true =>
    obtain ⟨ds, u, hsplit, hds, hlength, hu⟩ := exists_digits 5 (r ++ [c])
    have hall : ∀ e ∈ d :: ds, isHexDigit e = true := by
      intro e he
      rcases List.mem_cons.mp he with rfl | he
      · exact hd
      · exact hds e he
    rw [List.cons_append, hsplit, ← List.cons_append, takeEscape_digits hall
      (Nat.succ_le_succ hlength) (hu.imp_left fun heq => by rw [List.length_cons, heq])] at h
    have hlast : (ds ++ u).getLast? = some c := by rw [← hsplit, List.getLast?_concat]
    cases u with
    | nil =>
      rw [List.append_nil] at hlast
      rw [isLast, isIdentChar_of_isHexDigit (hds c (List.mem_of_getLast? hlast))]
      rfl
    | cons e u =>
      have hne : e :: u ≠ [] := List.cons_ne_nil _ _
      rw [List.getLast?_append_of_ne_nil _ hne] at hlast
      rw [dropOneBlank] at h
      split at h
      · rename_i hblank
        subst h
        have he : e = c := Option.some_inj.mp hlast
        rw [he, hc.not_blank] at hblank
        exact absurd hblank Bool.false_ne_true
      · exact absurd h hne

theorem isLast_or_escaped_of_takeIdent {t : Text} (hc : Stands c)
    (h : (takeIdent (t ++ [c])).2 = []) : isLast c = true ∨ endsInEscape t = true := by
  induction hn : t.length using Nat.strong_induction_on generalizing t with
  | _ n ih =>
    subst hn
    cases t with
    | nil =>
      rw [List.nil_append, takeIdent_cons hc.ne_backslash] at h
      split at h
      · rename_i hident
        left
        rw [isLast, hident]
        rfl
      · exact absurd h (List.cons_ne_nil _ _)
    | cons d r =>
      rw [List.cons_append] at h
      by_cases hd : d = '\\'
      · subst hd
        rw [takeIdent_backslash, Text.onto_snd] at h
        cases r with
        | nil => exact Or.inr rfl
        | cons e r =>
          by_cases hnil : (takeEscape (e :: r ++ [c])).2 = []
          · exact Or.inl (isLast_of_takeEscape hc hnil)
          · obtain ⟨r', hr', hrest, -⟩ := takeEscape_exchange (r := e :: r) (apart_nil _ [c])
              detached_nil (List.length_pos_iff.mpr hnil)
            have hlt := length_takeEscape_snd_lt e (r ++ [c])
            rw [hrest] at h
            rw [← List.cons_append, hrest] at hlt
            simp only [List.length_append, List.length_cons] at hlt
            exact hr'.last (ih r'.length (by simp only [List.length_cons]; omega) h rfl)
      · rw [takeIdent_cons hd] at h
        split at h
        · rw [Text.onto_snd] at h
          exact (IsRest.cons hd r).last (ih r.length (Nat.lt_succ_self _) h rfl)
        · exact absurd h (List.cons_ne_nil _ _)

theorem endsInLast_readIdent (kind : NameKind) : EndsInLast (readIdent kind) := by
  intro t c x hc hok
  exact isLast_or_escaped_of_takeIdent hc (congrArg Prod.snd (readIdent_eq_ok.mp hok).1)

theorem EndsInLast.map {read : Text → Except ε (α × Text)} (h : EndsInLast read) (f : α → β) :
    EndsInLast (fun t => read t >>= fun taken => .ok (f taken.1, taken.2)) := by
  intro t c y hc hok
  obtain ⟨⟨x, rest⟩, hx, hy⟩ := Outcome.bind_eq_ok.mp hok
  obtain ⟨-, rfl⟩ := Prod.mk.inj (Except.ok.inj hy)
  exact h t c x hc hx

theorem Consumes.ne_ok {read : Text → Except ε (α × Text)} (h : Consumes read) (x : α)
    (rest : Text) : read [] ≠ .ok (x, rest) :=
  fun hok => absurd (h [] x rest hok) (Nat.not_lt_zero _)

/-! ### Attribute selectors and pseudo-classes -/

theorem readCaseFlag_suffix (t : Text) : (readCaseFlag t).2 <:+ t := by
  have hstart : ∀ u : Text, Text.trimStart u <:+ u := fun u => List.dropWhile_suffix _
  cases t with
  | nil => exact List.suffix_refl _
  | cons c r =>
    rw [readCaseFlag]
    split
    · exact (hstart r).trans (List.suffix_cons ..)
    · split
      · exact (hstart r).trans (List.suffix_cons ..)
      · exact List.suffix_refl _

theorem getLast?_of_readFlag {t : Text} {x : Bool} (h : readFlag t = .ok (x, [])) :
    t.getLast? = some ']' := by
  obtain ⟨rest, hclose, heq⟩ := Outcome.map_eq_ok.mp h
  obtain ⟨-, rfl⟩ := Prod.mk.inj heq
  cases hflag : (readCaseFlag t).2 with
  | nil =>
    rw [hflag] at hclose
    exact absurd hclose (by simp [readClosingBracket])
  | cons c r =>
    have hsuffix := readCaseFlag_suffix t
    rw [hflag] at hsuffix hclose
    rw [readClosingBracket] at hclose
    split at hclose
    · rename_i hc
      obtain rfl := Except.ok.inj hclose
      rw [getLast?_of_suffix hsuffix (List.cons_ne_nil _ _), hc]
      rfl
    · exact absurd hclose (by simp)

theorem endsInLast_readFlag : EndsInLast readFlag := by
  intro t c x _ hok
  have hlast := getLast?_of_readFlag hok
  rw [List.getLast?_concat] at hlast
  left
  rw [Option.some_inj.mp hlast]
  decide

theorem endsInLast_finishAttribute (name : Text) (k : Comparison) :
    EndsInLast (finishAttribute name (some k)) := by
  have hflag : ∀ value : Text, EndsInLast (fun t =>
      readFlag (Text.trimStart t) >>= fun flag =>
        (.ok ((⟨Text.lower name, some (k, value), flag.1⟩ : AttributeTest), flag.2) :
          Except Error (AttributeTest × Text))) := by
    intro value
    exact endsInLast_readFlag.trimStart.map
      fun flag => (⟨Text.lower name, some (k, value), flag⟩ : AttributeTest)
  refine EndsInLast.bind
    (fun b => (leavesUnread_readValue detached_nil).trimStart consumes_readValue) ?_ hflag
  intro value y hok
  obtain ⟨⟨flag, rest⟩, hread, -⟩ := Outcome.bind_eq_ok.mp hok
  exact consumes_readFlag.trimStart.ne_ok flag rest hread

theorem endsInLast_readComparison (name : Text) : EndsInLast (fun t =>
    readComparison (Text.trimStart t) >>= fun comparison =>
      finishAttribute name comparison.1 comparison.2) := by
  intro t c x hc hok
  obtain ⟨⟨k, mid⟩, hk, hfinish⟩ := Outcome.bind_eq_ok.mp hok
  simp only at hk hfinish
  rw [trimStart_append_last hc] at hk
  cases k with
  | some k =>
    have hmid : mid ≠ [] := by
      rintro rfl
      obtain ⟨⟨value, rest⟩, hread, -⟩ := Outcome.bind_eq_ok.mp hfinish
      exact consumes_readValue.trimStart.ne_ok value rest hread
    obtain ⟨r', hr', rfl, -⟩ := leavesUnread_readComparison (b := [c]) (w := []) _ _ _
      (apart_nil _ [c]) hk (List.length_pos_iff.mpr hmid)
    exact (hr'.trans (.trimStart t)).last (endsInLast_finishAttribute name k r' c x hc hfinish)
  | none =>
    obtain ⟨-, rfl⟩ := Prod.mk.inj (Except.ok.inj hfinish)
    left
    cases hstart : Text.trimStart t ++ [c] with
    | nil => exact absurd hstart (List.append_ne_nil_of_right_ne_nil _ (List.cons_ne_nil _ _))
    | cons d r =>
      rw [hstart, readComparison] at hk
      split at hk
      · rename_i hd
        obtain ⟨-, rfl⟩ := Prod.mk.inj (Except.ok.inj hk)
        have hlast := congrArg List.getLast? hstart
        rw [List.getLast?_concat, List.getLast?_singleton, hd] at hlast
        rw [Option.some_inj.mp hlast]
        decide
      · split at hk
        · exact absurd hk (by simp)
        · split at hk
          · exact absurd hk (by simp)
          · split at hk <;> exact absurd hk (by simp)

theorem endsInLast_readAttribute : EndsInLast readAttribute := by
  rw [funext readAttribute_eq]
  refine EndsInLast.bind
    (fun b => (leavesUnread_readIdent _ detached_nil).trimStart (consumes_readIdent _)) ?_
    endsInLast_readComparison
  intro name y hok
  obtain ⟨⟨k, rest⟩, hread, -⟩ := Outcome.bind_eq_ok.mp hok
  exact consumes_readComparison.trimStart.ne_ok k rest hread

theorem getLast?_of_takeArgument? {s : Nesting} {t a : Text}
    (h : takeArgument? s t = some (a, [])) : t.getLast? = some ')' := by
  induction t generalizing s a with
  | nil => exact absurd h (by simp [takeArgument?])
  | cons c r ih =>
    rw [takeArgument?] at h
    split at h
    · rename_i hclose
      obtain ⟨-, rfl⟩ := Prod.mk.inj (Option.some_inj.mp h)
      rw [hclose.2]
      rfl
    · obtain ⟨⟨a', rest⟩, htail, heq⟩ := Option.map_eq_some_iff.mp h
      obtain ⟨rfl, rfl⟩ := Prod.mk.inj heq
      have hlast := ih htail
      rw [getLast?_of_suffix (List.suffix_cons c r), hlast]
      rintro rfl
      exact absurd hlast (by simp)

theorem endsInLast_readNamed (isElement : Bool) : EndsInLast (readNamed isElement) := by
  intro t c x hc hok
  obtain ⟨⟨name, mid⟩, hname, hok⟩ := Outcome.bind_eq_ok.mp hok
  obtain ⟨⟨argument, rest⟩, hargument, hok⟩ := Outcome.bind_eq_ok.mp hok
  obtain ⟨condition, -, hok⟩ := Outcome.bind_eq_ok.mp hok
  obtain ⟨-, rfl⟩ := Prod.mk.inj (Except.ok.inj hok)
  simp only at hargument
  by_cases hmid : mid = []
  · subst hmid
    exact endsInLast_readIdent _ t c name hc hname
  obtain ⟨r', -, rfl, -⟩ := leavesUnread_readIdent _ detached_nil t name mid (apart_nil t [c]) hname
    (List.length_pos_iff.mpr hmid)
  left
  cases hrest : r' ++ [c] with
  | nil => exact absurd hrest hmid
  | cons d r =>
    rw [hrest, readArgument] at hargument
    split at hargument
    · split at hargument
      · rename_i hd _ taken _ htaken
        obtain ⟨-, rfl⟩ := Prod.mk.inj (Except.ok.inj hargument)
        have hlast := getLast?_of_takeArgument? htaken
        rw [← getLast?_of_suffix (List.suffix_cons d r), ← hrest, List.getLast?_concat] at hlast
        · rw [Option.some_inj.mp hlast]
          decide
        · rintro rfl
          exact absurd htaken (by simp [takeArgument?])
      · exact absurd hargument (by simp)
    · exact absurd hargument (by simp)

theorem consumes_readPseudo : Consumes readPseudo := fun _ _ _ h => length_lt_of_readPseudo h

theorem endsInLast_readPseudo : EndsInLast readPseudo := by
  intro t c x hc hok
  rw [readPseudo_eq] at hok
  split at hok
  · cases t with
    | nil => exact absurd hok (Consumes.ne_ok (consumes_readNamed true) x [])
    | cons d r =>
      rename_i hcolon
      have hd : d ≠ '\\' := by
        rintro rfl
        exact absurd hcolon (by simp)
      exact (IsRest.cons hd r).last (endsInLast_readNamed true r c x hc hok)
  · exact endsInLast_readNamed false t c x hc hok

/-! ### Compounds and selectors -/

/-- A reader behind a first character reads up to the last one. -/
theorem EndsInLast.cons {α : Type} {read : Text → Except Error (α × Text)} {y : α} {d : Char}
    {r t : Text} (hread : EndsInLast read) (hconsumes : Consumes read) (hd : d ≠ '\\')
    (hc : Stands c) (heq : d :: r = t ++ [c]) (h : read r = .ok (y, [])) :
    isLast c = true ∨ endsInEscape t = true := by
  cases t with
  | nil =>
    obtain ⟨-, rfl⟩ := List.cons.inj heq
    exact absurd h (hconsumes.ne_ok y [])
  | cons e u =>
    obtain ⟨rfl, rfl⟩ := List.cons.inj heq
    exact (IsRest.cons hd u).last (hread u c y hc h)

theorem isLast_or_escaped_of_readSimple {isFirst : Bool} {t : Text} {x : Simple} (hc : Stands c)
    (h : readSimple isFirst (t ++ [c]) = .ok (some (x, []))) :
    isLast c = true ∨ endsInEscape t = true := by
  have hread := readsSimple_of_readSimple h
  generalize hall : t ++ [c] = u at hread
  cases hread with
  | universal =>
    have hlast := congrArg List.getLast? hall
    rw [List.getLast?_concat, List.getLast?_singleton] at hlast
    rw [Option.some_inj.mp hlast]
    exact Or.inl (by decide)
  | hasClass hn =>
    exact (endsInLast_readIdent _).cons (consumes_readIdent _) (by decide) hc hall.symm hn
  | hasId hn =>
    exact (endsInLast_readIdent _).cons (consumes_readIdent _) (by decide) hc hall.symm hn
  | test ha =>
    exact endsInLast_readAttribute.cons (fun _ _ _ => length_lt_of_readAttribute) (by decide) hc
      hall.symm ha
  | pseudo hy => exact endsInLast_readPseudo.cons consumes_readPseudo (by decide) hc hall.symm hy
  | tag hstart hn =>
    rw [← hall] at hn
    exact endsInLast_readIdent _ t c _ hc hn

theorem isLast_or_escaped_of_readConditions {isFirst : Bool} {t : Text} {x : Compound}
    (hc : Stands c) (h : readConditions isFirst (t ++ [c]) = .ok (x, [])) :
    isLast c = true ∨ endsInEscape t = true := by
  have hread := readsConditions_of_readConditions h
  clear h
  generalize hall : t ++ [c] = u at hread
  generalize hnil : ([] : Text) = rest at hread
  induction hread generalizing t with
  | done =>
    subst hnil
    exact absurd hall (List.append_ne_nil_of_right_ne_nil _ (List.cons_ne_nil _ _))
  | @more _ _ mid _ _ _ hsome _ ih =>
    subst hall hnil
    by_cases hmid : mid = []
    · subst hmid
      exact isLast_or_escaped_of_readSimple hc hsome
    · obtain ⟨r', hr', rfl, -⟩ := readSimple_exchange (apart_nil t [c]) detached_nil hsome
        (List.length_pos_iff.mpr hmid)
      exact hr'.last (ih rfl rfl)

/-- What follows a combinator is an end of the text. -/
theorem isRest_of_readCombinator {t rest : Text} {k : Combinator} (hc : Stands c)
    (h : readCombinator (t ++ [c]) = .ok (some (k, rest))) :
    ∃ r', IsRest r' t ∧ rest = r' ++ [c] := by
  have hstart := IsRest.trimStart t
  unfold readCombinator at h
  rw [trimStart_append_last hc] at h
  cases hfirst : Text.trimStart t with
  | nil =>
    rw [hfirst] at h
    simp only [List.nil_append, Text.trimStart_nil] at h
    split at h
    · exact absurd h (by simp)
    · split at h
      · exact absurd h (by simp)
      · exact ⟨[], ⟨List.nil_suffix, fun _ => rfl⟩,
          (Prod.mk.inj (Option.some_inj.mp (Except.ok.inj h))).2.symm⟩
  | cons d r =>
    rw [hfirst] at h hstart
    simp only [List.cons_append] at h
    split at h
    · rename_i combinator hchar
      have hd : d ≠ '\\' := by
        rintro rfl
        rw [show Combinator.ofChar? '\\' = none from by decide] at hchar
        exact absurd hchar (by simp)
      rw [trimStart_append_last hc] at h
      split at h
      · exact absurd h (by simp)
      · rename_i hnext
        refine ⟨Text.trimStart r, ((IsRest.trimStart r).trans (.cons hd r)).trans hstart, ?_⟩
        rw [hnext]
        exact (Prod.mk.inj (Option.some_inj.mp (Except.ok.inj h))).2.symm
    · split at h
      · exact absurd h (by simp)
      · exact ⟨d :: r, hstart, (Prod.mk.inj (Option.some_inj.mp (Except.ok.inj h))).2.symm⟩

/-- The last character of a selector. -/
theorem isLast_or_escaped_of_readChain {left : List (Combinator × Compound)} {t : Text}
    {s : Complex} (hc : Stands c) (h : readChain left (t ++ [c]) = .ok s) :
    isLast c = true ∨ endsInEscape t = true := by
  have hread := readsChain_of_readChain h
  clear h
  generalize hall : t ++ [c] = u at hread
  induction hread generalizing t with
  | @last _ _ rest _ hcompound hend =>
    subst hall
    obtain ⟨hconditions, -⟩ := readCompound_eq_ok.mp hcompound
    by_cases hrest : rest = []
    · subst hrest
      exact isLast_or_escaped_of_readConditions hc hconditions
    · obtain ⟨r', -, rfl, -⟩ := readConditions_exchange (apart_nil t [c]) detached_nil
        hconditions (List.length_pos_iff.mpr hrest)
      rw [trimStart_append_last hc] at hend
      exact absurd hend (List.append_ne_nil_of_right_ne_nil _ (List.cons_ne_nil _ _))
  | @more _ _ rest _ _ _ _ hcompound hcombinator _ ih =>
    subst hall
    obtain ⟨hconditions, -⟩ := readCompound_eq_ok.mp hcompound
    have hrest : rest ≠ [] := by
      rintro rfl
      cases hcombinator
    obtain ⟨r', hr', rfl, -⟩ := readConditions_exchange (apart_nil t [c]) detached_nil
      hconditions (List.length_pos_iff.mpr hrest)
    obtain ⟨u, hu, rfl⟩ := isRest_of_readCombinator hc hcombinator
    exact (hu.trans hr').last (ih rfl)

/-- The end of the text is the end of every text that it leaves behind. -/
theorem exists_getLast?_of_suffix {p : Char → Prop} {r t : Text} (h : r <:+ t)
    (hr : ∃ c ∈ r.getLast?, p c) : ∃ c ∈ t.getLast?, p c := by
  obtain ⟨c, hc, hp⟩ := hr
  refine ⟨c, ?_, hp⟩
  rw [getLast?_of_suffix h]
  · exact hc
  · rintro rfl
    exact absurd hc (by simp)

/-- The last character of a selector without escapes that does not end in a blank. -/
theorem exists_isLast_of_readChain {left : List (Combinator × Compound)} {t : Text} {s : Complex}
    (ht : IsPlain t) (hlast : ∀ c ∈ t.getLast?, Text.isBlank c = false)
    (h : readChain left t = .ok s) : ∃ c ∈ t.getLast?, isLast c = true := by
  rcases List.eq_nil_or_concat t with rfl | ⟨u, c, rfl⟩
  · exact absurd rfl (ne_nil_of_readChain h)
  · rw [List.concat_eq_append] at *
    have hmem : c ∈ (u ++ [c]).getLast? := List.getLast?_concat
    have hc : Stands c := ⟨hlast c hmem, ht c (List.mem_append_right _ (List.mem_singleton_self _))⟩
    refine ⟨c, hmem, (isLast_or_escaped_of_readChain hc h).resolve_right fun hescape => ?_⟩
    have hplain := endsInEscape_of_plain (t := u) fun d hd => ht d (List.mem_append_left _ hd)
    rw [hplain] at hescape
    exact absurd hescape Bool.false_ne_true

end Css
end CosmeticFilter
