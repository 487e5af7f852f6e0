import CosmeticFilter.Proofs.Text.Cut
import CosmeticFilter.StyleSheet.Compiler

/-!
# Rules on lines of their own

A style sheet is often put together from rules, one on each line. The search for the end of a rule
treats every apostrophe as a quote, also one that the selector reads as text, as in
`:contains(it's)`. Such a rule has no closing brace outside quotes, and the first closing brace of
all is taken for its end only as long as no brace further down stands outside everything. A second
apostrophe further down can bring one about, and then the rule swallows what lies between.

* `leavesOpen`: the search does not find the end within the rule;
* `keptApart`: no rule that is left open is closed by one of those after it;
* `ruleTexts_joined_iff`: the rules on lines of their own are cut where they were joined exactly if
  they are kept apart;
* `compile_joined`: compiling them is then the same as compiling the list.
-/

namespace CosmeticFilter
namespace StyleSheet

/-- The search for the brace that ends a rule, from a state of the reader. -/
def findEnd (s : Nesting) (t : Text) : Option (Text × Char × Text) :=
  Nesting.cut .roundAndSquare (· == '\x7d') s t

/-- No closing brace of the text stands outside quotes and brackets. -/
def leavesOpen (t : Text) : Bool := (findEnd .top t).isNone

/-- The rules, each on a line of its own. -/
def joined (rs : List Text) : Text := Text.join ['\n'] rs

/-- A rule that is left open is followed by no closing brace that would end it. -/
def keptApart : List Text → Bool
  | [] => true
  | r :: rs =>
    (!leavesOpen r ||
      (findEnd (Nesting.top.after .roundAndSquare r) ('\n' :: joined rs)).isNone) &&
        keptApart rs

theorem exists_of_isOk {ε α : Type} {x : Except ε α} (h : x.isOk = true) : ∃ a, x = .ok a := by
  cases x with
  | error e => exact absurd h (by simp [Except.isOk, Except.toBool])
  | ok a => exact ⟨a, rfl⟩

/-- A rule that ends in its closing brace and is accepted by itself. -/
structure StandsAlone (r : Text) : Prop where
  /-- Its last character is the closing brace. -/
  closed : r.getLast? = some '\x7d'
  /-- A compiler that remembers nothing accepts it as a single rule. -/
  accepted : ∃ data, ((Compiler.ofOptions .default).compileSingle r).1 = .ok data

theorem standsAlone_iff {r : Text} :
    StandsAlone r ↔ r.getLast? = some '\x7d' ∧
      ((Compiler.ofOptions .default).compileSingle r).1.isOk = true := by
  constructor
  · rintro ⟨hclosed, data, haccepted⟩
    rw [haccepted]
    exact ⟨hclosed, rfl⟩
  · rintro ⟨hclosed, haccepted⟩
    exact ⟨hclosed, exists_of_isOk haccepted⟩

instance (r : Text) : Decidable (StandsAlone r) := decidable_of_iff _ standsAlone_iff.symm

/-! ### Cutting off the first rule -/

theorem not_closingBrace_of_blank (c : Char) (h : Text.isBlank c = true) :
    (c == '\x7d') = false := by
  rw [beq_eq_false_iff_ne]
  rintro rfl
  exact absurd h (by decide)

theorem findEnd_trimStart_isNone (t : Text) :
    (findEnd .top (Text.trimStart t)).isNone = leavesOpen t := by
  obtain ⟨b, hb, heq⟩ := Text.exists_trimStart_append t
  rw [leavesOpen]
  conv_rhs => rw [heq]
  rw [findEnd, findEnd, Nesting.cut_append_blank not_closingBrace_of_blank hb,
    Option.isNone_map]

theorem ruleTexts_of_blank {t : Text} (h : Text.trimStart t = []) : ruleTexts t = [] := by
  rw [ruleTexts, dif_pos h]

theorem ruleTexts_of_not_blank {t : Text} (h : Text.trimStart t ≠ []) :
    ruleTexts t = Text.trimEnd (cutRule (Text.trimStart t)).1 ::
      ruleTexts (cutRule (Text.trimStart t)).2 := by
  rw [ruleTexts, dif_neg h]

/-- Blanks in front of a style sheet do not matter. -/
theorem ruleTexts_cons_of_blank {c : Char} (h : Text.isBlank c = true) (t : Text) :
    ruleTexts (c :: t) = ruleTexts t := by
  have hstart := Text.trimStart_cons_of_blank h t
  by_cases hnil : Text.trimStart t = []
  · rw [ruleTexts_of_blank hnil, ruleTexts_of_blank (hstart.trans hnil)]
  · rw [ruleTexts_of_not_blank hnil, ruleTexts_of_not_blank (by rw [hstart]; exact hnil), hstart]

theorem ruleTexts_eq_nil_iff {t : Text} : ruleTexts t = [] ↔ Text.trimStart t = [] := by
  refine ⟨fun h => ?_, ruleTexts_of_blank⟩
  by_contra hne
  rw [ruleTexts_of_not_blank hne] at h
  exact List.cons_ne_nil _ _ h

/-- A text that is accepted as a single rule is cut into one rule. -/
theorem exists_ruleTexts_of_compileSingle {c : Compiler} {t : Text} {data : RuleData}
    (h : (c.compileSingle t).1 = .ok data) : ∃ rule, ruleTexts t = [rule] := by
  unfold Compiler.compileSingle at h
  split at h
  · exact absurd h (by simp)
  · split at h
    · exact absurd h (by simp)
    · exact ⟨_, ‹_›⟩
    · exact absurd h (by simp)

/-- A text that is one rule and does not end in a blank is cut off whole. -/
theorem cutRule_of_single {t rule : Text} (h : ruleTexts t = [rule])
    (hlast : ∀ c ∈ (Text.trimStart t).getLast?, Text.isBlank c = false) :
    cutRule (Text.trimStart t) = (Text.trimStart t, []) := by
  have hne : Text.trimStart t ≠ [] := fun hnil => by
    rw [ruleTexts_of_blank hnil] at h
    exact absurd h (by simp)
  rw [ruleTexts_of_not_blank hne, List.cons.injEq] at h
  have hblank := Text.trimStart_eq_nil_iff.mp (ruleTexts_eq_nil_iff.mp h.2)
  have happend := cutRule_append (Text.trimStart t)
  -- a rest would be blank, but the last character is none
  have hrest : (cutRule (Text.trimStart t)).2 = [] := by
    by_contra hne
    obtain ⟨c, hc⟩ := Option.ne_none_iff_exists'.mp (mt List.getLast?_eq_none_iff.mp hne)
    have hlast := hlast c (by rw [← happend, List.getLast?_append_of_ne_nil _ hne, hc]; rfl)
    rw [hblank c (List.mem_of_getLast? hc)] at hlast
    exact absurd hlast (by simp)
  rw [hrest, List.append_nil] at happend
  exact Prod.ext happend hrest

namespace StandsAlone

variable {r : Text}

theorem getLast?_trimStart (h : StandsAlone r) :
    (Text.trimStart r).getLast? = some '\x7d' := by
  obtain ⟨b, hb, heq⟩ := Text.exists_trimStart_append r
  have hlast := h.closed
  rw [heq] at hlast
  by_cases hnil : Text.trimStart r = []
  · rw [hnil, List.append_nil] at hlast
    exact absurd (hb _ (List.mem_of_getLast? hlast)) (by decide)
  · rwa [List.getLast?_append_of_ne_nil _ hnil] at hlast

theorem trimStart_ne_nil (h : StandsAlone r) : Text.trimStart r ≠ [] := by
  intro hnil
  have hlast := h.getLast?_trimStart
  rw [hnil] at hlast
  exact absurd hlast (by simp)

theorem trim_eq (h : StandsAlone r) : Text.trim r = Text.trimStart r := by
  refine Text.trimEnd_eq_self fun c hc => ?_
  rw [h.getLast?_trimStart] at hc
  rw [← Option.some_inj.mp hc]
  decide

/-- By itself the rule is cut off whole. -/
theorem cutRule_eq (h : StandsAlone r) : cutRule (Text.trimStart r) = (Text.trimStart r, []) := by
  obtain ⟨data, haccepted⟩ := h.accepted
  obtain ⟨rule, hone⟩ := exists_ruleTexts_of_compileSingle haccepted
  refine cutRule_of_single hone fun c hc => ?_
  rw [h.getLast?_trimStart] at hc
  rw [← Option.some_inj.mp hc]
  decide

theorem ruleTexts_eq (h : StandsAlone r) : ruleTexts r = [Text.trim r] := by
  rw [ruleTexts_of_not_blank h.trimStart_ne_nil, h.cutRule_eq, ruleTexts_of_blank rfl, h.trim_eq,
    ← h.trim_eq, Text.trim, Text.trimEnd_trimEnd]

/-- The rule is cut off whole in front of a text in which the search finds no end for it. -/
theorem cutRule_append_of_kept (h : StandsAlone r) {u : Text}
    (hkept : leavesOpen r = true → findEnd (Nesting.top.after .roundAndSquare r) u = none) :
    cutRule (Text.trimStart r ++ u) = (Text.trimStart r, u) := by
  have halone := h.cutRule_eq
  cases hfind : findEnd .top (Text.trimStart r) with
  | some found =>
    obtain ⟨x, d, y⟩ := found
    unfold findEnd at hfind
    rw [cutRule, hfind] at halone
    rw [cutRule, Nesting.cut_append_of_some hfind]
    obtain ⟨hx, rfl⟩ := Prod.mk.inj halone
    exact Prod.ext hx rfl
  | none =>
    have hopen : leavesOpen r = true := by
      rw [← findEnd_trimStart_isNone, hfind]
      rfl
    have hnone := hkept hopen
    rw [← Nesting.after_trimStart] at hnone
    unfold findEnd at hfind hnone
    rw [cutRule, hfind] at halone
    rw [cutRule, Nesting.cut_append_of_none hfind, hnone, Option.map_none]
    cases hfirst : Text.cutFirst (· == '\x7d') (Text.trimStart r) with
    | none =>
      have hbrace := Text.cutFirst_eq_none_iff.mp hfirst _
        (List.mem_of_getLast? h.getLast?_trimStart)
      exact absurd hbrace (by decide)
    | some found =>
      obtain ⟨x, y⟩ := found
      rw [hfirst] at halone
      obtain ⟨hx, rfl⟩ := Prod.mk.inj halone
      simp only [Text.cutFirst_append_of_some hfirst]
      exact Prod.ext hx rfl

/-- A rule that is left open swallows the start of a text in which the search finds an end. -/
theorem cutRule_append_of_swallowed {u x y : Text} {d : Char}
    (hopen : leavesOpen r = true)
    (hfound : findEnd (Nesting.top.after .roundAndSquare r) u = some (x, d, y)) :
    cutRule (Text.trimStart r ++ u) = (Text.trimStart r ++ x ++ ['\x7d'], y) := by
  rw [← findEnd_trimStart_isNone, Option.isNone_iff_eq_none] at hopen
  rw [← Nesting.after_trimStart] at hfound
  unfold findEnd at hopen hfound
  have hbrace : d = '\x7d' := beq_iff_eq.mp (Nesting.prop_of_cut (p := (· == '\x7d')) hfound)
  subst hbrace
  rw [cutRule, Nesting.cut_append_of_none hopen, hfound]
  rfl

theorem ruleTexts_append (h : StandsAlone r) (u : Text) :
    ruleTexts (r ++ u) =
      Text.trimEnd (cutRule (Text.trimStart r ++ u)).1 ::
        ruleTexts (cutRule (Text.trimStart r ++ u)).2 := by
  have hne : Text.trimStart (r ++ u) ≠ [] := by
    rw [Text.trimStart_append h.trimStart_ne_nil]
    exact List.append_ne_nil_of_left_ne_nil h.trimStart_ne_nil u
  rw [ruleTexts_of_not_blank hne, Text.trimStart_append h.trimStart_ne_nil]

end StandsAlone

/-! ### Cutting the whole -/

/-- What follows a rule when rules are joined. -/
def tailOf (rs : List Text) : Text := if rs.isEmpty then [] else '\n' :: joined rs

theorem joined_cons (r : Text) (rs : List Text) : joined (r :: rs) = r ++ tailOf rs := by
  cases rs with
  | nil => simp [joined, Text.join, tailOf]
  | cons r' rs => simp [joined, Text.join, tailOf]

theorem ruleTexts_tailOf (rs : List Text) : ruleTexts (tailOf rs) = ruleTexts (joined rs) := by
  cases rs with
  | nil => rfl
  | cons r' rs => exact ruleTexts_cons_of_blank (by decide) _

theorem findEnd_tailOf_isNone (s : Nesting) (rs : List Text) :
    (findEnd s (tailOf rs)).isNone = (findEnd s ('\n' :: joined rs)).isNone := by
  cases rs with
  | nil => simp [tailOf, joined, Text.join, findEnd, Nesting.cut, Nesting.cutsAt]
  | cons r' rs => rfl

/-- Joined rules are cut where they were joined exactly if they are kept apart. -/
theorem ruleTexts_joined_iff {rs : List Text} (halone : ∀ r ∈ rs, StandsAlone r) :
    ruleTexts (joined rs) = rs.map Text.trim ↔ keptApart rs = true := by
  induction rs with
  | nil => exact iff_of_true (ruleTexts_of_blank rfl) rfl
  | cons r rs ih =>
    have hr : StandsAlone r := halone r (List.mem_cons_self ..)
    have hrs := ih fun r' hr' => halone r' (List.mem_cons_of_mem _ hr')
    rw [joined_cons, hr.ruleTexts_append, List.map_cons, keptApart, Bool.and_eq_true,
      Bool.or_eq_true, Bool.not_eq_true', ← findEnd_tailOf_isNone, Option.isNone_iff_eq_none]
    by_cases hkept : leavesOpen r = true →
        findEnd (Nesting.top.after .roundAndSquare r) (tailOf rs) = none
    · have hends : leavesOpen r = false ∨
          findEnd (Nesting.top.after .roundAndSquare r) (tailOf rs) = none := by
        by_cases hopen : leavesOpen r = true
        · exact Or.inr (hkept hopen)
        · exact Or.inl (Bool.not_eq_true _ ▸ hopen)
      rw [hr.cutRule_append_of_kept hkept, ruleTexts_tailOf, ← Text.trim, List.cons.injEq, hrs]
      exact ⟨fun h => ⟨hends, h.2⟩, fun h => ⟨rfl, h.2⟩⟩
    · push Not at hkept
      obtain ⟨hopen, hfound⟩ := hkept
      obtain ⟨⟨x, d, y⟩, hfind⟩ := Option.ne_none_iff_exists'.mp hfound
      rw [StandsAlone.cutRule_append_of_swallowed hopen hfind, List.cons.injEq]
      have hbrace : Text.trimEnd ['\x7d'] = ['\x7d'] := by decide
      refine iff_of_false ?_ ?_
      · -- what is cut off is longer than the rule
        rintro ⟨hhead, -⟩
        rw [Text.trimEnd_append (by rw [hbrace]; simp), hbrace, hr.trim_eq] at hhead
        have hlength := congrArg List.length hhead
        simp only [List.length_append, List.length_singleton] at hlength
        omega
      · rintro ⟨h | h, -⟩
        · rw [hopen] at h
          exact absurd h (by simp)
        · rw [hfind] at h
          exact absurd h (by simp)

/-! ### Compiling the whole -/

/-- Rules that stand alone are listed as they are. -/
theorem flatMap_ruleTexts {rs : List Text} (halone : ∀ r ∈ rs, StandsAlone r) :
    rs.flatMap ruleTexts = rs.map Text.trim := by
  induction rs with
  | nil => rfl
  | cons r rs ih =>
    rw [List.flatMap_cons, (halone r (List.mem_cons_self ..)).ruleTexts_eq,
      ih fun r' hr' => halone r' (List.mem_cons_of_mem _ hr')]
    rfl

/-- **Joining rules.** Rules that are accepted one by one are cut where they were joined exactly if
they are kept apart, and then it is the same to compile them joined or as a list: the rules, the
warnings and what the compiler remembers are equal. -/
theorem compile_joined (o : Options) {rs : List Text} (halone : ∀ r ∈ rs, StandsAlone r) :
    (ruleTexts (joined rs) = rs.map Text.trim ↔ keptApart rs = true) ∧
      (keptApart rs = true →
        (Compiler.ofOptions o).compile [joined rs] = (Compiler.ofOptions o).compile rs) := by
  refine ⟨ruleTexts_joined_iff halone, fun hkept => ?_⟩
  have hcut := (ruleTexts_joined_iff halone).mpr hkept
  unfold Compiler.compile
  rw [flatMap_ruleTexts halone, List.flatMap_singleton, hcut]

/-- A rule that is left open by an apostrophe. -/
def apostropheRule : Text := "p:contains(it's) \x7b top: 0 \x7d".toList

/-- A rule with a closing brace in its selector. -/
def braceRule : Text := "b:contains(\x7d) \x7b left: 0 \x7d".toList

/-- The first rule is left open, and the second does not close it. -/
theorem compile_joined_apostropheRule_braceRule :
    (∀ r ∈ [apostropheRule, braceRule], StandsAlone r) ∧
      leavesOpen apostropheRule = true ∧
      (Compiler.ofOptions .default).compile [joined [apostropheRule, braceRule]] =
        (Compiler.ofOptions .default).compile [apostropheRule, braceRule] := by
  have halone : ∀ r ∈ [apostropheRule, braceRule], StandsAlone r := by decide +kernel
  exact ⟨halone, by decide +kernel, (compile_joined .default halone).2 (by decide +kernel)⟩

/-- Two rules with an apostrophe each: the second closes what the first leaves open, and the first
swallows the second. -/
theorem not_compile_joined :
    ¬ ∀ (o : Options) (rs : List Text), (∀ r ∈ rs, StandsAlone r) →
      ((Compiler.ofOptions o).compile [joined rs]).1 =
        ((Compiler.ofOptions o).compile rs).1 := by
  intro h
  have halone : ∀ r ∈ [apostropheRule, apostropheRule], StandsAlone r := by decide +kernel
  have hsame := h .default [apostropheRule, apostropheRule] halone
  revert hsame
  decide +kernel

end StyleSheet
end CosmeticFilter
