import CosmeticFilter.Text.Category
import Mathlib.Data.List.Basic
import Mathlib.Data.Nat.Basic

/-!
# Blanks are no letters

The table of categories tells where each run of characters begins, and the category of a character
is searched for by halving. If the runs ascend, the search ends at the run that the character lies
in. The runs do ascend, and each blank beyond ASCII lies in a run of separators or controls; both
are checked by going along the table once. So no blank can stand in a name or a number.

* `Category.lookUp_eq`: the search comes to the run before the first that begins later;
* `Spelled`: the rows of a table and their characters;
* `Text.ascendsFrom`, `Text.covers`: what is checked along the table;
* `Text.not_blank_of_isAlphanumeric`: letters and numbers are no blanks.
-/

namespace CosmeticFilter

namespace Category

/-- Where the run at a place of the table begins. -/
def beginning (table : Array (Nat × Category)) (i : Nat) : Nat := (table[i]?.map Prod.fst).getD 0

/-- The search ends at a run that does not begin too late, if all later ones do. -/
theorem lookUp_eq {table : Array (Nat × Category)} {n low high k : Nat} (hlow : low ≤ k)
    (hhigh : k < high) (hbefore : ∀ i ≤ k, beginning table i ≤ n)
    (hafter : ∀ i, k < i → i < high → n < beginning table i) :
    lookUp table n low high = (table[k]?.map Prod.snd).getD Cn := by
  fun_induction lookUp table n low high with
  | case1 low high hlt middle hle ih =>
    refine ih (Nat.le_of_not_lt fun hk => ?_) hhigh hafter
    exact absurd (hafter middle hk (by omega)) (Nat.not_lt.mpr hle)
  | case2 low high hlt middle hgt ih =>
    refine ih hlow (Nat.lt_of_not_le fun hk => hgt (hbefore middle hk)) fun i hi hmiddle => ?_
    exact hafter i hi (by omega)
  | case3 low high hend =>
    obtain rfl : low = k := by omega
    rfl

/-- A number between the beginnings of two neighbours lies in the first of their runs, if the runs
ascend. -/
theorem lookUp_toArray {runs before after : List (Nat × Category)} {run next : Nat × Category}
    {n : Nat} (hsorted : (runs.map Prod.fst).Pairwise (· < ·))
    (hsplit : runs = before ++ run :: next :: after) (hle : run.1 ≤ n) (hlt : n < next.1) :
    lookUp runs.toArray n 0 runs.toArray.size = run.2 := by
  have hbeginning : ∀ i r, runs[i]? = some r → beginning runs.toArray i = r.1 := by
    intro i r hr
    rw [beginning, List.getElem?_toArray, hr]
    rfl
  have hplace : runs[before.length]? = some run := by
    rw [hsplit, List.getElem?_append_right (Nat.le_refl _), Nat.sub_self]
    rfl
  rw [hsplit, List.map_append, List.map_cons, List.map_cons, List.pairwise_append,
    List.pairwise_cons, List.pairwise_cons] at hsorted
  obtain ⟨-, ⟨-, hlater, -⟩, hearlier⟩ := hsorted
  rw [lookUp_eq (k := before.length) (Nat.zero_le _) (by simp [hsplit]) (fun i hi => ?_)
    fun i hi hend => ?_, List.getElem?_toArray, hplace]
  · rfl
  · rcases Nat.lt_or_eq_of_le hi with hi | rfl
    · have hr : runs[i]? = some before[i] := by
        rw [hsplit, List.getElem?_append_left hi, List.getElem?_eq_getElem hi]
      rw [hbeginning i _ hr]
      refine Nat.le_trans (Nat.le_of_lt ?_) hle
      exact hearlier _ (List.mem_map_of_mem (List.getElem_mem hi)) _ List.mem_cons_self
    · rw [hbeginning _ run hplace]
      exact hle
  · obtain ⟨r, hr⟩ : ∃ r, runs[i]? = some r := ⟨_, List.getElem?_eq_getElem hend⟩
    rw [hbeginning i r hr]
    have hlength : (before ++ [run]).length ≤ i := by
      rw [List.length_append, List.length_singleton]
      omega
    rw [hsplit, List.append_cons, List.getElem?_append_right hlength] at hr
    rcases List.mem_cons.mp (List.mem_of_getElem? hr) with rfl | hmem
    · exact hlt
    · exact Nat.lt_trans hlt (hlater _ (List.mem_map_of_mem hmem))

end Category

/-- The strings are spelled by these characters, one after the other. -/
inductive Spelled : List String → List Text → Prop
  | nil : Spelled [] []
  | cons {t : Text} {strings : List String} {ts : List Text} (h : Spelled strings ts) :
      Spelled (String.ofList t :: strings) (t :: ts)

theorem Spelled.map_toList {strings : List String} {ts : List Text} (h : Spelled strings ts) :
    strings.map String.toList = ts := by
  induction h with
  | nil => rfl
  | cons _ ih => rw [List.map_cons, String.toList_ofList, ih]

namespace Text

/-! ### Along the table -/

/-- The entries of a table, row by row. -/
def entries (rows : List Text) : List Text := rows.flatMap (splitWhere (· == ' '))

/-- The runs begin later and later, and later than `n`. -/
def ascendsFrom (n : Nat) : List Text → Bool
  | [] => true
  | e :: r => n < (Category.readRun e).1 && ascendsFrom (Category.readRun e).1 r

/-- The categories of blanks: separators and control characters. -/
def isBlankCategory : Category → Bool
  | .Zs | .Zl | .Zp | .Cc => true
  | _ => false

/-- The ascending numbers lie in runs of blanks. -/
def covers (ns : List Nat) : List Text → Bool
  | [] => ns.isEmpty
  | [_] => ns.isEmpty
  | e :: e' :: r =>
    let here := ns.takeWhile (· < (Category.readRun e').1)
    here.all (fun n => (Category.readRun e).1 ≤ n && isBlankCategory (Category.readRun e).2) &&
      covers (ns.dropWhile (· < (Category.readRun e').1)) (e' :: r)

theorem pairwise_of_ascendsFrom {n : Nat} {es : List Text} (h : ascendsFrom n es = true) :
    (n :: es.map fun e => (Category.readRun e).1).Pairwise (· < ·) := by
  induction es generalizing n with
  | nil => exact List.pairwise_singleton _ _
  | cons e r ih =>
    rw [ascendsFrom, Bool.and_eq_true, decide_eq_true_eq] at h
    have hrest := ih h.2
    rw [List.map_cons]
    refine .cons (fun m hm => ?_) hrest
    rcases List.mem_cons.mp hm with rfl | hm
    · exact h.1
    · exact Nat.lt_trans h.1 (List.rel_of_pairwise_cons hrest hm)

/-- A number that is covered lies between the beginnings of two neighbours. -/
theorem exists_of_covers {ns : List Nat} {es : List Text} (h : covers ns es = true) {n : Nat}
    (hn : n ∈ ns) : ∃ before e e' after, es = before ++ e :: e' :: after ∧
      (Category.readRun e).1 ≤ n ∧ n < (Category.readRun e').1 ∧
        isBlankCategory (Category.readRun e).2 = true := by
  fun_induction covers ns es with
  | case1 ns =>
    rw [List.isEmpty_iff.mp h] at hn
    exact absurd hn List.not_mem_nil
  | case2 ns e =>
    rw [List.isEmpty_iff.mp h] at hn
    exact absurd hn List.not_mem_nil
  | case3 ns e e' r here ih =>
    obtain ⟨hhere, hlater⟩ := (Bool.and_eq_true _ _).mp h
    rw [← List.takeWhile_append_dropWhile (p := (· < (Category.readRun e').1)) (l := ns)] at hn
    rcases List.mem_append.mp hn with hn | hn
    · have hlt := of_decide_eq_true ((List.all_eq_true.mp List.all_takeWhile) n hn)
      have hand := List.all_eq_true.mp hhere n hn
      rw [Bool.and_eq_true, decide_eq_true_eq] at hand
      exact ⟨[], e, e', r, rfl, hand.1, hlt, hand.2⟩
    · obtain ⟨before, f, f', after, heq, hf⟩ := ih hlater hn
      exact ⟨e :: before, f, f', after, by rw [heq]; rfl, hf⟩

/-- The blanks that are no ASCII characters. -/
def wideBlanks : List Nat :=
  [0x85, 0xA0, 0x1680, 0x2000, 0x2001, 0x2002, 0x2003, 0x2004, 0x2005, 0x2006, 0x2007, 0x2008,
    0x2009, 0x200A, 0x2028, 0x2029, 0x202F, 0x205F, 0x3000]

theorem mem_wideBlanks {c : Char} (h : isBlank c = true) (hwide : ¬ c.toNat < 128) :
    c.toNat ∈ wideBlanks := by
  simp only [isBlank, Bool.or_eq_true, Bool.and_eq_true, decide_eq_true_eq, beq_iff_eq] at h
  simp only [wideBlanks, List.mem_cons, List.not_mem_nil, or_false]
  omega

-- The rows are taken apart one by one, as strings are hard to compute with.
set_option maxRecDepth 10000 in
theorem exists_spelled_categoryTable : ∃ rows, Spelled categoryTable rows ∧
    ((entries rows).head?.map fun e => (Category.readRun e).1) = some 0 ∧
      ascendsFrom 0 (entries rows).tail = true ∧ covers wideBlanks (entries rows) = true := by
  apply Exists.intro
  apply And.intro
  · unfold categoryTable
    dsimp only
    repeat apply Spelled.cons
    apply Spelled.nil
  · decide +kernel

theorem exists_spelled_otherAlphabeticTable : ∃ rows, Spelled otherAlphabeticTable rows ∧
    (wideBlanks.all fun n => !inRanges n ((entries rows).map readRange)) = true := by
  apply Exists.intro
  apply And.intro
  · unfold otherAlphabeticTable
    repeat apply Spelled.cons
    apply Spelled.nil
  · decide +kernel

theorem flatMap_splitWhere {strings : List String} {rows : List Text} (h : Spelled strings rows) :
    (strings.flatMap fun row => splitWhere (· == ' ') row.toList) = entries rows := by
  rw [entries, ← h.map_toList, List.flatMap_map]

/-! ### Blanks and letters -/

theorem isBlankCategory_of {c : Char} (hc : c.toNat ∈ wideBlanks) :
    isBlankCategory (Category.of c) = true := by
  obtain ⟨rows, hrows, hfirst, hascends, hcovers⟩ := exists_spelled_categoryTable
  obtain ⟨before, e, e', after, hsplit, hle, hlt, hblank⟩ := exists_of_covers hcovers hc
  have hsorted : (((entries rows).map Category.readRun).map Prod.fst).Pairwise (· < ·) := by
    obtain ⟨first, hhead, hzero⟩ := Option.map_eq_some_iff.mp hfirst
    obtain ⟨rest, hcons⟩ := List.head?_eq_some_iff.mp hhead
    rw [hcons] at hascends ⊢
    rw [List.map_cons, List.map_cons, hzero, List.map_map]
    exact pairwise_of_ascendsFrom hascends
  have hruns : (entries rows).map Category.readRun = before.map Category.readRun ++
      Category.readRun e :: Category.readRun e' :: after.map Category.readRun := by
    rw [hsplit, List.map_append, List.map_cons, List.map_cons]
  rw [Category.of, Category.runs, flatMap_splitWhere hrows,
    Category.lookUp_toArray hsorted hruns hle hlt]
  exact hblank

theorem not_isAlphabetic_of_mem_wideBlanks {c : Char} (hc : c.toNat ∈ wideBlanks)
    (hwide : ¬ c.toNat < 128) : isAlphabetic c = false := by
  obtain ⟨rows, hrows, hother⟩ := exists_spelled_otherAlphabeticTable
  have hranges : inRanges c.toNat otherAlphabetic = false := by
    rw [otherAlphabetic, flatMap_splitWhere hrows]
    exact Bool.not_eq_true' _ ▸ List.all_eq_true.mp hother _ hc
  have hblank := isBlankCategory_of hc
  rw [isAlphabetic, if_neg hwide]
  dsimp only
  rw [hranges]
  revert hblank
  cases Category.of c <;> decide

theorem toNat_of_isDigit {c : Char} (h : c.isDigit = true) : 48 ≤ c.toNat ∧ c.toNat ≤ 57 := by
  obtain ⟨hlow, hhigh⟩ := Bool.and_eq_true_iff.mp h
  exact ⟨of_decide_eq_true hlow, of_decide_eq_true hhigh⟩

theorem toNat_of_isAlphanum {c : Char} (h : c.isAlphanum = true) :
    (65 ≤ c.toNat ∧ c.toNat ≤ 90) ∨ (97 ≤ c.toNat ∧ c.toNat ≤ 122) ∨
      (48 ≤ c.toNat ∧ c.toNat ≤ 57) := by
  rcases Bool.or_eq_true_iff.mp h with hletter | hdigit
  · rcases Bool.or_eq_true_iff.mp hletter with hupper | hlower
    · exact .inl (of_decide_eq_true hupper)
    · obtain ⟨hlow, hhigh⟩ := Bool.and_eq_true_iff.mp hlower
      exact .inr (.inl ⟨of_decide_eq_true hlow, of_decide_eq_true hhigh⟩)
  · exact .inr (.inr (toNat_of_isDigit hdigit))

/-- **Letters and numbers are no blanks.** -/
theorem not_blank_of_isAlphanumeric {c : Char} (h : isAlphanumeric c = true) :
    isBlank c = false := by
  refine Bool.eq_false_iff.mpr fun hblank => ?_
  by_cases hascii : c.toNat < 128
  · rw [isAlphanumeric, if_pos hascii] at h
    have hrange := toNat_of_isAlphanum h
    simp only [isBlank, Bool.or_eq_true, Bool.and_eq_true, decide_eq_true_eq, beq_iff_eq] at hblank
    omega
  · have hc := mem_wideBlanks hblank hascii
    have hcategory := isBlankCategory_of hc
    rw [isAlphanumeric, if_neg hascii, not_isAlphabetic_of_mem_wideBlanks hc hascii,
      Bool.false_or] at h
    revert hcategory h
    cases Category.of c <;> decide

theorem not_blank_of_isDigit {c : Char} (h : c.isDigit = true) : isBlank c = false := by
  have hrange := toNat_of_isDigit h
  refine not_blank_of_isAlphanumeric ?_
  rw [isAlphanumeric, if_pos (by omega)]
  exact Bool.or_eq_true_iff.mpr (.inr h)

end Text
end CosmeticFilter
