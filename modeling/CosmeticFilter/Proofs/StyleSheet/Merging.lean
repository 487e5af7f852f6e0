import CosmeticFilter.StyleSheet.Compiler
import Mathlib.Data.List.Nodup
import Mathlib.Data.List.Perm.Basic

/-!
# Merging is grouping by selector

The entries of a style sheet and the declarations of an entry are kept in the same way, in a list
with one element for each key: an element whose key is there is extended in its place, and a new key
goes to the end. After any run of insertions the keys stand in the order in which they first came,
and what is kept for a key depends on nothing but the insertions with that key. From this follows
what a style sheet says about a selector, in terms of the rules that have this selector.

* `InsertsByKey`: what both insertions do;
* `InsertsByKey.map_key_foldl`, `InsertsByKey.find?_foldl`: the order of the keys, and what is kept
  for a key;
* `rulesOf`, `declared`, `lastOf?`, `effective`: the rules of a selector, and what they declare;
* `Summarizes`: what rules with one selector come to;
* `Compiler.finish_groups`: the merged rules.
-/

namespace CosmeticFilter
namespace StyleSheet

/-! ### Lists with one element for each key -/

theorem nodup_eraseDups {κ : Type} [BEq κ] [LawfulBEq κ] : ∀ l : List κ, l.eraseDups.Nodup
  | [] => List.nodup_nil
  | a :: r => by
    rw [List.eraseDups_cons, List.nodup_cons, List.mem_eraseDups]
    exact ⟨by simp, nodup_eraseDups _⟩
termination_by l => l.length
decreasing_by exact Nat.lt_succ_of_le (List.length_filter_le _ _)

theorem filter_eq_toList_find? {α κ : Type} [BEq κ] [LawfulBEq κ] {key : α → κ} {l : List α}
    (h : (l.map key).Nodup) (k : κ) :
    l.filter (fun a => key a == k) = (l.find? fun a => key a == k).toList := by
  induction l with
  | nil => rfl
  | cons a r ih =>
    obtain ⟨ha, hr⟩ := List.nodup_cons.mp h
    by_cases hkey : key a = k
    · have hnone : r.filter (fun c => key c == k) = [] := by
        rw [List.filter_eq_nil_iff]
        intro c hc hck
        exact ha (List.mem_map.mpr ⟨c, hc, (beq_iff_eq.mp hck).trans hkey.symm⟩)
      rw [List.filter_cons_of_pos (by simpa using hkey),
        List.find?_cons_of_pos (by simpa using hkey), hnone]
      rfl
    · rw [List.filter_cons_of_neg (by simpa using hkey),
        List.find?_cons_of_neg (by simpa using hkey), ih hr]

theorem mem_iff_find?_eq_some {α κ : Type} [BEq κ] [LawfulBEq κ] (key : α → κ) {l : List α}
    (h : (l.map key).Nodup) {a : α} : a ∈ l ↔ l.find? (fun c => key c == key a) = some a := by
  rw [← Option.mem_toList.trans Option.mem_def, ← filter_eq_toList_find? h, List.mem_filter]
  simp

/-- Induction over a list, one key after the other. -/
theorem induction_on_keys {β κ : Type} [BEq κ] {P : List β → Prop} (keyOf : β → κ) (nil : P [])
    (cons : ∀ b bs, P (bs.filter fun c => !keyOf c == keyOf b) → P (b :: bs)) : ∀ bs, P bs
  | [] => nil
  | b :: bs => cons b bs (induction_on_keys keyOf nil cons _)
termination_by bs => bs.length
decreasing_by exact Nat.lt_succ_of_le (List.length_filter_le _ _)

/-- What comes of insertions with the same key. -/
def collect {α β : Type} (new : β → α) (extend : α → β → α) : List β → Option α
  | [] => none
  | b :: r => some (r.foldl extend (new b))

/-- Insertions into a list with one element for each key. -/
structure InsertsByKey {α β κ : Type} [BEq κ] (insert : β → List α → List α) (key : α → κ)
    (keyOf : β → κ) (new : β → α) (extend : α → β → α) : Prop where
  /-- A new key goes to the end. -/
  insert_nil (b : β) : insert b [] = [new b]
  /-- A key that is there keeps its place. -/
  insert_cons (b : β) (a : α) (r : List α) :
    insert b (a :: r) = if key a == keyOf b then extend a b :: r else a :: insert b r
  key_new (b : β) : key (new b) = keyOf b
  key_extend (a : α) (b : β) : key a = keyOf b → key (extend a b) = key a

namespace InsertsByKey

variable {α β κ : Type} [BEq κ] [LawfulBEq κ] {insert : β → List α → List α} {key : α → κ}
  {keyOf : β → κ} {new : β → α} {extend : α → β → α}

/-- The first element collects what has its key, and everything else passes it. -/
theorem foldl_cons (h : InsertsByKey insert key keyOf new extend) (bs : List β) (a : α)
    (r : List α) :
    bs.foldl (fun l b => insert b l) (a :: r) =
      (bs.filter fun b => keyOf b == key a).foldl extend a ::
        (bs.filter fun b => !keyOf b == key a).foldl (fun l b => insert b l) r := by
  induction bs generalizing a r with
  | nil => rfl
  | cons b bs ih =>
    rw [List.foldl_cons, h.insert_cons]
    by_cases hkey : key a = keyOf b
    · rw [if_pos (beq_iff_eq.mpr hkey), ih, h.key_extend a b hkey,
        List.filter_cons_of_pos (by simp [hkey]), List.filter_cons_of_neg (by simp [hkey]),
        List.foldl_cons]
    · rw [if_neg (by simpa using hkey), ih, List.filter_cons_of_neg (by simp [Ne.symm hkey]),
        List.filter_cons_of_pos (by simp [Ne.symm hkey]), List.foldl_cons]

theorem foldl_nil_cons (h : InsertsByKey insert key keyOf new extend) (b : β) (bs : List β) :
    (b :: bs).foldl (fun l b => insert b l) [] =
      (bs.filter fun c => keyOf c == keyOf b).foldl extend (new b) ::
        (bs.filter fun c => !keyOf c == keyOf b).foldl (fun l b => insert b l) [] := by
  rw [List.foldl_cons, h.insert_nil, h.foldl_cons, h.key_new]

theorem key_foldl_extend (h : InsertsByKey insert key keyOf new extend) (bs : List β) (a : α) :
    key ((bs.filter fun b => keyOf b == key a).foldl extend a) = key a := by
  induction bs generalizing a with
  | nil => rfl
  | cons b bs ih =>
    by_cases hkey : keyOf b = key a
    · have hextend := ih (extend a b)
      rw [h.key_extend a b hkey.symm] at hextend
      rw [List.filter_cons_of_pos (by simpa using hkey), List.foldl_cons, hextend]
    · rw [List.filter_cons_of_neg (by simpa using hkey), ih]

theorem key_first (h : InsertsByKey insert key keyOf new extend) (b : β) (bs : List β) :
    key ((bs.filter fun c => keyOf c == keyOf b).foldl extend (new b)) = keyOf b := by
  have hnew := h.key_foldl_extend bs (new b)
  rwa [h.key_new] at hnew

/-- The keys stand in the order in which they first came. -/
theorem map_key_foldl (h : InsertsByKey insert key keyOf new extend) (bs : List β) :
    (bs.foldl (fun l b => insert b l) []).map key = (bs.map keyOf).eraseDups := by
  induction bs using induction_on_keys keyOf with
  | nil => rfl
  | cons b bs ih =>
    rw [h.foldl_nil_cons, List.map_cons, List.map_cons, List.eraseDups_cons, h.key_first, ih,
      List.filter_map]
    rfl

/-- What is kept for a key comes from the insertions with this key. -/
theorem find?_foldl (h : InsertsByKey insert key keyOf new extend) (k : κ) (bs : List β) :
    (bs.foldl (fun l b => insert b l) []).find? (fun a => key a == k) =
      collect new extend (bs.filter fun b => keyOf b == k) := by
  induction bs using induction_on_keys keyOf with
  | nil => rfl
  | cons b bs ih =>
    rw [h.foldl_nil_cons]
    by_cases hkey : keyOf b = k
    · rw [List.find?_cons_of_pos (by rw [h.key_first, beq_iff_eq, hkey]),
        List.filter_cons_of_pos (by rw [beq_iff_eq, hkey]), hkey, collect]
    · have hothers : ((bs.filter fun c => !keyOf c == keyOf b).filter fun c => keyOf c == k) =
          bs.filter fun c => keyOf c == k := by
        rw [List.filter_filter]
        refine List.filter_congr fun c _ => ?_
        by_cases hc : keyOf c = k
        · simp [hc, Ne.symm hkey]
        · simp [hc]
      rw [List.find?_cons_of_neg (by rw [h.key_first, beq_iff_eq]; exact hkey), ih, hothers,
        List.filter_cons_of_neg (by rw [beq_iff_eq]; exact hkey)]

theorem nodup_map_key_foldl (h : InsertsByKey insert key keyOf new extend) (bs : List β) :
    ((bs.foldl (fun l b => insert b l) []).map key).Nodup := by
  rw [h.map_key_foldl]
  exact nodup_eraseDups _

/-- The list is put together from its keys and what is kept for each. -/
theorem foldl_eq_filterMap (h : InsertsByKey insert key keyOf new extend) (bs : List β) :
    bs.foldl (fun l b => insert b l) [] =
      (bs.map keyOf).eraseDups.filterMap fun k =>
        (bs.foldl (fun l b => insert b l) []).find? fun a => key a == k := by
  rw [← h.map_key_foldl, List.filterMap_map, List.filterMap_congr (g := some), List.filterMap_some]
  exact fun a ha => (mem_iff_find?_eq_some key (h.nodup_map_key_foldl bs)).mp ha

end InsertsByKey

/-! ### Declarations -/

theorem insertsByKey_setProperty :
    InsertsByKey setProperty Declaration.property Declaration.property id fun _ d => d where
  insert_nil _ := rfl
  insert_cons b a r := by simp only [setProperty, beq_iff_eq]
  key_new _ := rfl
  key_extend _ _ h := h.symm

/-- What is declared last for a property. -/
def lastOf? (property : Text) (ds : List Declaration) : Option Declaration :=
  (ds.filter fun d => d.property == property).getLast?

/-- What is declared last for each property, in the order of the first declarations. -/
def effective (ds : List Declaration) : List Declaration :=
  (ds.map Declaration.property).eraseDups.filterMap fun p => lastOf? p ds

theorem find?_setProperties (property : Text) (ds : List Declaration) :
    (setProperties [] ds).find? (fun d => d.property == property) = lastOf? property ds := by
  have hlast : ∀ (d : Declaration) (r : List Declaration),
      r.foldl (fun _ d => d) d = r.getLast?.getD d := by
    intro d r
    induction r generalizing d with
    | nil => rfl
    | cons e r ih => rw [List.foldl_cons, ih, List.getLast?_cons, Option.getD_some]
  rw [setProperties, insertsByKey_setProperty.find?_foldl, lastOf?]
  cases ds.filter fun d => d.property == property with
  | nil => rfl
  | cons d r => rw [List.getLast?_cons, ← hlast]; rfl

theorem setProperties_nil (ds : List Declaration) : setProperties [] ds = effective ds := by
  rw [effective, setProperties, insertsByKey_setProperty.foldl_eq_filterMap]
  exact List.filterMap_congr fun p _ => find?_setProperties p ds

theorem find?_effective (property : Text) (ds : List Declaration) :
    (effective ds).find? (fun d => d.property == property) = lastOf? property ds := by
  rw [← setProperties_nil, find?_setProperties]

/-- No property is kept twice. -/
theorem filter_effective (property : Text) (ds : List Declaration) :
    (effective ds).filter (fun d => d.property == property) = (lastOf? property ds).toList := by
  rw [← find?_effective, ← setProperties_nil]
  exact filter_eq_toList_find? (insertsByKey_setProperty.nodup_map_key_foldl ds) property

/-! ### The rules of a selector -/

/-- The rules of a selector. -/
def rulesOf (selector : Text) (rules : List Rule) : List Rule :=
  rules.filter fun r => r.selector == selector

/-- What rules declare, one rule after the other. -/
def declared (rules : List Rule) : List Declaration := rules.flatMap Rule.declarations

/-- Rules of different selectors may change places: each selector keeps its rules. -/
theorem rulesOf_swap {r r' : Rule} (h : r.selector ≠ r'.selector) (before after : List Rule)
    (selector : Text) :
    rulesOf selector (before ++ r :: r' :: after) =
      rulesOf selector (before ++ r' :: r :: after) := by
  simp only [rulesOf, List.filter_append, List.filter_cons]
  by_cases hr : r.selector = selector
  · simp [hr, show r'.selector ≠ selector from fun hr' => h (hr.trans hr'.symm)]
  · simp [hr]

theorem insertsByKey_add :
    InsertsByKey add Entry.selector Rule.selector Entry.ofRule Entry.extend where
  insert_nil _ := rfl
  insert_cons b a r := by simp only [add, beq_iff_eq]
  key_new _ := rfl
  key_extend _ _ _ := rfl

theorem foldl_extend (rules : List Rule) (e : Entry) :
    rules.foldl Entry.extend e =
      ⟨e.selector, e.tree, setProperties e.declarations (declared rules),
        e.isRemoval || rules.any Rule.isRemoval⟩ := by
  induction rules generalizing e with
  | nil => simp [declared, setProperties]
  | cons r rules ih =>
    rw [List.foldl_cons, ih]
    simp [Entry.extend, declared, setProperties, Bool.or_assoc]

/-- The entry of a rule and of later ones with its selector. -/
theorem foldl_extend_ofRule (r : Rule) (rules : List Rule) :
    rules.foldl Entry.extend (.ofRule r) =
      ⟨r.selector, r.tree, effective (declared (r :: rules)), (r :: rules).any Rule.isRemoval⟩ := by
  rw [foldl_extend, ← setProperties_nil]
  simp [Entry.ofRule, declared, setProperties]

/-- Rules with one selector remove what it finds: one of them has the mark, or the last value of
`remove` says so. -/
def Removes (rules : List Rule) : Prop :=
  (∃ r ∈ rules, r.isRemoval = true) ∨
    ∃ d, lastOf? "remove".toList (declared rules) = some d ∧ Text.trim d.value = "true".toList

/-- The declarations that style what a selector finds. -/
def styleOf (rules : List Rule) : List Declaration :=
  (effective (declared rules)).filter fun d =>
    d.property != "remove".toList && d.property != "debug".toList

/-- What is said about a selector is that its elements are removed. -/
def RuleData.IsRemoval (d : RuleData) : Prop :=
  ∃ style, d.style = some style ∧ "remove".toList ∈ style.map Declaration.property

/-- What rules with one selector come to. -/
structure Summarizes (options : Options) (rules : List Rule) (d : RuleData) : Prop where
  /-- The selector is kept as the first rule has it. -/
  tree : rules.head?.map Rule.tree = some d.tree
  isRemoval_iff : d.IsRemoval ↔ Removes rules
  /-- A removal discards all properties, apart from `content` if that is asked for. -/
  style_of_removes : Removes rules → d.style = some (⟨"remove".toList, "true".toList⟩ ::
    if options.keepsContent then (lastOf? "content".toList (declared rules)).toList else [])
  /-- Otherwise each property has the place of its first declaration and the value of its last. -/
  style_of_not_removes : ¬ Removes rules →
    d.style = if styleOf rules = [] then none else some (styleOf rules)
  /-- The last value of `debug` counts. -/
  debug : d.debug = (lastOf? "debug".toList (declared rules)).bind fun x => debugOf? x.value

/-! ### What the entries come to -/

theorem Entry.removes_iff (e : Entry) :
    e.removes = true ↔ e.isRemoval = true ∨
      ∃ v, valueOf? e.declarations "remove".toList = some v ∧ Text.trim v = "true".toList := by
  rw [removes, Bool.or_eq_true]
  cases valueOf? e.declarations "remove".toList with
  | none => simp
  | some v => simp

theorem Entry.plainStyle_eq_filter (e : Entry) :
    e.plainStyle = e.declarations.filter fun d =>
      d.property != "remove".toList && d.property != "debug".toList := by
  rw [plainStyle, without, without, List.filter_filter]

/-- Only a removal has the property `remove`. -/
theorem Entry.isRemoval_finish_iff (options : Options) (e : Entry) :
    (e.finish options).IsRemoval ↔ e.removes = true := by
  constructor
  · rintro ⟨style, hstyle, hmem⟩
    by_contra hremoves
    rw [finish] at hstyle
    simp only [if_neg hremoves] at hstyle
    split_ifs at hstyle with hempty
    obtain rfl := Option.some_inj.mp hstyle
    rw [plainStyle_eq_filter, List.mem_map] at hmem
    obtain ⟨d, hd, hproperty⟩ := hmem
    rw [List.mem_filter, hproperty] at hd
    exact absurd hd.2 (by simp)
  · intro hremoves
    refine ⟨e.removalStyle options, ?_, ?_⟩
    · rw [finish]
      simp only [if_pos hremoves]
    · rw [removalStyle]
      exact List.mem_cons_self

/-- The declarations of all rules with the selector, taken together, decide. -/
theorem summarizes_entry (options : Options) (r : Rule) (rules : List Rule) :
    Summarizes options (r :: rules) ((rules.foldl Entry.extend (.ofRule r)).finish options) := by
  rw [foldl_extend_ofRule]
  generalize he : Entry.mk r.selector r.tree (effective (declared (r :: rules)))
    ((r :: rules).any Rule.isRemoval) = e
  have hdeclarations : e.declarations = effective (declared (r :: rules)) := by rw [← he]
  have hvalue : ∀ p, valueOf? e.declarations p =
      (lastOf? p (declared (r :: rules))).map Declaration.value := fun p => by
    rw [valueOf?, hdeclarations, find?_effective]
  have hremoves : e.removes = true ↔ Removes (r :: rules) := by
    rw [e.removes_iff, hvalue, Removes, ← he, List.any_eq_true]
    simp only [Option.map_eq_some_iff, exists_exists_and_eq_and]
  have hplain : e.plainStyle = styleOf (r :: rules) := by
    rw [e.plainStyle_eq_filter, hdeclarations, styleOf]
  refine ⟨by rw [← he]; rfl, (e.isRemoval_finish_iff options).trans hremoves, ?_, ?_, ?_⟩
  · intro h
    rw [Entry.finish]
    simp only [if_pos (hremoves.mpr h), Entry.removalStyle, hdeclarations, filter_effective]
  · intro h
    rw [Entry.finish]
    simp only [if_neg (hremoves.not.mpr h), hplain, List.isEmpty_iff]
  · rw [Entry.finish]
    simp only [hvalue, Option.bind_map]
    rfl

/-! ### What the style sheet comes to -/

theorem find?_merge (selector : Text) (rules : List Rule) :
    (merge rules).find? (fun e => e.selector == selector) =
      collect Entry.ofRule Entry.extend (rulesOf selector rules) :=
  insertsByKey_add.find?_foldl selector rules

/-- What is said about a selector. -/
def Compiled.find? (c : Compiled) (selector : Text) : Option RuleData :=
  c.rules.find? fun d => d.selector == selector

namespace Compiler

theorem find?_finish (options : Options) (rules : List Rule) (warnings : List Text)
    (selector : Text) :
    (finish options rules warnings).find? selector =
      ((merge rules).find? fun e => e.selector == selector).map (Entry.finish options) := by
  rw [Compiled.find?, finish, List.find?_map]
  rfl

theorem map_selector_finish (options : Options) (rules : List Rule) (warnings : List Text) :
    (finish options rules warnings).rules.map RuleData.selector =
      (rules.map Rule.selector).eraseDups := by
  rw [← insertsByKey_add.map_key_foldl, ← merge, finish, List.map_map]
  rfl

theorem mem_finish_iff {options : Options} {rules : List Rule} {warnings : List Text}
    {d : RuleData} :
    d ∈ (finish options rules warnings).rules ↔
      (finish options rules warnings).find? d.selector = some d := by
  refine mem_iff_find?_eq_some RuleData.selector ?_
  rw [map_selector_finish]
  exact nodup_eraseDups _

/-- Merging groups the rules by their selectors. The selectors stand in the order in which they
first came; what is said about one depends on the rules that have it, and sums them up. So rules of
different selectors may change places. -/
theorem finish_groups (options : Options) (rules : List Rule) (warnings : List Text) :
    (finish options rules warnings).rules.map RuleData.selector =
        (rules.map Rule.selector).eraseDups ∧
      (∀ d ∈ (finish options rules warnings).rules,
        Summarizes options (rulesOf d.selector rules) d) ∧
      (∀ rules' warnings' selector, rulesOf selector rules' = rulesOf selector rules →
        (finish options rules' warnings').find? selector =
          (finish options rules warnings).find? selector) ∧
      ∀ rules' warnings', (∀ selector, rulesOf selector rules' = rulesOf selector rules) →
        (finish options rules' warnings').rules.Perm (finish options rules warnings).rules ∧
        (finish options rules' warnings').debugsAll =
          (finish options rules warnings).debugsAll := by
  have hgroup : ∀ rules' warnings' selector, rulesOf selector rules' = rulesOf selector rules →
      (finish options rules' warnings').find? selector =
        (finish options rules warnings).find? selector := by
    intro rules' warnings' selector h
    rw [find?_finish, find?_finish, find?_merge, find?_merge, h]
  refine ⟨map_selector_finish .., ?_, hgroup, ?_⟩
  · intro d hd
    rw [mem_finish_iff, find?_finish, find?_merge] at hd
    cases hrules : rulesOf d.selector rules with
    | nil => rw [hrules] at hd; exact absurd hd (by simp [collect])
    | cons r later =>
      rw [hrules] at hd
      obtain rfl := Option.some_inj.mp hd
      exact summarizes_entry options r later
  · intro rules' warnings' h
    have hperm : (finish options rules' warnings').rules.Perm
        (finish options rules warnings).rules := by
      refine (List.perm_ext_iff_of_nodup ?_ ?_).mpr fun d => ?_
      · exact .of_map RuleData.selector (by rw [map_selector_finish]; exact nodup_eraseDups _)
      · exact .of_map RuleData.selector (by rw [map_selector_finish]; exact nodup_eraseDups _)
      · rw [mem_finish_iff, mem_finish_iff, hgroup rules' warnings' _ (h _)]
    exact ⟨hperm, hperm.any_eq⟩

/-- A rule for `.b` that comes between two for `.a` is put after them, and takes nothing away. -/
theorem finish_groups_of_interleaved :
    let first : Rule := ⟨".a".toList, ⟨[[.fragment ".a".toList]]⟩,
      [⟨"color".toList, "red".toList⟩, ⟨"margin".toList, "0".toList⟩], false⟩
    let last : Rule := ⟨".a".toList, ⟨[[.fragment ".a".toList]]⟩,
      [⟨"color".toList, "blue".toList⟩], false⟩
    let other : Rule := ⟨".b".toList, ⟨[[.fragment ".b".toList]]⟩,
      [⟨"remove".toList, " true".toList⟩], false⟩
    (∀ selector, rulesOf selector [first, last, other] = rulesOf selector [first, other, last]) ∧
      (finish .default [first, last, other] []).rules.Perm
        (finish .default [first, other, last] []).rules ∧
      (finish .default [first, other, last] []).rules =
        [⟨".a".toList, ⟨[[.fragment ".a".toList]]⟩,
            some [⟨"color".toList, "blue".toList⟩, ⟨"margin".toList, "0".toList⟩], none⟩,
          ⟨".b".toList, ⟨[[.fragment ".b".toList]]⟩,
            some [⟨"remove".toList, "true".toList⟩], none⟩] := by
  intro first last other
  have hgroups : ∀ selector,
      rulesOf selector [first, last, other] = rulesOf selector [first, other, last] :=
    rulesOf_swap (by decide) [first] []
  exact ⟨hgroups,
    ((finish_groups .default [first, other, last] []).2.2.2 [first, last, other] [] hgroups).1,
    by decide⟩

end Compiler
end StyleSheet
end CosmeticFilter
