import CosmeticFilter.Condition.Property
import CosmeticFilter.Text.Outcome
import Mathlib.Data.List.Forall2

/-!
# Paths through properties

A condition on properties holds if there is a path of names through nested objects and arrays, one
name for each pattern of the chain, to a value that fits. The values are looked up level by level:
what is found at one level is all that can be reached by names that fit so far, and a search that
finds nothing stops.

* `HasEntry`, `Leads`: one name further, and a path of names;
* `HasText`: the values that are compared, and as which text;
* `mem_follow_iff`: what is found lies at the ends of the paths whose names fit;
* `isMatch_iff_leads`: the condition holds if such a path exists;
* `isMatch_eq_false_of_hasText`: no path goes on from a value without names in it;
* `chain_ne_nil_of_ofText`: a chain that has been read is not empty.
-/

namespace CosmeticFilter
namespace PropertyPattern

/-! ### Paths -/

/-- A value stands in another one under a name: a field of an object under its own, an item of an
array under its place. -/
inductive HasEntry : Json → Text → Json → Prop where
  /-- A field. -/
  | field {fields : List (Text × Json)} {name : Text} {v : Json} (h : (name, v) ∈ fields) :
    HasEntry (.object fields) name v
  /-- An item. -/
  | item {items : List Json} {i : Nat} {v : Json} (h : items[i]? = some v) :
    HasEntry (.array items) (Text.ofNat i) v

/-- Names lead from a value to one inside it, each to the next. -/
inductive Leads : Json → List Text → Json → Prop where
  /-- To the value itself. -/
  | nil (v : Json) : Leads v [] v
  /-- One name further. -/
  | cons {u v w : Json} {name : Text} {names : List Text} (h : HasEntry u name v)
    (hnames : Leads v names w) : Leads u (name :: names) w

/-- A value is compared as a text. Objects and arrays are not compared. -/
inductive HasText : Json → Text → Prop where
  /-- Null, as a word. -/
  | null : HasText .null "null".toList
  /-- The truth value `true`, as a word. -/
  | true : HasText (.bool true) "true".toList
  /-- The truth value `false`, as a word. -/
  | false : HasText (.bool false) "false".toList
  /-- A whole number. -/
  | int (n : Int) : HasText (.int n) (Text.ofInt n)
  /-- Any other number, as it is printed. -/
  | float (x : Float) : HasText (.float x) (Double.write Json.number x)
  /-- A string, without quotes. -/
  | string (t : Text) : HasText (.string t) t

/-- The name fits the pattern. -/
def Fits (p : Pattern) (name : Text) : Prop := p.isMatch name = true

variable {p q : Pattern} {ps : List Pattern} {u v w : Json} {values : List Json} {name t : Text}
  {names : List Text}

theorem scalar?_eq_some_iff : scalar? v = some t ↔ HasText v t := by
  constructor
  · intro h
    cases v with
    | bool b => cases b <;> (cases h; constructor)
    | array | object => cases h
    | _ => cases h; constructor
  · intro h
    cases h <;> rfl

/-! ### One level further -/

theorem mem_entries_iff : (name, w) ∈ entries v ↔ HasEntry v name w := by
  constructor
  · intro h
    cases v with
    | object fields => exact .field h
    | array items =>
      obtain ⟨i, hi, heq⟩ := List.mem_mapIdx.mp h
      obtain ⟨rfl, rfl⟩ := Prod.mk.inj heq
      exact .item (List.getElem?_eq_getElem hi)
    | _ => cases h
  · rintro (h | h)
    · exact h
    · obtain ⟨hi, rfl⟩ := List.getElem?_eq_some_iff.mp h
      exact List.mem_mapIdx.mpr ⟨_, hi, rfl⟩

theorem entries_eq_nil_of_hasText (h : HasText v t) : entries v = [] := by
  cases h <;> rfl

theorem mem_fitting_iff {named : List (Text × Json)} :
    w ∈ fitting p named ↔ ∃ name, (name, w) ∈ named ∧ Fits p name := by
  simp [fitting, Fits]

/-! ### Level by level -/

/-- A search that has found nothing finds nothing. -/
theorem follow_nil (ps : List Pattern) : follow [] ps = [] := by
  cases ps <;> rfl

/-- A search that stops would have gone on in vain. -/
theorem follow_cons (values : List Json) (p : Pattern) (ps : List Pattern) :
    follow values (p :: ps) = follow (fitting p (values.flatMap entries)) ps := by
  rw [follow]
  split_ifs with h
  · rw [List.isEmpty_iff.mp h, follow_nil]
  · rfl

theorem follow_append (values : List Json) (ps qs : List Pattern) :
    follow values (ps ++ qs) = follow (follow values ps) qs := by
  induction ps generalizing values with
  | nil => rfl
  | cons p ps ih => rw [List.cons_append, follow_cons, follow_cons, ih]

/-- **What is found** lies at the ends of the paths whose names fit. -/
theorem mem_follow_iff :
    w ∈ follow values ps ↔ ∃ v ∈ values, ∃ names, Leads v names w ∧ List.Forall₂ Fits ps names := by
  induction ps generalizing values with
  | nil =>
    constructor
    · exact fun h => ⟨w, h, [], .nil w, .nil⟩
    · rintro ⟨v, hv, names, hleads, hfits⟩
      cases hfits
      cases hleads
      exact hv
  | cons p ps ih =>
    rw [follow_cons, ih]
    constructor
    · rintro ⟨u, hu, names, hleads, hfits⟩
      obtain ⟨name, hentry, hname⟩ := mem_fitting_iff.mp hu
      obtain ⟨v, hv, hentry⟩ := List.mem_flatMap.mp hentry
      exact ⟨v, hv, name :: names, .cons (mem_entries_iff.mp hentry) hleads, .cons hname hfits⟩
    · rintro ⟨v, hv, names, hleads, hfits⟩
      cases hfits with
      | cons hname hfits =>
        cases hleads with
        | cons hentry hleads =>
          have hmem := List.mem_flatMap.mpr ⟨v, hv, mem_entries_iff.mpr hentry⟩
          exact ⟨_, mem_fitting_iff.mpr ⟨_, hmem, hname⟩, _, hleads, hfits⟩

/-! ### Conditions -/

/-- The value at the end is as the condition wants it. -/
def Accepts (value : Option Pattern) (v : Json) : Prop :=
  ∀ q ∈ value, ∃ t, HasText v t ∧ q.isMatch t = true

variable {c : PropertyPattern} {properties : List (Text × Json)}

theorem any_filterMap_scalar?_iff :
    (values.filterMap scalar?).any q.isMatch = true ↔
      ∃ v ∈ values, ∃ t, HasText v t ∧ q.isMatch t = true := by
  simp only [List.any_eq_true, List.mem_filterMap, scalar?_eq_some_iff]
  constructor
  · rintro ⟨t, ⟨v, hv, ht⟩, hq⟩
    exact ⟨v, hv, t, ht, hq⟩
  · rintro ⟨v, hv, t, ht, hq⟩
    exact ⟨t, ⟨v, hv, ht⟩, hq⟩

/-- The properties are an object in which the search begins. -/
theorem isMatch_iff_mem_follow :
    c.isMatch properties = true ↔
      c.chain ≠ [] ∧ ∃ v ∈ follow [.object properties] c.chain, Accepts c.value v := by
  obtain ⟨chain, value⟩ := c
  cases chain with
  | nil => simp [isMatch]
  | cons first rest =>
    have hroot : follow [.object properties] (first :: rest) =
        follow (fitting first properties) rest := by
      rw [follow_cons, List.flatMap_singleton, entries]
    rw [hroot]
    refine Iff.trans ?_ (and_iff_right (List.cons_ne_nil first rest)).symm
    cases value with
    | none =>
      rw [isMatch, Bool.not_eq_true', List.isEmpty_eq_false_iff_exists_mem]
      simp [Accepts]
    | some q =>
      rw [isMatch, any_filterMap_scalar?_iff]
      simp [Accepts]

/-- **Conditions on properties are paths.** The condition holds exactly if names lead from the
properties through nested objects and arrays to a value, each name fitting its pattern of the chain,
and the value at the end, if there is a pattern for it, is compared as a text that fits. -/
theorem isMatch_iff_leads (c : PropertyPattern) (properties : List (Text × Json)) :
    c.isMatch properties = true ↔
      c.chain ≠ [] ∧ ∃ names v, Leads (.object properties) names v ∧
        List.Forall₂ (fun p name => p.isMatch name = true) c.chain names ∧
        ∀ q ∈ c.value, ∃ t, HasText v t ∧ q.isMatch t = true := by
  rw [isMatch_iff_mem_follow]
  refine and_congr_right fun _ => ?_
  simp only [mem_follow_iff, List.mem_singleton, exists_eq_left]
  constructor
  · rintro ⟨v, ⟨names, hleads, hfits⟩, hvalue⟩
    exact ⟨names, v, hleads, hfits, hvalue⟩
  · rintro ⟨names, v, hleads, hfits, hvalue⟩
    exact ⟨v, ⟨names, hleads, hfits⟩, hvalue⟩

/-- Of two properties that fit the first name one leads on, to `null`. -/
example :
    isMatch ⟨[.glob "d*".toList, .glob "0".toList], some (.glob "nul*".toList)⟩
      [("data".toList, .string "0".toList), ("dataset".toList, .array [.null])] = true := by
  decide +kernel

/-- A condition fails if all that is found before the end of the chain are values without names in
them. -/
theorem isMatch_eq_false_of_hasText {front rest : List Pattern} (hchain : c.chain = front ++ rest)
    (hrest : rest ≠ [])
    (h : ∀ names v, Leads (.object properties) names v → List.Forall₂ Fits front names →
      ∃ t, HasText v t) :
    c.isMatch properties = false := by
  obtain ⟨p, rest, rfl⟩ := List.exists_cons_of_ne_nil hrest
  have hentries : (follow [.object properties] front).flatMap entries = [] := by
    refine List.flatMap_eq_nil_iff.mpr fun v hv => ?_
    obtain ⟨u, hu, names, hleads, hfits⟩ := mem_follow_iff.mp hv
    obtain rfl := List.mem_singleton.mp hu
    obtain ⟨t, ht⟩ := h names v hleads hfits
    exact entries_eq_nil_of_hasText ht
  have hfound : follow [.object properties] c.chain = [] := by
    rw [hchain, follow_append, follow_cons, hentries]
    exact follow_nil rest
  rw [← Bool.not_eq_true, isMatch_iff_mem_follow, hfound]
  rintro ⟨-, v, hv, -⟩
  exact List.not_mem_nil hv

/-! ### Chains that are read -/

theorem chainFrom_ne_nil (s : Assignment.Scan) (t : Text) : Assignment.chainFrom s t ≠ [] := by
  cases t with
  | nil => exact List.cons_ne_nil _ _
  | cons c r =>
    rw [Assignment.chainFrom]
    split_ifs
    · exact List.cons_ne_nil _ _
    · split <;> exact List.cons_ne_nil _ _

/-- A chain that has been read is not empty. -/
theorem chain_ne_nil_of_ofText (h : ofText t = .ok c) : c.chain ≠ [] := by
  simp only [ofText] at h
  split_ifs at h with hempty
  · cases h
  · obtain ⟨chain, hchain, h⟩ := Outcome.bind_eq_ok.mp h
    obtain ⟨value, -, h⟩ := Outcome.bind_eq_ok.mp h
    obtain rfl := Except.ok.inj h
    rw [readChain] at hchain
    obtain ⟨segment, segments, hsegments⟩ :=
      List.exists_cons_of_ne_nil (chainFrom_ne_nil .start _)
    rw [Assignment.chain, hsegments, List.mapM_cons] at hchain
    obtain ⟨p, -, hchain⟩ := Outcome.bind_eq_ok.mp hchain
    obtain ⟨ps, -, hchain⟩ := Outcome.bind_eq_ok.mp hchain
    obtain rfl := Except.ok.inj hchain
    exact List.cons_ne_nil p ps

end PropertyPattern
end CosmeticFilter
