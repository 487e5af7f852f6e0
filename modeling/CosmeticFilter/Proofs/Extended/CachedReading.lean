import CosmeticFilter.Extended.Cache
import CosmeticFilter.Proofs.Extended.Shielded

/-!
# Reading through the cache

The cache answers a text with what the first text of the same normal form was read as. So it is
transparent for a sequence of texts exactly if those that share a normal form are read alike, and
they are if they are shielded. An argument such as `]  x` of `:contains()` is not: its closing
bracket ends the round ones for the reader of the normal form, and the blanks behind it are text.

* `Cache.readEach`: the answers to texts that are handed to a cache one after the other;
* `Cache.readEach_empty`: each is what the first text of the same normal form is read as;
* `readEach_toOption_iff`: when the cache is transparent.
-/

namespace CosmeticFilter
namespace Extended

/-- The answers to texts that are handed to a cache one after the other. -/
def Cache.readEach (c : Cache) : List Text → List (Except Error Selector)
  | [] => []
  | t :: r => (c.read t).1 :: (c.read t).2.readEach r

/-- The first of the texts that has the normal form of a text. -/
def firstLike (ts : List Text) (t : Text) : Text :=
  (ts.find? fun u => normalForm u == normalForm t).getD t

/-- What a text is read as, the wording of a refusal aside. -/
def outcome (t : Text) : Option Selector := (Selector.ofText t).toOption

theorem firstLike_cons_of_eq {t u : Text} (h : normalForm t = normalForm u) (r : List Text) :
    firstLike (t :: r) u = t := by
  rw [firstLike, List.find?_cons_of_pos (by rw [h]; exact beq_self_eq_true _)]
  rfl

theorem firstLike_cons_of_ne {t u : Text} (h : normalForm t ≠ normalForm u) (r : List Text) :
    firstLike (t :: r) u = firstLike r u := by
  rw [firstLike, List.find?_cons_of_neg (by rw [beq_iff_eq]; exact h), firstLike]

theorem normalForm_firstLike (ts : List Text) (t : Text) :
    normalForm (firstLike ts t) = normalForm t := by
  rw [firstLike]
  cases hfind : ts.find? fun u => normalForm u == normalForm t with
  | none => rfl
  | some u =>
    have hu := List.find?_some hfind
    exact beq_iff_eq.mp hu

theorem firstLike_congr {t u : Text} {ts : List Text} (ht : t ∈ ts)
    (h : normalForm t = normalForm u) : firstLike ts t = firstLike ts u := by
  rw [firstLike, firstLike, h]
  cases hfind : ts.find? fun v => normalForm v == normalForm u with
  | none =>
    have := List.find?_eq_none.mp hfind t ht
    exact absurd (beq_iff_eq.mpr h) this
  | some v => rfl

theorem firstLike_mem {t : Text} {ts : List Text} (ht : t ∈ ts) : firstLike ts t ∈ ts := by
  rw [firstLike]
  cases hfind : ts.find? fun u => normalForm u == normalForm t with
  | none => exact ht
  | some u => exact List.mem_of_find?_eq_some hfind

namespace Cache

theorem find?_congr (c : Cache) {t u : Text} (h : normalForm t = normalForm u) :
    c.find? t = c.find? u := by
  rw [find?, find?, h]

theorem read_of_some {c : Cache} {t : Text} {known : Except Error Selector}
    (h : c.find? t = some known) : c.read t = (known, c) := by
  rw [read, h]

theorem read_of_none {c : Cache} {t : Text} (h : c.find? t = none) :
    c.read t = (Selector.ofText t, ⟨(normalForm t, Selector.ofText t) :: c.entries⟩) := by
  rw [read, h]

theorem find?_cons (c : Cache) (t u : Text) (known : Except Error Selector) :
    find? ⟨(normalForm t, known) :: c.entries⟩ u =
      if normalForm u = normalForm t then some known else c.find? u := by
  rw [find?, List.lookup_cons, find?]
  by_cases h : normalForm u = normalForm t
  · rw [if_pos h, h, beq_self_eq_true]
  · rw [if_neg h, beq_eq_false_iff_ne.mpr h]

/-- A text is answered with what is known of its normal form, or else with what the first text of
that form is read as. -/
theorem readEach_eq (c : Cache) (ts : List Text) :
    c.readEach ts = ts.map fun t => (c.find? t).getD (Selector.ofText (firstLike ts t)) := by
  induction ts generalizing c with
  | nil => rfl
  | cons t r ih =>
    rw [readEach, ih, List.map_cons, firstLike_cons_of_eq rfl]
    cases hfind : c.find? t with
    | some known =>
      rw [read_of_some hfind]
      refine congrArg (known :: ·) (List.map_congr_left fun u _ => ?_)
      by_cases h : normalForm t = normalForm u
      · rw [← c.find?_congr h, hfind]
        rfl
      · rw [firstLike_cons_of_ne h]
    | none =>
      rw [read_of_none hfind]
      refine congrArg (Selector.ofText t :: ·) (List.map_congr_left fun u _ => ?_)
      rw [find?_cons]
      by_cases h : normalForm t = normalForm u
      · rw [if_pos h.symm, ← c.find?_congr h, hfind, firstLike_cons_of_eq h]
        rfl
      · rw [if_neg (Ne.symm h), firstLike_cons_of_ne h]

/-- From the empty cache a text is answered with what the first text of its normal form is read
as. -/
theorem readEach_empty (ts : List Text) :
    empty.readEach ts = ts.map fun t => Selector.ofText (firstLike ts t) :=
  readEach_eq empty ts

end Cache

/-- Shielded texts with one normal form are read alike. -/
theorem outcome_eq_of_isShielded {t u : Text} (ht : isShielded t = true)
    (hu : isShielded u = true) (h : normalForm t = normalForm u) : outcome t = outcome u := by
  have hread : readAll .top t = readAll .top u := by
    rw [← readAll_normalForm ht, ← readAll_normalForm hu, h]
  rw [outcome, outcome, Selector.ofText_eq, Selector.ofText_eq, hread]
  cases readAll .top u <;> rfl

/-- **The cache.** It answers each of a sequence of texts with what the text is read as, the wording
of refusals aside, exactly if those that share a normal form are read alike; and this is so if all
of them are shielded. -/
theorem readEach_toOption_iff (ts : List Text) :
    ((Cache.empty.readEach ts).map Except.toOption = ts.map outcome ↔
        ∀ t ∈ ts, ∀ u ∈ ts, normalForm t = normalForm u → outcome t = outcome u) ∧
      ((∀ t ∈ ts, isShielded t = true) →
        (Cache.empty.readEach ts).map Except.toOption = ts.map outcome) := by
  have hiff : (Cache.empty.readEach ts).map Except.toOption = ts.map outcome ↔
      ∀ t ∈ ts, ∀ u ∈ ts, normalForm t = normalForm u → outcome t = outcome u := by
    rw [Cache.readEach_empty, List.map_map, List.map_inj_left]
    constructor
    · intro h t ht u hu heq
      have htfirst : outcome (firstLike ts t) = outcome t := h t ht
      have hufirst : outcome (firstLike ts u) = outcome u := h u hu
      rw [← htfirst, ← hufirst, firstLike_congr ht heq]
    · intro h t ht
      exact h _ (firstLike_mem ht) t ht (normalForm_firstLike ts t)
  exact ⟨hiff, fun h => hiff.mpr fun t ht u hu heq => outcome_eq_of_isShielded (h t ht) (h u hu) heq⟩

/-- Blanks outside of arguments, inside an argument that is read as branches, and in a string: all
of these texts have one normal form. -/
theorem readEach_toOption_not_contains :
    (∀ t ∈ ["p:not( b  c ) > a".toList, "p:not( b  c )  >  a".toList], isShielded t = true) ∧
      (Cache.empty.readEach ["p:not( b  c ) > a".toList, "p:not( b  c )  >  a".toList]).map
          Except.toOption =
        ["p:not( b  c ) > a".toList, "p:not( b  c )  >  a".toList].map outcome := by
  have hshielded : ∀ t ∈ ["p:not( b  c ) > a".toList, "p:not( b  c )  >  a".toList],
      isShielded t = true := by decide +kernel
  exact ⟨hshielded, (readEach_toOption_iff _).2 hshielded⟩

/-- A closing bracket that is text ends the round ones for the reader of the normal form, so two
arguments that differ share an answer. -/
theorem not_readEach_toOption :
    ¬ ∀ ts : List Text, (Cache.empty.readEach ts).map Except.toOption = ts.map outcome := by
  intro h
  have hsame := h ["a:contains(]  x)".toList, "a:contains(] x)".toList]
  revert hsame
  decide +kernel

end Extended
end CosmeticFilter
