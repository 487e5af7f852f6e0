import CosmeticFilter.Warning.Log
import Mathlib.Data.List.Induction
import Mathlib.Data.List.Infix

/-!
# What the warning log knows

The log remembers a warning as one text, with the component in brackets in front of the message. So
the log answers for every warning that is written like one given since it was last cleared. Two
warnings are written alike if the bracket that closes the component of the one stands in the
component, or in the message, of the other: `[a] b] c` is the message `b] c` of `a`, and the message
`c` of `a] b`. Where no component holds a closing bracket with a space behind it, this cannot
happen, and the log answers for the warnings that were given and for no others.

* `Call`, `run`: what can be done with a log, and the log after that;
* `WarnedSince`: a warning was given and the log has not been cleared since;
* `Extends`, `key_eq_key_iff`: the warnings that are written alike;
* `has_run_iff_key`: what the log remembers after any calls;
* `has_run_iff`: when the log answers for the very warning that it is asked about.
-/

namespace CosmeticFilter
namespace WarningLog

/-- What can be done with a log. -/
inductive Call where
  /-- A component gives a warning. -/
  | warn (component message : Text)
  /-- All warnings are forgotten. -/
  | clear
  deriving DecidableEq, Repr

/-- The log after a call. -/
def call (log : WarningLog) : Call → WarningLog
  | .warn component message => log.warn component message
  | .clear => .empty

/-- The log after calls, one after the other. -/
def run (log : WarningLog) (calls : List Call) : WarningLog := calls.foldl call log

/-- The warning was given, and the log has not been cleared since. -/
def WarnedSince (calls : List Call) (component message : Text) : Prop :=
  ∃ before after, calls = before ++ .warn component message :: after ∧ Call.clear ∉ after

variable {log : WarningLog} {calls : List Call} {c m c' m' : Text}

/-! ### Calls -/

theorem not_warnedSince_nil : ¬ WarnedSince [] c m := by
  rintro ⟨before, after, heq, -⟩
  exact absurd heq.symm (List.append_ne_nil_of_right_ne_nil _ (List.cons_ne_nil _ _))

theorem not_warnedSince_clear : ¬ WarnedSince (calls ++ [.clear]) c m := by
  rintro ⟨before, after, heq, hafter⟩
  rcases List.eq_nil_or_concat after with rfl | ⟨front, last, rfl⟩
  · exact absurd (List.append_inj' heq rfl).2 (by simp)
  · rw [List.concat_eq_append, ← List.cons_append, ← List.append_assoc] at heq
    obtain rfl := List.singleton_inj.mp (List.append_inj' heq rfl).2
    exact hafter (by simp)

theorem warnedSince_warn :
    WarnedSince (calls ++ [.warn c' m']) c m ↔ (c' = c ∧ m' = m) ∨ WarnedSince calls c m := by
  constructor
  · rintro ⟨before, after, heq, hafter⟩
    rcases List.eq_nil_or_concat after with rfl | ⟨front, last, rfl⟩
    · exact Or.inl (Call.warn.inj (List.singleton_inj.mp (List.append_inj' heq rfl).2))
    · rw [List.concat_eq_append] at heq hafter
      rw [← List.cons_append, ← List.append_assoc] at heq
      exact Or.inr ⟨before, front, (List.append_inj' heq rfl).1,
        fun hmem => hafter (List.mem_append_left _ hmem)⟩
  · rintro (⟨rfl, rfl⟩ | ⟨before, after, rfl, hafter⟩)
    · exact ⟨calls, [], rfl, List.not_mem_nil⟩
    · refine ⟨before, after ++ [.warn c' m'], by simp, fun hmem => ?_⟩
      rcases List.mem_append.mp hmem with hmem | hmem
      · exact hafter hmem
      · exact absurd (List.mem_singleton.mp hmem) (by simp)

/-- After a warning the log knows this text, and what it knew before. -/
theorem has_warn :
    (log.warn c' m').has c m = true ↔ key c' m' = key c m ∨ log.has c m = true := by
  unfold warn
  split
  · rename_i hknown
    refine ⟨Or.inr, ?_⟩
    rintro (hkey | hhas)
    · rwa [has, ← hkey]
    · exact hhas
  · rw [has, has, List.contains_cons, Bool.or_eq_true, beq_iff_eq, eq_comm]

/-- After any calls the log answers for what is written like a warning given since it was last
cleared. -/
theorem has_run_iff_key :
    (run .empty calls).has c m = true ↔ ∃ c' m', WarnedSince calls c' m' ∧ key c' m' = key c m := by
  induction calls using List.reverseRecOn with
  | nil => exact iff_of_false Bool.false_ne_true fun ⟨_, _, h, _⟩ => not_warnedSince_nil h
  | append_singleton calls k ih =>
    have hrun : run .empty (calls ++ [k]) = (run .empty calls).call k := List.foldl_concat ..
    rw [hrun]
    cases k with
    | clear => exact iff_of_false Bool.false_ne_true fun ⟨_, _, h, _⟩ => not_warnedSince_clear h
    | warn c₀ m₀ =>
      rw [call, has_warn, ih]
      simp only [warnedSince_warn]
      constructor
      · rintro (hkey | ⟨c', m', hwarned, hkey⟩)
        · exact ⟨c₀, m₀, Or.inl ⟨rfl, rfl⟩, hkey⟩
        · exact ⟨c', m', Or.inr hwarned, hkey⟩
      · rintro ⟨c', m', ⟨rfl, rfl⟩ | hwarned, hkey⟩
        · exact Or.inl hkey
        · exact Or.inr ⟨c', m', hwarned, hkey⟩

/-! ### Warnings that are written alike -/

/-- What closes a component. -/
def closing : Text := "] ".toList

/-- The component of the second warning goes on where that of the first one is closed. -/
def Extends (c m c' m' : Text) : Prop := ∃ x, c' = c ++ closing ++ x ∧ m = x ++ closing ++ m'

theorem key_eq (c m : Text) : key c m = '[' :: (c ++ (closing ++ m)) := by
  rw [key, List.cons_append, List.cons_append, List.append_assoc]
  rfl

theorem Extends.key_eq (h : Extends c m c' m') : key c m = key c' m' := by
  obtain ⟨x, rfl, rfl⟩ := h
  simp only [WarningLog.key_eq, List.append_assoc]

/-- Behind the shorter component stands what closes it, so the longer one goes on behind that. -/
theorem extends_of_append {v : Text} (h : closing ++ m = v ++ (closing ++ m')) :
    (v = [] ∧ m = m') ∨ Extends c m (c ++ v) m' := by
  change ']' :: ' ' :: m = v ++ ']' :: ' ' :: m' at h
  match v, h with
  | [], h => exact Or.inl ⟨rfl, (List.cons.inj (List.cons.inj h).2).2⟩
  | [a], h => exact absurd (List.cons.inj (List.cons.inj h).2).1 (by decide)
  | a :: b :: x, h =>
    obtain ⟨ha, hrest⟩ := List.cons.inj h
    obtain ⟨hb, hm⟩ := List.cons.inj hrest
    refine Or.inr ⟨x, ?_, ?_⟩
    · rw [← ha, ← hb, List.append_assoc]
      rfl
    · rw [hm, List.append_assoc]
      rfl

/-- Two warnings are written alike if they are the same, or if the component of the one goes on
where that of the other is closed. -/
theorem key_eq_key_iff :
    key c m = key c' m' ↔ (c = c' ∧ m = m') ∨ Extends c m c' m' ∨ Extends c' m' c m := by
  constructor
  · intro h
    rw [key_eq, key_eq, List.cons.injEq, List.append_eq_append_iff] at h
    rcases h.2 with ⟨v, rfl, hv⟩ | ⟨v, rfl, hv⟩
    · rcases extends_of_append (c := c) hv with ⟨rfl, rfl⟩ | hextends
      · exact Or.inl ⟨(List.append_nil c).symm, rfl⟩
      · exact Or.inr (Or.inl hextends)
    · rcases extends_of_append (c := c') hv with ⟨rfl, rfl⟩ | hextends
      · exact Or.inl ⟨List.append_nil c', rfl⟩
      · exact Or.inr (Or.inr hextends)
  · rintro (⟨rfl, rfl⟩ | hextends | hextends)
    · rfl
    · exact hextends.key_eq
    · exact hextends.key_eq.symm

/-- A component that goes on behind another holds what closes that one. -/
theorem Extends.infix (h : Extends c m c' m') : closing <:+: c' := by
  obtain ⟨x, rfl, -⟩ := h
  exact ⟨c, x, rfl⟩

/-! ### The warnings that the log answers for -/

/-- **What the log knows.** After any calls the log answers for a warning exactly if since it was
last cleared that warning was given, or one whose component is closed where the other's goes on. So
it answers for the very warnings that were given, where no component that is given or asked for
holds a closing bracket with a space behind it. -/
theorem has_run_iff (calls : List Call) (c m : Text) :
    ((run .empty calls).has c m = true ↔
        WarnedSince calls c m ∨
          ∃ c' m', WarnedSince calls c' m' ∧ (Extends c' m' c m ∨ Extends c m c' m')) ∧
      (¬ closing <:+: c → (∀ c' m', WarnedSince calls c' m' → ¬ closing <:+: c') →
        ((run .empty calls).has c m = true ↔ WarnedSince calls c m)) := by
  have hexact : (run .empty calls).has c m = true ↔
      WarnedSince calls c m ∨
        ∃ c' m', WarnedSince calls c' m' ∧ (Extends c' m' c m ∨ Extends c m c' m') := by
    rw [has_run_iff_key]
    constructor
    · rintro ⟨c', m', hwarned, hkey⟩
      rcases key_eq_key_iff.mp hkey with ⟨rfl, rfl⟩ | hextends
      · exact Or.inl hwarned
      · exact Or.inr ⟨c', m', hwarned, hextends⟩
    · rintro (hwarned | ⟨c', m', hwarned, hextends⟩)
      · exact ⟨c, m, hwarned, rfl⟩
      · exact ⟨c', m', hwarned, key_eq_key_iff.mpr (Or.inr hextends)⟩
  refine ⟨hexact, fun hc hcalls => hexact.trans ⟨?_, Or.inl⟩⟩
  rintro (hwarned | ⟨c', m', hwarned, hextends | hextends⟩)
  · exact hwarned
  · exact absurd hextends.infix hc
  · exact absurd hextends.infix (hcalls c' m' hwarned)

/-- Brackets in messages do no harm, and a cleared log has forgotten what it was told. -/
theorem has_run_iff_bracketedMessages :
    let calls := [Call.warn "Host".toList "gone".toList, .clear,
      .warn "ExtCSS".toList "div[..a] b: refused".toList, .warn "ExtCSS".toList "] ".toList]
    (∀ c' m', WarnedSince calls c' m' → ¬ closing <:+: c') ∧
      ((run .empty calls).has "ExtCSS".toList "] ".toList = true ↔
        WarnedSince calls "ExtCSS".toList "] ".toList) ∧
      ((run .empty calls).has "Host".toList "gone".toList = true ↔
        WarnedSince calls "Host".toList "gone".toList) := by
  intro calls
  have hcomponents : ∀ c' m', WarnedSince calls c' m' → ¬ closing <:+: c' := by
    rintro c' m' ⟨before, after, heq, -⟩
    have hmem : Call.warn c' m' ∈ calls := heq ▸ List.mem_append_right _ List.mem_cons_self
    simp only [calls, List.mem_cons, Call.warn.injEq, reduceCtorEq, List.not_mem_nil, or_false,
      false_or] at hmem
    rcases hmem with ⟨rfl, -⟩ | ⟨rfl, -⟩ | ⟨rfl, -⟩ <;> decide
  exact ⟨hcomponents, (has_run_iff calls _ _).2 (by decide) hcomponents,
    (has_run_iff calls _ _).2 (by decide) hcomponents⟩

/-- A warning of `a` answers for one of `a] b`, which was never given. -/
theorem not_has_run_iff :
    ¬ ∀ (calls : List Call) (c m : Text),
      (run .empty calls).has c m = true ↔ WarnedSince calls c m := by
  intro h
  have hwarned : WarnedSince ([] ++ [.warn "a".toList "b] c".toList]) "a] b".toList "c".toList :=
    (h _ _ _).mp (by decide)
  rcases warnedSince_warn.mp hwarned with ⟨hcomponent, -⟩ | hbefore
  · exact absurd hcomponent (by decide)
  · exact not_warnedSince_nil hbefore

end WarningLog
end CosmeticFilter
