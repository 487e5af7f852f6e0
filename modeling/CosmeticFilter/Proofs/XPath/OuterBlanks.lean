import CosmeticFilter.Proofs.XPath.EndBlind

/-!
# Blanks around an expression

When a whole expression has been read, nothing but blanks may be left, and no reader sees whether
there are any; so the expression is read from the text without them too. In front, the first step
passes over blanks anyway.

* `BlanksApart`: texts that differ by blanks at their ends;
* `ofText_trim`: blanks around an expression do not count.
-/

namespace CosmeticFilter
namespace XPath

/-- The texts differ by blanks at their ends. -/
def BlanksApart (s t : Text) : Prop := Text.trimEnd s = Text.trimEnd t

namespace BlanksApart

variable {s t r : Text} {c : Char}

theorem symm (h : BlanksApart s t) : BlanksApart t s := Eq.symm h

theorem exists_append (hc : Text.isBlank c = false) (h : BlanksApart (s ++ c :: r) t) :
    ∃ r', t = s ++ c :: r' ∧ BlanksApart r r' := by
  obtain ⟨b, hb, ht⟩ := Text.exists_append_trimEnd t
  rw [BlanksApart, Text.trimEnd_append_cons hc] at h
  refine ⟨Text.trimEnd r ++ b, ?_, ?_⟩
  · rw [ht, ← h, List.append_assoc, List.cons_append]
  · rw [BlanksApart, Text.trimEnd_append_of_blank (Text.trimEnd_eq_nil_iff.mpr hb),
      Text.trimEnd_trimEnd]

theorem trimStart (h : BlanksApart s t) :
    BlanksApart (Text.trimStart s) (Text.trimStart t) := by
  obtain ⟨b, hb, hs⟩ := Text.exists_trimStart_append s
  cases hstart : Text.trimStart s with
  | nil =>
    have hblank := Text.trimEnd_eq_nil_iff.mpr (Text.trimStart_eq_nil_iff.mp hstart)
    have ht := Text.trimEnd_eq_nil_iff.mp (Eq.trans h.symm hblank)
    rw [Text.trimStart_eq_nil_iff.mpr ht]
    rfl
  | cons c r =>
    have hc := Text.not_blank_of_trimStart hstart
    rw [hs, hstart] at h
    obtain ⟨r', rfl, hr⟩ := h.exists_append hc
    have hnil : Text.trimStart b = [] := Text.trimStart_eq_nil_iff.mpr hb
    rw [Text.trimStart_append_of_blank hnil, Text.trimStart_cons_of_not_blank hc, BlanksApart,
      ← List.singleton_append, ← List.singleton_append]
    exact (Text.trimEnd_append_cons hc [] r).trans
      ((congrArg (c :: ·) hr).trans (Text.trimEnd_append_cons hc [] r').symm)

end BlanksApart

theorem differsAtEnd_blanksApart : DiffersAtEnd BlanksApart where
  exists_append hc h := h.exists_append hc
  exists_told hc h := by
    obtain ⟨r, rfl, hr⟩ := BlanksApart.exists_append (s := []) hc.1 h.symm
    exact ⟨r, rfl, hr.symm⟩
  trimStart h := h.trimStart

/-- Blanks at the end of an expression do not count. -/
theorem BlanksApart.readPaths {s t : Text} {paths : List LocationPath} (h : BlanksApart s t)
    (hs : readPaths s = .ok paths) : XPath.readPaths t = .ok paths := by
  induction hlength : s.length using Nat.strongRecOn generalizing s t paths with
  | _ n ih =>
    subst hlength
    obtain ⟨path, rest, hpath, hcases⟩ := readPaths_eq_ok_iff.mp hs
    obtain ⟨rest', hpath', hrest⟩ :=
      isEndBlind_readPath.same differsAtEnd_blanksApart h hpath
    refine readPaths_eq_ok_iff.mpr ⟨path, rest', hpath', ?_⟩
    rcases hcases with ⟨hnil, rfl⟩ | ⟨r, more, hsign, hmore, rfl⟩
    · refine .inl ⟨?_, rfl⟩
      rw [Text.trimStart_eq_nil_iff, ← Text.trimEnd_eq_nil_iff] at hnil ⊢
      exact Eq.trans hrest.symm hnil
    · obtain ⟨r', hsign', hr⟩ := differsAtEnd_blanksApart.sign (by decide) hrest hsign
      exact .inr ⟨r', more, hsign', ih r.length (length_lt_of_readPath hpath hsign) hr hmore rfl,
        rfl⟩

/-- **Blanks around an expression do not count.** -/
theorem ofText_trim {t : Text} {x : XPath} (h : ofText t = .ok x) :
    ofText (Text.trim t) = .ok x := by
  rw [ofText_eq_ok_iff, ← readPaths_trimStart_eq_ok_iff] at h
  rw [ofText_eq_ok_iff]
  exact BlanksApart.readPaths (Text.trimEnd_trimEnd _).symm h

end XPath
end CosmeticFilter
