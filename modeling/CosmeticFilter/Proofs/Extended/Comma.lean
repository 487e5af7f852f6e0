import CosmeticFilter.Proofs.Extended.Foreign
import CosmeticFilter.Proofs.Extended.NativePieces

/-!
# Lists that are put together

A comma behind a list of branches completes the last of them as the end of the text would have done,
and the next branch starts from nothing. So two lists with a comma between them are read as the
branches of the one and then those of the other. The blanks in front of the comma have been trimmed
when the first list was read by itself, and the blanks behind it when the second one was; neither
make a difference. Only a backslash that waits at the end of the first list would take the comma.

* `Progress.behind`: branches that are complete already have no influence;
* `foldlM_blank_append`: blanks in front of a branch are skipped;
* `readAll_comma`: two lists with a comma between them.
-/

namespace CosmeticFilter
namespace Extended

variable {inner : BranchReader} {s : Scope} {t u : Text}

/-! ### Branches that are complete already -/

/-- The same progress behind branches that are complete. -/
def Progress.behind (bs : List (List Node)) (p : Progress) : Progress := ⟨bs ++ p.branches, p.draft⟩

namespace Progress

theorem endBranch_behind (bs : List (List Node)) (p : Progress) :
    (p.behind bs).endBranch s = (p.endBranch s).map (bs ++ ·) := by
  unfold endBranch behind
  cases p.draft.cutAtEnd s with
  | error e => rfl
  | ok d =>
    simp only [List.append_assoc]
    split <;> rfl

theorem step_behind (bs : List (List Node)) (p : Progress) (q : Piece) :
    (p.behind bs).step inner s q = (p.step inner s q).map (behind bs) := by
  have hdraft : ∀ e : Except Cause Draft,
      (e.map fun d => (⟨bs ++ p.branches, d⟩ : Progress)) =
        (e.map fun d => (⟨p.branches, d⟩ : Progress)).map (behind bs) := fun e => by
    cases e <;> rfl
  cases q with
  | verbatim t => rfl
  | space => rfl
  | unbalanced => rfl
  | unclosedQuote quote => rfl
  | pseudoClass name argument => exact hdraft _
  | pseudoElement name argument => exact hdraft _
  | attributeTest content => exact hdraft _
  | comma =>
    rw [step, step, endBranch_behind]
    cases p.endBranch s <;> rfl

end Progress

theorem foldlM_behind (bs : List (List Node)) (p : Progress) (qs : List Piece) :
    qs.foldlM (Progress.step inner s) (p.behind bs) =
      (qs.foldlM (Progress.step inner s) p).map (.behind bs) := by
  induction qs generalizing p with
  | nil => rfl
  | cons q r ih =>
    rw [List.foldlM_cons, List.foldlM_cons, Progress.step_behind]
    cases p.step inner s q with
    | error e => rfl
    | ok p' => exact ih p'

/-! ### Blanks around the comma -/

/-- A branch does not start before its first character that is no blank. -/
theorem foldlM_blank_append {a : Text} (ha : ∀ c ∈ a, Text.isBlank c = true)
    (bs : List (List Node)) :
    (piecesIn (a ++ u)).foldlM (Progress.step inner s) ⟨bs, .empty⟩ =
      (piecesIn u).foldlM (Progress.step inner s) ⟨bs, .empty⟩ := by
  induction a with
  | nil => rfl
  | cons c a ih =>
    obtain ⟨hc, ha⟩ := List.forall_mem_cons.mp ha
    rw [List.cons_append, piecesIn_blank hc, List.foldlM_cons]
    exact ih ha

/-- Behind a text that stands, a comma completes the branch. -/
theorem Stands.comma {p : Progress} (h : Stands inner s t p) {bs : List (List Node)}
    (hend : p.endBranch s = .ok bs) :
    (piecesIn (t ++ ',' :: u)).foldlM (Progress.step inner s) .start =
      (piecesIn u).foldlM (Progress.step inner s) ⟨bs, .empty⟩ := by
  have hcomma : isMark ',' = true ∧ Group.ofMark? ',' = none := by decide
  rw [piecesIn_append_mark (isClosed_of_run h.run) h.escape hcomma.1 hcomma.2 (by decide),
    piecesIn_mark hcomma.1 hcomma.2 (by decide), List.foldlM_append, h.run]
  show p.step inner s .comma >>= _ = _
  rw [Progress.step, hend]
  rfl

/-- **Two lists with a comma between them** are read as the branches of the first and then those of
the second, if no backslash waits at the end of the first. -/
theorem readAll_comma {as bs : List (List Node)} (hescape : endsInEscape t = false)
    (ht : readAll s t = .ok as) (hu : readAll s u = .ok bs) :
    readAll s (t ++ ',' :: u) = .ok (as ++ bs) := by
  obtain ⟨p, hstands, hend⟩ := exists_stands_of_readAll ht hescape
  obtain ⟨q, hrun, hend'⟩ := readAll_eq_ok.mp hu
  obtain ⟨a, ha, hstart⟩ := Text.exists_trimStart_append (Text.trimEnd u)
  have htrim : Text.trimStart (Text.trimEnd u) = Text.trim u := by
    rw [← Text.trim_eq_trimStart fun c hc => Text.not_blank_of_getLast?_trimEnd hc,
      Text.trim_trimEnd]
  rw [readAll_eq_ok, Text.trim_append_cons (by decide)]
  refine ⟨q.behind as, ?_, by rw [Progress.endBranch_behind, hend']; rfl⟩
  show (piecesIn (Text.trimStart t ++ ',' :: Text.trimEnd u)).foldlM _ _ = _
  rw [hstands.comma hend, hstart, htrim, foldlM_blank_append ha]
  have hall : (piecesIn (Text.trim u)).foldlM (Progress.step readAll s) (Progress.behind as .start) =
      ((piecesIn (Text.trim u)).foldlM (Progress.step readAll s) .start).map (.behind as) :=
    foldlM_behind as .start (piecesIn (Text.trim u))
  rw [show (piecesIn (Text.trim u)).foldlM (Progress.step readAll s) .start = .ok q from hrun,
    Progress.behind, Progress.start, List.append_nil] at hall
  exact hall

end Extended
end CosmeticFilter
