import CosmeticFilter.Proofs.Css.Scope
import CosmeticFilter.Proofs.XPath.Axes
import CosmeticFilter.Proofs.XPath.Numbers
import CosmeticFilter.Proofs.XPath.Predicates

/-!
# Values and conditions

The evaluator asks of a term alone whether it stands for anything, compares all that can be compared
as strings, takes `last()` for a comparison with the position, and knows no text of comments. In
XPath 1.0 a string alone is false if it is empty and a number alone if it is zero, what is compared
with a number is compared as a number, and `last()` in a condition is true. An expression that meets
with none of these differences says the same in both accounts.

* `Term.IsTrueIfPresent`, `Term.HasPlainNumbers`, `Term.IsShort`: terms that are read for what they
  mean;
* `Expr.IsFaithful`, `Expr.IsFaithfulPredicate`: conditions and predicates that are;
* `Expr.holds_iff`, `Expr.keeps_iff`: they say what they mean.
-/

namespace CosmeticFilter
namespace XPath
namespace Standard

variable {R : Rounding} {d : Document} {n : Nat}

/-! ### Where both say the same -/

/-- The string is no number, or it is a number of 53 bits in digits alone. -/
def IsPlainNumber (R : Rounding) (t : Text) : Prop :=
  R.number? t = none ∨ ∃ k ≤ 2 ^ 53, t = Text.ofNat k

namespace Term

/-- What a term stands for is a number. -/
def IsNumeral : Term → Prop
  | numeral _ => True
  | _ => False

/-- The term is not a number that has to be rounded. -/
def IsShort : Term → Prop
  | numeral k => k ≤ 2 ^ 53
  | _ => True

/-- The strings that the term stands for in the document are plain numbers, or no numbers. -/
def HasPlainNumbers (R : Rounding) (d : Document) : Term → Prop
  | .attribute name =>
    ∀ n e t, d.element? n = some e → e.attribute? name = some t → IsPlainNumber R t
  | text => ∀ n t, d.text? n = some t → IsPlainNumber R t
  | self | string => ∀ n, IsPlainNumber R (stringValue d n)
  | literal t => IsPlainNumber R t
  | numeral k => k ≤ 2 ^ 53

/-- The term is turned into the truth value that says whether it stands for anything. -/
def IsTrueIfPresent : Term → Prop
  | string => False
  | literal t => t ≠ []
  | numeral k => k ≠ 0
  | _ => True

/-- The string-value of the node is asked for. -/
def ReadsNode : Term → Prop
  | self | string => True
  | _ => False

end Term

namespace Expr

/-- As a condition, the expression is read for what it means. -/
def IsFaithful (R : Rounding) (d : Document) : Expr → Prop
  | or p q | and p q => p.IsFaithful R d ∧ q.IsFaithful R d
  | not p | group p => p.IsFaithful R d
  | term a => a.IsTrueIfPresent
  | compare a _ b =>
    a.IsNumeral ∨ b.IsNumeral → a.HasPlainNumbers R d ∧ b.HasPlainNumbers R d
  | contains a b | startsWith a b => a.IsShort ∧ b.IsShort
  | position _ _ => True
  | last => False

/-- As a predicate behind brackets, the expression is read for what it means. -/
def IsFaithfulInBrackets (R : Rounding) (d : Document) : Expr → Prop
  | last => True
  | group p => p.IsFaithfulInBrackets R d
  | term (.numeral _) => False
  | p => p.IsFaithful R d

/-- As a predicate, the expression is read for what it means. -/
def IsFaithfulPredicate (R : Rounding) (d : Document) (p : Expr) : Prop :=
  (∃ k, p = term (.numeral k)) ∨ p.IsFaithfulInBrackets R d

/-- The string-value of the node is asked for. -/
def ReadsNode : Expr → Prop
  | or p q | and p q => p.ReadsNode ∨ q.ReadsNode
  | not p | group p => p.ReadsNode
  | compare a _ b | contains a b | startsWith a b => a.ReadsNode ∨ b.ReadsNode
  | _ => False

end Expr

/-- A plain number is turned into a number exactly if it has the digits of that number. -/
theorem IsPlainNumber.number?_eq_iff {t : Text} (h : IsPlainNumber R t) {k : Nat}
    (hk : k ≤ 2 ^ 53) : R.number? t = some (R.round k) ↔ t = Text.ofNat k := by
  rcases h with hnone | ⟨m, hm, rfl⟩
  · refine iff_of_false (by simp [hnone]) ?_
    rintro rfl
    rw [R.number?_ofNat] at hnone
    cases hnone
  · rw [R.number?_ofNat, Option.some_inj, R.exact m hm, R.exact k hk, Nat.cast_inj]
    exact ⟨fun heq => heq ▸ rfl, Text.ofNat_injective⟩

/-! ### Terms -/

/-- A node that is no comment. -/
def IsNoComment (d : Document) (n : Nat) : Prop := ∀ t, d.content? n ≠ some (.comment t)

/-- Only `node()` is true of comments. -/
theorem isNoComment_of_isTrueOf {test : NodeTest} (htest : test ≠ .node) (h : test.IsTrueOf d n) :
    IsNoComment d n := by
  intro t ht
  cases test with
  | anyElement =>
    obtain ⟨e, he⟩ := h
    cases he.symm.trans ht
  | name tag =>
    obtain ⟨e, he, -⟩ := h
    cases he.symm.trans ht
  | node => exact htest rfl
  | text =>
    obtain ⟨u, hu⟩ := h
    cases hu.symm.trans ht

/-- The text of a node is its string-value. -/
theorem stringValue_eq (h : IsNoComment d n) : stringValue d n = d.textContent n := by
  have hbelow : d.below n = d.descendants n := by
    rw [Document.descendants, Document.walk_eq, ← Document.below_eq]
  rw [stringValue, Document.textContent, hbelow]
  cases hcontent : d.content? n with
  | none =>
    rw [show d.text? n = none by rw [Document.text?, hcontent]]
  | some content =>
    cases content with
    | text t => rw [show d.text? n = some t by rw [Document.text?, hcontent]]
    | comment t => exact absurd hcontent (h t)
    | document | element => rw [show d.text? n = none by rw [Document.text?, hcontent]]

namespace Term

/-- What stands for a string that a term comes to. -/
def member (R : Rounding) (a : Term) (t : Text) : Datum :=
  match a with
  | numeral k => .number (some (R.round k))
  | _ => .string t

variable {a b : Term}

/-- The strings of the operand are what the term stands for. -/
theorem members_eq (h : a.ReadsNode → IsNoComment d n) :
    (a.datum R d n).members = (a.toOperand.values d n).map (a.member R) := by
  cases a with
  | self | string =>
    show [Datum.string (stringValue d n)] = [Datum.string (d.textContent n)]
    rw [stringValue_eq (h trivial)]
  | _ => rfl

theorem text_eq (hshort : a.IsShort) (h : a.ReadsNode → IsNoComment d n) :
    (a.datum R d n).text = a.toOperand.string d n := by
  cases a with
  | self | string => exact stringValue_eq (h trivial)
  | numeral k =>
    show Text.ofInt ⌊R.round k⌋ = Text.ofNat k
    rw [R.exact k hshort, Int.floor_natCast]
    rfl
  | _ => rfl

theorem holds_iff (h : a.IsTrueIfPresent) :
    (a.datum R d n).Holds ↔ (!(a.toOperand.values d n).isEmpty) = true := by
  have hlist : ∀ ts : List Text, ts ≠ [] ↔ (!ts.isEmpty) = true := fun ts => by
    cases ts <;> simp
  cases a with
  | string => exact h.elim
  | literal t => exact iff_of_true h rfl
  | numeral k =>
    refine iff_of_true ⟨by simp, fun hzero => h ?_⟩ rfl
    have hround : R.round ((0 : Nat) : ℚ) = R.round k := by
      rw [R.exact 0 (by decide)]
      exact (Option.some_inj.mp hzero).symm
    exact ((R.round_inj (by decide)).mp hround).symm
  | _ => exact hlist _

theorem isPlainNumber_of_mem (h : a.HasPlainNumbers R d) (ha : a.ReadsNode → IsNoComment d n)
    {t : Text} (ht : t ∈ a.toOperand.values d n) : IsPlainNumber R t := by
  cases a with
  | text =>
    obtain ⟨c, -, hc⟩ := List.mem_filterMap.mp ht
    exact h c t hc
  | self | string =>
    rw [List.mem_singleton.mp ht, ← stringValue_eq (ha trivial)]
    exact h n
  | literal =>
    rw [List.mem_singleton.mp ht]
    exact h
  | numeral k => exact .inr ⟨k, h, List.mem_singleton.mp ht⟩
  | _ =>
    obtain ⟨e, he, hvalue⟩ := Option.bind_eq_some_iff.mp (Option.mem_toList.mp ht)
    exact h n e t he hvalue

theorem IsNumeral.exists_eq (h : a.IsNumeral) : ∃ k, a = numeral k := by
  cases a with
  | numeral k => exact ⟨k, rfl⟩
  | _ => exact h.elim

/-- A member is turned into the number that its string is turned into. -/
theorem number?_member {s : Text} (hs : s ∈ a.toOperand.values d n) :
    (a.member R s).number? R = R.number? s := by
  cases a with
  | numeral k =>
    obtain rfl := List.mem_singleton.mp hs
    exact (R.number?_ofNat k).symm
  | _ => rfl

/-- As strings, two members of the operands are equal exactly if what they stand for is equal. -/
theorem equal_iff (h : a.IsNumeral ∨ b.IsNumeral → a.HasPlainNumbers R d ∧ b.HasPlainNumbers R d)
    (ha : a.ReadsNode → IsNoComment d n) (hb : b.ReadsNode → IsNoComment d n)
    {s t : Text} (hs : s ∈ a.toOperand.values d n) (ht : t ∈ b.toOperand.values d n) :
    (a.member R s).Equal R (b.member R t) ↔ s = t := by
  by_cases hnumeral : a.IsNumeral ∨ b.IsNumeral
  · obtain ⟨hplain, hplain'⟩ := h hnumeral
    have hnumbers : (a.member R s).Equal R (b.member R t) ↔
        ∃ q, R.number? s = some q ∧ R.number? t = some q := by
      rw [← number?_member hs, ← number?_member ht]
      cases a with
      | numeral k => exact Iff.rfl
      | _ =>
        cases b with
        | numeral l => exact Iff.rfl
        | _ => exact absurd hnumeral (by simp [IsNumeral])
    rw [hnumbers]
    rcases hnumeral with hnumeral | hnumeral
    · obtain ⟨k, rfl⟩ := hnumeral.exists_eq
      obtain rfl := List.mem_singleton.mp hs
      rw [R.number?_ofNat, eq_comm (b := t),
        ← (isPlainNumber_of_mem hplain' hb ht).number?_eq_iff hplain]
      exact ⟨fun ⟨q, hq, hread⟩ => hq ▸ hread, fun hread => ⟨_, rfl, hread⟩⟩
    · obtain ⟨k, rfl⟩ := hnumeral.exists_eq
      obtain rfl := List.mem_singleton.mp ht
      rw [R.number?_ofNat, ← (isPlainNumber_of_mem hplain ha hs).number?_eq_iff hplain']
      exact ⟨fun ⟨q, hread, hq⟩ => hq ▸ hread, fun hread => ⟨_, hread, rfl⟩⟩
  · obtain ⟨hnot, hnot'⟩ := not_or.mp hnumeral
    cases a with
    | numeral => exact absurd trivial hnot
    | _ =>
      cases b with
      | numeral => exact absurd trivial hnot'
      | _ => exact Iff.rfl

end Term

/-! ### Conditions and predicates -/

namespace Expr

variable {c : Context} {e : Expr}

theorem compares_iff {a b : Term} {equal : Bool}
    (h : a.IsNumeral ∨ b.IsNumeral → a.HasPlainNumbers R d ∧ b.HasPlainNumbers R d)
    (ha : a.ReadsNode → IsNoComment d n) (hb : b.ReadsNode → IsNoComment d n) :
    (a.datum R d n).Compares R equal (b.datum R d n) ↔
      ((a.toOperand.values d n).any fun s =>
        (b.toOperand.values d n).any fun t => (s == t) == equal) = true := by
  rw [Datum.Compares, Term.members_eq ha, Term.members_eq hb]
  simp only [List.mem_map, exists_exists_and_eq_and, List.any_eq_true]
  refine exists_congr fun s => and_congr_right fun hs => exists_congr fun t =>
    and_congr_right fun ht => ?_
  rw [Term.equal_iff h ha hb hs ht]
  cases equal with
  | true => simp only [beq_true, iff_true, beq_iff_eq]
  | false =>
    simp only [beq_false, Bool.false_eq_true, iff_false, Bool.not_eq_true', beq_eq_false_iff_ne,
      ne_eq]

/-- As a condition, an expression says what the predicate says that is read for it. -/
theorem holds_iff (hposition : c.position < 2 ^ 53) (h : e.IsFaithful R d)
    (hnode : e.ReadsNode → IsNoComment d c.node) :
    (e.value R d c).Holds ↔ e.toCondition.holds d c.node c.position c.size = true := by
  induction e with
  | or p q ihp ihq =>
    rw [toCondition, Predicate.holds, Bool.or_eq_true, ← ihp h.1 fun hp => hnode (.inl hp),
      ← ihq h.2 fun hq => hnode (.inr hq)]
    rfl
  | and p q ihp ihq =>
    rw [toCondition, Predicate.holds, Bool.and_eq_true, ← ihp h.1 fun hp => hnode (.inl hp),
      ← ihq h.2 fun hq => hnode (.inr hq)]
    rfl
  | not p ih =>
    rw [toCondition, Predicate.holds, Bool.not_eq_true', ← Bool.not_eq_true, ← ih h hnode]
    rfl
  | group p ih => exact ih h hnode
  | term a => exact Term.holds_iff h
  | compare a equal b =>
    exact compares_iff h (fun ha => hnode (.inl ha)) fun hb => hnode (.inr hb)
  | contains a b =>
    rw [toCondition, Predicate.holds, Text.occursIn_iff,
      ← Term.text_eq h.1 fun ha => hnode (.inl ha), ← Term.text_eq h.2 fun hb => hnode (.inr hb)]
    rfl
  | startsWith a b =>
    rw [toCondition, Predicate.holds, List.isPrefixOf_iff_prefix,
      ← Term.text_eq h.1 fun ha => hnode (.inl ha), ← Term.text_eq h.2 fun hb => hnode (.inr hb)]
    rfl
  | position relation k => exact relation.compares_iff R k hposition
  | last => exact h.elim

theorem keeps_iff_of_brackets (hposition : c.position < 2 ^ 53) (h : e.IsFaithfulInBrackets R d)
    (hnode : e.ReadsNode → IsNoComment d c.node) :
    (e.value R d c).Keeps R c.position ↔
      e.toCondition.holds d c.node c.position c.size = true := by
  induction e with
  | group p ih => exact ih h hnode
  | last =>
    show some (R.round c.size) = some (R.round c.position) ↔ (c.position == c.size) = true
    rw [Option.some_inj, eq_comm, R.round_inj hposition, beq_iff_eq]
  | term a =>
    cases a with
    | numeral k => exact h.elim
    | _ => exact holds_iff hposition h hnode
  | _ => exact holds_iff hposition h hnode

/-- As a predicate, an expression keeps the nodes that satisfy the predicate that is read for
it. -/
theorem keeps_iff (hposition : c.position < 2 ^ 53) (h : e.IsFaithfulPredicate R d)
    (hnode : e.ReadsNode → IsNoComment d c.node) :
    (e.value R d c).Keeps R c.position ↔
      e.toPredicate.holds d c.node c.position c.size = true := by
  rcases h with ⟨k, rfl⟩ | h
  · show some (R.round k) = some (R.round c.position) ↔ (c.position == k) = true
    rw [Option.some_inj, eq_comm, R.round_inj hposition, beq_iff_eq]
  · have hne : ∀ k, e ≠ .term (.numeral k) := by
      rintro k rfl
      exact h
    rw [toPredicate_eq hne]
    exact keeps_iff_of_brackets hposition h hnode

end Expr

end Standard
end XPath
end CosmeticFilter
