import CosmeticFilter.Proofs.Query.Filters
import CosmeticFilter.Proofs.XPath.OuterBlanks

/-!
# Absolute expressions behind an asterisk

A branch that starts with `*:xpath()` is not evaluated as it is written: the expression is evaluated
once, from the document. With a filter in between that keeps everything, the same expression is
evaluated from each element, and what all of them lead to is listed without repetitions. An absolute
path starts at the document wherever it is evaluated, so every element leads to the same list, and
this is free of repetitions already. Only in a document without elements is there no element to
start from; but then an absolute expression finds no element either.

* `LocationPath.select_congr`, `XPath.select_congr`: an absolute expression forgets its context;
* `selected`: the elements that an expression selects;
* `applyNode_xpath`: the elements that candidates lead to;
* `eraseDups_flatMap_const`: one list, many times over;
* `evalBranch_leadingXPath`, `evalBranch_xpath_each`: the two ways of evaluation;
* `evalBranch_absolute`: for absolute expressions they agree.
-/

namespace CosmeticFilter

/-! ### Paths from the document -/

/-- An absolute path leads to the same nodes from everywhere. -/
theorem LocationPath.select_congr {path : LocationPath} (h : path.isAbsolute = true) (d : Document)
    (m n : Nat) : path.select d m = path.select d n := by
  rw [LocationPath.select, LocationPath.select, h]
  rfl

/-- The expression is a union of absolute paths. -/
def XPath.IsAbsolute (x : XPath) : Prop := ∀ path ∈ x.paths, path.isAbsolute = true

instance (x : XPath) : Decidable x.IsAbsolute :=
  inferInstanceAs (Decidable (∀ path ∈ x.paths, path.isAbsolute = true))

/-- An absolute expression selects the same nodes from everywhere. -/
theorem XPath.select_congr {x : XPath} (h : x.IsAbsolute) (d : Document) (m n : Nat) :
    x.select d m = x.select d n := by
  have hpaths : x.paths.flatMap (LocationPath.select d m) =
      x.paths.flatMap (LocationPath.select d n) := by
    rw [List.flatMap_def, List.flatMap_def]
    exact congrArg List.flatten (List.map_congr_left fun path hpath =>
      LocationPath.select_congr (h path hpath) d m n)
  rw [XPath.select, XPath.select, hpaths]

namespace Query

open Extended (Node)

variable {p : Page} {E : Text} {x : XPath}

/-! ### From a candidate -/

/-- The elements that an expression selects from a context node. -/
def selected (p : Page) (x : XPath) (n : Nat) : List Nat :=
  (x.select p.document n).filter p.document.isElement

theorem nodup_selected (p : Page) (x : XPath) (n : Nat) : (selected p x n).Nodup :=
  ((NodeSet.pairwise_ofList _).imp Nat.ne_of_lt).filter _

/-- A page reads an expression without the blanks around it. -/
theorem xpath_trim (hE : XPath.ofText E = .ok x) (n : Nat) :
    p.xpath (Text.trim E) n = .ok (selected p x n) := by
  rw [Page.xpath, XPath.ofText_trim hE]
  rfl

/-- What is read as an expression is an argument of `:xpath()`. -/
theorem compile_xpath (hE : XPath.ofText E = .ok x) :
    Condition.compile .xpath E = .ok (.xpath (Text.trim E)) := by
  have hne : Text.trim E ≠ [] := by
    intro hnil
    have hread : XPath.ofText [] = .ok x := hnil ▸ XPath.ofText_trim hE
    have hrefused : (XPath.ofText []).isOk = false := by decide +kernel
    rw [hread] at hrefused
    exact Bool.false_ne_true hrefused.symm
  rw [Condition.compile, Condition.read, if_neg hne]

/-- Candidates lead to what the expression selects from each of them. -/
theorem applyNode_xpath (hE : XPath.ofText E = .ok x) (ns : List Nat) :
    applyNode p ns (.textual .xpath E) = .ok (ns.flatMap (selected p x)) := by
  have hfollow : Condition.followPath p (Text.trim E) = fun n => pure (selected p x n) := by
    funext n
    rw [Condition.followPath, xpath_trim hE]
    rfl
  rw [applyNode, applyTextual, compile_xpath hE]
  show (ns.mapM (Condition.followPath p (Text.trim E))).map List.flatten = _
  rw [hfollow, List.mapM_pure, List.flatMap_def]
  rfl

/-! ### Both ways of evaluation -/

/-- From each of some candidates the same list: it is left once. -/
theorem eraseDups_flatMap_const {ns l : List Nat} (hne : ns ≠ []) (hl : l.Nodup) :
    (ns.flatMap fun _ => l).eraseDups = l := by
  induction ns with
  | nil => exact absurd rfl hne
  | cons n r ih =>
    rw [List.flatMap_cons, eraseDups_append, eraseDups_of_nodup hl]
    have hrest : ((r.flatMap fun _ => l).eraseDups.filter fun m => !l.contains m) = [] := by
      refine List.filter_eq_nil_iff.mpr fun m hm => ?_
      obtain ⟨-, -, hmem⟩ := List.mem_flatMap.mp (List.mem_eraseDups.mp hm)
      rw [List.contains_iff_mem.mpr hmem]
      exact Bool.false_ne_true
    rw [hrest, List.append_nil]

/-- `*:xpath(E)` evaluates the expression once, from the document. -/
theorem evalBranch_leadingXPath (hE : XPath.ofText E = .ok x) :
    evalBranch p .document [.fragment ['*'], .textual .xpath E] = .ok (selected p x 0) := by
  have hleading : leadingXPath? .document ['*'] E = some (Text.trim E) := rfl
  rw [evalBranch, hleading]
  simp only [xpath_trim hE, applyNodes]

/-- With a filter in between that keeps everything, the expression is evaluated from each element.
-/
theorem evalBranch_xpath_each (hE : XPath.ofText E = .ok x) :
    evalBranch p .document
        [.fragment ['*'], .nested .not [[.fragment ":hover".toList]], .textual .xpath E] =
      .ok (((p.select ⟨[⟨[.universal], []⟩]⟩ 0).eraseDups.flatMap (selected p x)).eraseDups) := by
  have hnil : ∀ ns : List Nat, ns = [] → ns.flatMap (selected p x) = [] := by
    rintro ns rfl
    rfl
  rw [evalBranch_fragment (by simp), search_eq Css.ofText_asterisk]
  show applyNodes p _ _ = _
  rw [applyNodes_cons (applyNode_hover _) id, applyNodes_cons (applyNode_xpath hE _) (hnil _),
    applyNodes]

/-- **An absolute expression behind an asterisk.** It makes no difference whether it is evaluated
once from the document, or from each element with repetitions dropped. -/
theorem evalBranch_absolute (hp : p.document.Built) (hE : XPath.ofText E = .ok x)
    (habs : x.IsAbsolute) :
    evalBranch p .document [.fragment ['*'], .textual .xpath E] = .ok (selected p x 0) ∧
      evalBranch p .document
          [.fragment ['*'], .nested .not [[.fragment ":hover".toList]], .textual .xpath E] =
        .ok (selected p x 0) := by
  refine ⟨evalBranch_leadingXPath hE, ?_⟩
  have hsame : selected p x = fun _ => selected p x 0 := by
    funext n
    rw [selected, selected, XPath.select_congr habs p.document n 0]
  rw [evalBranch_xpath_each hE]
  refine congrArg Except.ok ?_
  cases hall : (p.select ⟨[⟨[.universal], []⟩]⟩ 0).eraseDups with
  | nil =>
    -- No element to start from, so there is none to be found.
    refine (List.filter_eq_nil_iff.mpr fun n _ hn => ?_).symm
    have hmem : n ∈ (p.select ⟨[⟨[.universal], []⟩]⟩ 0).eraseDups :=
      List.mem_eraseDups.mpr ((mem_select_document hp _ n).mpr ((selects_universal n).trans hn))
    rw [hall] at hmem
    exact List.not_mem_nil hmem
  | cons m r =>
    rw [hsame]
    exact eraseDups_flatMap_const (List.cons_ne_nil m r) (nodup_selected p x 0)

/-- Two absolute paths, one with a predicate, and blanks around them. -/
theorem evalBranch_absolute_linkInBox :
    evalBranch (.ofDocument linkInBox) .document
        [.fragment ['*'], .textual .xpath " //a[1] | /div ".toList] = .ok [1, 2] ∧
      evalBranch (.ofDocument linkInBox) .document
          [.fragment ['*'], .nested .not [[.fragment ":hover".toList]],
            .textual .xpath " //a[1] | /div ".toList] = .ok [1, 2] := by
  let x : XPath := ⟨[⟨true, [.toAllBelow, ⟨.child, .name "a".toList, [.position .eq 1]⟩]⟩,
    ⟨true, [⟨.child, .name "div".toList, []⟩]⟩]⟩
  have hread : XPath.ofText " //a[1] | /div ".toList = .ok x := by decide +kernel
  have hselected : selected (.ofDocument linkInBox) x 0 = [1, 2] := by decide +kernel
  have hboth := evalBranch_absolute (p := .ofDocument linkInBox)
    ((Document.Built.empty.append 0 _).append 1 _) hread (by decide)
  rw [hselected] at hboth
  exact hboth

end Query
end CosmeticFilter
