import CosmeticFilter.Proofs.Css.Identifiers
import CosmeticFilter.Proofs.Css.Relative
import CosmeticFilter.Proofs.Extended.NativePieces

/-!
# The names in a selector

A selector is read as it is spelled, so the places where names stand in it are found by reading it.
There is one reader for all of them, which takes any run of name characters and escapes. In front of
a type name it is asked first whether an identifier starts there, and the name of a pseudo-class or
a pseudo-element has to be a known one, so these are identifiers. An id may be any run. But nothing
is asked of the names of classes and attributes: `.1a` is read as the class `1a`. Every other name
is spelled as the standard wants it, in a text without the two things that the reader takes for a
part of a run though they are none.

* `NamePlace`, `names`: the names of a text, and where they stand;
* `namePlace?_of_readSimple`: what a condition says of the name that it starts with;
* `exists_mem_names_of_ofText`: every name that is read stands in the text;
* `isSpelled_iff_of_ofText`: the names that are spelled as they should be;
* `not_isSpelled_of_ofText`: a class name that starts with a digit.
-/

namespace CosmeticFilter
namespace Css

/-- A name as it stands in a selector. -/
structure NamePlace where
  /-- What it is the name of. -/
  kind : NameKind
  /-- The text from the name on. -/
  text : Text
  deriving DecidableEq, Repr

namespace NamePlace

/-- The name, decoded; in small letters if letter case does not count. -/
def name (n : NamePlace) : Text :=
  if n.kind = .typeName ∨ n.kind = .attributeName then Text.lower (takeIdent n.text).1
  else (takeIdent n.text).1

/-- What stands behind the name. -/
def rest (n : NamePlace) : Text := (takeIdent n.text).2

/-- The name is spelled by a run that is not empty; unless it is an id, it is an identifier. -/
structure IsSpelled (n : NamePlace) : Prop where
  /-- It is a run of name characters and escapes. -/
  run : NameRun n.text n.rest
  /-- It is not empty. -/
  nonempty : n.rest.length < n.text.length
  /-- It starts like an identifier. -/
  start : n.kind ≠ .id → StartsIdent n.text

/-- A name that is no id starts with a digit, or with a hyphen that starts no identifier. -/
def isLoose (n : NamePlace) : Bool := n.kind != .id && startsLoosely n.text

/-- What the reader asks of a name. -/
structure IsRead (n : NamePlace) : Prop where
  /-- It is not empty. -/
  nonempty : (takeIdent n.text).1 ≠ []
  /-- A type name starts like an identifier. -/
  type : n.kind = .typeName → startsIdent n.text = true
  /-- A pseudo-class or a pseudo-element has a name that is known. -/
  known : n.kind = .pseudoClassName →
    isPseudoClass (takeIdent n.text).1 = true ∨ isPseudoElement (takeIdent n.text).1 = true

end NamePlace

/-- The name that a condition starts with, or the name of the attribute that it asks for. -/
def namePlace? : Text → Option NamePlace
  | [] => none
  | c :: r =>
    if c = '*' then none
    else if c = '.' then some ⟨.className, r⟩
    else if c = '#' then some ⟨.id, r⟩
    else if c = '[' then some ⟨.attributeName, Text.trimStart r⟩
    else if c = ':' then some ⟨.pseudoClassName, if r.head? = some ':' then r.tail else r⟩
    else some ⟨.typeName, c :: r⟩

/-- The names in the conditions of a compound. -/
def namesOfConditions (isFirst : Bool) (t : Text) : List NamePlace :=
  match _read : readSimple isFirst t with
  | .ok (some (_, rest)) => (namePlace? t).toList ++ namesOfConditions false rest
  | _ => []
termination_by t.length
decreasing_by exact length_lt_of_readSimple _read

/-- The names in compounds that are joined by combinators. -/
def namesOfChain (t : Text) : List NamePlace :=
  match _compound : readCompound t with
  | .error _ => []
  | .ok (_, rest) =>
    match _combinator : readCombinator rest with
    | .ok (some (_, rest')) => namesOfConditions true t ++ namesOfChain rest'
    | _ => namesOfConditions true t
termination_by t.length
decreasing_by
  have := length_lt_of_readCompound _compound
  have := length_le_of_readCombinator _combinator
  omega

/-- The text behind a combinator in front. -/
def behindCombinator : Text → Text
  | [] => []
  | c :: r => if isCombinator c then Text.trimStart r else c :: r

/-- The names in a list of selectors. -/
def names (t : Text) : List NamePlace :=
  (parts t).flatMap fun part => namesOfChain (behindCombinator (Text.trim part))

/-- The name that a condition asks for. -/
def Simple.name? : Simple → Option (NameKind × Text)
  | tag name => some (.typeName, name)
  | hasClass name => some (.className, name)
  | hasId name => some (.id, name)
  | .attribute test => some (.attributeName, test.name)
  | universal | never | pseudo _ => none

variable {t rest : Text} {isFirst : Bool} {n : NamePlace}

/-! ### A condition and its name -/

theorem suffix_of_namePlace? (h : namePlace? t = some n) : n.text <:+ t := by
  cases t with
  | nil => exact absurd h (by simp [namePlace?])
  | cons c r =>
    have htail : r <:+ c :: r := List.suffix_cons c r
    rw [namePlace?] at h
    split_ifs at h <;> obtain rfl := Option.some_inj.mp h
    · exact htail
    · exact htail
    · exact (List.dropWhile_suffix _).trans htail
    · exact (List.tail_suffix r).trans htail
    · exact htail
    · exact List.suffix_rfl

/-- An attribute selector starts with a name. -/
theorem readIdent_of_readAttribute {a : AttributeTest} (h : readAttribute t = .ok (a, rest)) :
    ∃ name mid, readIdent .attributeName (Text.trimStart t) = .ok (name, mid) ∧
      a.name = Text.lower name := by
  rcases readAttribute_eq_ok_iff.mp h with
    ⟨name, mid, hname, -, rfl⟩ | ⟨name, k, value, mid, flag, htest, -, rfl⟩
  · exact ⟨name, mid, hname, rfl⟩
  · obtain ⟨⟨name', mid'⟩, hname, htest⟩ := Outcome.bind_eq_ok.mp htest
    obtain ⟨_, -, htest⟩ := Outcome.bind_eq_ok.mp htest
    obtain ⟨_, -, htest⟩ := Outcome.bind_eq_ok.mp htest
    obtain ⟨⟨rfl, -⟩, -⟩ := Prod.mk.inj (Except.ok.inj htest)
    exact ⟨_, mid', hname, rfl⟩

/-- No pseudo-class asks for a name. -/
theorem name?_of_pseudoClassOf {name : Text} {a : Option Text} {x : Simple}
    (h : pseudoClassOf name a = .ok x) : x.name? = none := by
  unfold pseudoClassOf at h
  simp only at h
  repeat' split at h
  all_goals cases h <;> rfl

/-- Behind one colon or two stands a known name. -/
theorem isRead_of_readPseudo {x : Simple} (h : readPseudo t = .ok (x, rest)) :
    (⟨.pseudoClassName, if t.head? = some ':' then t.tail else t⟩ : NamePlace).IsRead ∧
      x.name? = none := by
  have hknown : ∀ {isElement : Bool} {u : Text}, readNamed isElement u = .ok (x, rest) →
      (⟨.pseudoClassName, u⟩ : NamePlace).IsRead ∧ x.name? = none := by
    intro isElement u h
    obtain ⟨name, mid, a, hname, -, hcondition⟩ := readNamed_eq_ok.mp h
    obtain ⟨htake, hne⟩ := readIdent_eq_ok.mp hname
    obtain rfl : (takeIdent u).1 = name := congrArg Prod.fst htake
    unfold conditionOf at hcondition
    split at hcondition
    · split at hcondition
      · rename_i hmember
        rw [← Except.ok.inj hcondition]
        exact ⟨⟨hne, (fun hkind => by cases hkind), fun _ => .inr hmember⟩, rfl⟩
      · exact absurd hcondition (by simp)
    · exact ⟨⟨hne, (fun hkind => by cases hkind),
        fun _ => .inl (isPseudoClass_of_pseudoClassOf hcondition)⟩,
        name?_of_pseudoClassOf hcondition⟩
  rw [readPseudo_eq] at h
  split at h
  · rename_i helement
    rw [if_pos helement]
    exact hknown h
  · rename_i helement
    rw [if_neg helement]
    exact hknown h

/-- The name of a class, an id, a type or an attribute is read as it stands. -/
theorem isRead_of_readIdent {kind : NameKind} {name : Text} (hkind : kind ≠ .pseudoClassName)
    (hstart : kind = .typeName → startsIdent t = true) (h : readIdent kind t = .ok (name, rest)) :
    (⟨kind, t⟩ : NamePlace).IsRead ∧ (takeIdent t).1 = name := by
  obtain ⟨htake, hne⟩ := readIdent_eq_ok.mp h
  obtain rfl : (takeIdent t).1 = name := congrArg Prod.fst htake
  exact ⟨⟨hne, hstart, fun hpseudo => absurd hpseudo hkind⟩, rfl⟩

/-- A condition is `*`, or it starts with a name that the reader may take; and a name that it asks
for is this one. -/
theorem namePlace?_of_readSimple {x : Simple} (h : readSimple isFirst t = .ok (some (x, rest))) :
    (namePlace? t = none ∧ x = .universal) ∨
      ∃ n, namePlace? t = some n ∧ n.IsRead ∧ ∀ m ∈ x.name?, m = (n.kind, n.name) := by
  cases readsSimple_of_readSimple h with
  | universal => exact .inl ⟨rfl, rfl⟩
  | hasClass hname =>
    obtain ⟨hn, rfl⟩ := isRead_of_readIdent (by decide) (fun hkind => by cases hkind) hname
    exact .inr ⟨_, rfl, hn, fun m hm => (Option.some_inj.mp hm).symm⟩
  | hasId hname =>
    obtain ⟨hn, rfl⟩ := isRead_of_readIdent (by decide) (fun hkind => by cases hkind) hname
    exact .inr ⟨_, rfl, hn, fun m hm => (Option.some_inj.mp hm).symm⟩
  | test hread =>
    obtain ⟨name, mid, hname, ha⟩ := readIdent_of_readAttribute hread
    obtain ⟨hn, rfl⟩ := isRead_of_readIdent (by decide) (fun hkind => by cases hkind) hname
    refine .inr ⟨_, rfl, hn, fun m hm => ?_⟩
    rw [← Option.some_inj.mp hm, ha]
    rfl
  | pseudo hread =>
    obtain ⟨hn, hnone⟩ := isRead_of_readPseudo hread
    refine .inr ⟨_, rfl, hn, fun m hm => ?_⟩
    rw [hnone] at hm
    cases hm
  | tag hstart hname =>
    obtain ⟨hn, rfl⟩ := isRead_of_readIdent (by decide) (fun _ => hstart) hname
    have hmark := ne_mark_of_startsIdent hstart
    refine .inr ⟨_, ?_, hn, fun m hm => (Option.some_inj.mp hm).symm⟩
    rw [namePlace?, if_neg (hmark _ (by simp)), if_neg (hmark _ (by simp)),
      if_neg (hmark _ (by simp)), if_neg (hmark _ (by simp)), if_neg (hmark _ (by simp))]

/-! ### The names of compounds and selectors -/

/-- A condition that is read in the text starts with the name. -/
def IsNameIn (n : NamePlace) (t : Text) : Prop :=
  ∃ u isFirst x rest, u <:+: t ∧ readSimple isFirst u = .ok (some (x, rest)) ∧
    namePlace? u = some n

theorem IsNameIn.mono {r : Text} (h : IsNameIn n r) (hr : r <:+: t) : IsNameIn n t := by
  obtain ⟨u, isFirst, x, rest, hu, hread, hplace⟩ := h
  exact ⟨u, isFirst, x, rest, hu.trans hr, hread, hplace⟩

theorem IsNameIn.isRead (h : IsNameIn n t) : n.IsRead := by
  obtain ⟨u, isFirst, x, rest, -, hread, hplace⟩ := h
  rcases namePlace?_of_readSimple hread with ⟨hnone, -⟩ | ⟨n', hplace', hn', -⟩
  · rw [hplace] at hnone
    cases hnone
  · obtain rfl := Option.some_inj.mp (hplace.symm.trans hplace')
    exact hn'

theorem IsNameIn.infix_text (h : IsNameIn n t) : n.text <:+: t := by
  obtain ⟨u, -, -, -, hu, -, hplace⟩ := h
  exact (suffix_of_namePlace? hplace).isInfix.trans hu

theorem namesOfConditions_of_some {x : Simple} (h : readSimple isFirst t = .ok (some (x, rest))) :
    namesOfConditions isFirst t = (namePlace? t).toList ++ namesOfConditions false rest := by
  rw [namesOfConditions]
  split
  · rename_i heq
    rw [h] at heq
    obtain ⟨rfl, rfl⟩ := Prod.mk.inj (Option.some_inj.mp (Except.ok.inj heq))
    rfl
  · rename_i hne
    exact absurd h (hne x rest)

theorem isNameIn_of_mem_namesOfConditions (h : n ∈ namesOfConditions isFirst t) : IsNameIn n t := by
  fun_induction namesOfConditions isFirst t with
  | case1 isFirst t x rest hread ih =>
    rcases List.mem_append.mp h with hplace | hmore
    · exact ⟨t, isFirst, x, rest, List.infix_rfl, hread, Option.mem_toList.mp hplace⟩
    · exact (ih hmore).mono (isRest_of_readSimple hread).suffix.isInfix
  | case2 => exact absurd h List.not_mem_nil

theorem isNameIn_of_mem_namesOfChain (h : n ∈ namesOfChain t) : IsNameIn n t := by
  fun_induction namesOfChain t with
  | case1 => exact absurd h List.not_mem_nil
  | case2 t x mid hcompound k rest hcombinator ih =>
    rcases List.mem_append.mp h with hfirst | hmore
    · exact isNameIn_of_mem_namesOfConditions hfirst
    · have hmid := (isRest_of_readConditions (readCompound_eq_ok.mp hcompound).1).suffix
      have hrest := (suffix_of_readCombinator hcombinator).1
      exact (ih hmore).mono (hrest.trans hmid).isInfix
  | case3 => exact isNameIn_of_mem_namesOfConditions h

/-- Every name of a list is taken by the reader where it stands. -/
theorem isNameIn_of_mem_names (h : n ∈ names t) : IsNameIn n t := by
  obtain ⟨part, hpart, hmem⟩ := List.mem_flatMap.mp h
  have hbehind : ∀ u, behindCombinator u <:+ u := by
    intro u
    cases u with
    | nil => exact List.suffix_rfl
    | cons c r =>
      rw [behindCombinator]
      split
      · exact (List.dropWhile_suffix _).trans (List.suffix_cons c r)
      · exact List.suffix_rfl
  have htrim := (Text.infix_trim part).trans (Nesting.infix_of_mem_split hpart)
  exact (isNameIn_of_mem_namesOfChain hmem).mono ((hbehind _).isInfix.trans htrim)

/-- The names that the conditions of a compound ask for are among these. -/
def AreNamed (x : Compound) (ns : List NamePlace) : Prop :=
  ∀ a ∈ x, ∀ m ∈ a.name?, ∃ n ∈ ns, m = (n.kind, n.name)

theorem AreNamed.mono {x : Compound} {ns ns' : List NamePlace} (h : AreNamed x ns)
    (hsub : ns ⊆ ns') : AreNamed x ns' := by
  intro a ha m hm
  obtain ⟨n, hn, heq⟩ := h a ha m hm
  exact ⟨n, hsub hn, heq⟩

theorem areNamed_of_readConditions {x : Compound} (h : readConditions isFirst t = .ok (x, rest)) :
    AreNamed x (namesOfConditions isFirst t) := by
  have hread := readsConditions_of_readConditions h
  clear h
  induction hread with
  | done => exact fun a ha => absurd ha List.not_mem_nil
  | more hsome _ ih =>
    rw [namesOfConditions_of_some hsome]
    intro a ha m hm
    rcases List.mem_cons.mp ha with rfl | ha
    · rcases namePlace?_of_readSimple hsome with ⟨-, rfl⟩ | ⟨n, hplace, -, hname⟩
      · cases hm
      · exact ⟨n, List.mem_append_left _ (Option.mem_toList.mpr hplace), hname m hm⟩
    · obtain ⟨n, hn, heq⟩ := ih a ha m hm
      exact ⟨n, List.mem_append_right _ hn, heq⟩

/-- The first compound has its names at the start of the chain, and the others behind it. -/
theorem namesOfChain_of_readCompound {x : Compound} (h : readCompound t = .ok (x, rest)) :
    namesOfConditions true t ⊆ namesOfChain t ∧
      ∀ k rest', readCombinator rest = .ok (some (k, rest')) →
        namesOfChain rest' ⊆ namesOfChain t := by
  rw [namesOfChain]
  split
  · rename_i heq
    rw [h] at heq
    cases heq
  · rename_i x' mid heq
    obtain ⟨rfl, rfl⟩ := Prod.mk.inj (Except.ok.inj (h.symm.trans heq))
    split
    · rename_i k rest' hcombinator
      refine ⟨List.subset_append_left _ _, fun k' rest'' h' => ?_⟩
      obtain ⟨rfl, rfl⟩ := Prod.mk.inj (Option.some_inj.mp (Except.ok.inj (h'.symm.trans hcombinator)))
      exact List.subset_append_right _ _
    · rename_i hne
      exact ⟨List.Subset.refl _, fun k rest' h' => absurd h' (hne k rest')⟩

/-- Every name that a chain asks for stands in it, or among the compounds to the left of it. -/
theorem areNamed_of_readChain {left : List (Combinator × Compound)} {s : Complex}
    {ns : List NamePlace} (hsub : namesOfChain t ⊆ ns) (hleft : ∀ p ∈ left, AreNamed p.2 ns)
    (h : readChain left t = .ok s) : ∀ x ∈ s.compounds, AreNamed x ns := by
  have hread := readsChain_of_readChain h
  clear h
  induction hread with
  | last hcompound _ =>
    obtain ⟨hfirst, -⟩ := namesOfChain_of_readCompound hcompound
    intro x hx
    rcases List.mem_cons.mp hx with rfl | hx
    · exact (areNamed_of_readConditions (readCompound_eq_ok.mp hcompound).1).mono
        (List.Subset.trans hfirst hsub)
    · obtain ⟨p, hp, rfl⟩ := List.mem_map.mp hx
      exact hleft p hp
  | more hcompound hcombinator _ ih =>
    obtain ⟨hfirst, hothers⟩ := namesOfChain_of_readCompound hcompound
    have hnamed := (areNamed_of_readConditions (readCompound_eq_ok.mp hcompound).1).mono
      (List.Subset.trans hfirst hsub)
    exact ih (List.Subset.trans (hothers _ _ hcombinator) hsub)
      (List.forall_mem_cons.mpr ⟨hnamed, hleft⟩)

theorem areNamed_of_complex {x : Complex} (h : Complex.ofText t = .ok x) :
    ∀ c ∈ x.compounds, AreNamed c (namesOfChain (behindCombinator (Text.trim t))) := by
  have hnil : ∀ {u : Text} {y : Complex}, readChain [] u = .ok y →
      ∀ c ∈ y.compounds, AreNamed c (namesOfChain u) :=
    areNamed_of_readChain (List.Subset.refl _) fun p hp => absurd hp List.not_mem_nil
  cases isRelative_of_ofText h with
  | @led c r k y heq hk hread hx _ =>
    have hcombinator : isCombinator c = true := by
      rw [← Combinator.ofChar?_isSome, hk]
      rfl
    rw [heq, behindCombinator, if_pos hcombinator, hx]
    intro d hd
    rw [Complex.behindScope, Complex.compounds, List.map_append, ← List.cons_append] at hd
    rcases List.mem_append.mp hd with hd | hd
    · exact hnil hread d hd
    · -- `:scope` has no name of its own
      rw [List.map_singleton, List.mem_singleton] at hd
      subst hd
      intro a ha m hm
      rw [List.mem_singleton.mp ha] at hm
      cases hm
  | @bare c r heq hc hread _ =>
    rw [heq, behindCombinator, hc, ← heq]
    exact hnil hread

/-- Every name that a selector asks for stands in its text. -/
theorem exists_mem_names_of_ofText {s : Selector} (h : Selector.ofText t = .ok s) :
    ∀ x ∈ s.alternatives, ∀ c ∈ x.compounds, AreNamed c (names t) := by
  intro x hx c hc
  obtain ⟨part, hpart, hread⟩ := (mem_alternatives_iff h).mp hx
  refine (areNamed_of_complex hread c hc).mono fun n hn => ?_
  exact List.mem_flatMap.mpr ⟨part, hpart, hn⟩

/-! ### How names are spelled -/

/-- The names of pseudo-classes and pseudo-elements start with a letter. -/
theorem isLower_of_known {name : Text}
    (h : isPseudoClass name = true ∨ isPseudoElement name = true) :
    (Text.lower name).head?.any Char.isLower = true := by
  have hlist : ∀ u ∈ structuralNames ++ stateNames ++ legacyElementNames ++ elementNames,
      u.head?.any Char.isLower = true := by decide +kernel
  refine hlist _ ?_
  simpa only [isPseudoClass, isPseudoElement, Bool.or_eq_true, List.contains_iff_mem,
    List.mem_append] using h

/-- A digit or a hyphen in front is the first character of the name. -/
theorem not_isLower_of_startsLoosely (h : startsLoosely t = true) :
    (Text.lower (takeIdent t).1).head?.any Char.isLower = false := by
  obtain ⟨c, r, rfl, hc⟩ := exists_cons_of_startsLoosely h
  obtain ⟨-, hlower, hescape, hident⟩ := digit_or_hyphen hc
  rw [takeIdent_cons hescape, if_pos hident, Text.onto_fst, Text.lower, List.map_cons,
    List.head?_cons, Option.any_some, hlower]

namespace NamePlace.IsRead

theorem length_rest_lt (hn : n.IsRead) : n.rest.length < n.text.length :=
  length_takeIdent_snd_lt hn.nonempty

/-- In a tame text, a name is spelled as it should be unless it is loose. -/
theorem isSpelled_iff (hn : n.IsRead) (ht : IsTame n.text) : n.IsSpelled ↔ n.isLoose = false := by
  have hstart := startsIdent_iff_not_startsLoosely ht hn.nonempty
  rw [isLoose, Bool.and_eq_false_imp, bne_iff_ne]
  constructor
  · exact fun h hkind => hstart.mp (h.start hkind)
  · exact fun h => ⟨nameRun_takeIdent ht, hn.length_rest_lt, fun hkind => hstart.mpr (h hkind)⟩

/-- Where an identifier is asked for, or a known name, no name is loose; and no id is. -/
theorem isLoose_eq_false (hn : n.IsRead) (ht : IsTame n.text)
    (hkind : n.kind = .typeName ∨ n.kind = .pseudoClassName ∨ n.kind = .id) :
    n.isLoose = false := by
  rw [isLoose, Bool.and_eq_false_imp, bne_iff_ne]
  intro hid
  rcases hkind with htype | hpseudo | hkind
  · exact (startsIdent_iff_not_startsLoosely ht hn.nonempty).mp (.of_startsIdent ht (hn.type htype))
  · refine Bool.eq_false_iff.mpr fun hloose => ?_
    have hletter := isLower_of_known (hn.known hpseudo)
    rw [not_isLower_of_startsLoosely hloose] at hletter
    cases hletter
  · exact absurd hkind hid

end NamePlace.IsRead

/-- **How names are spelled.** Every name that a selector asks for stands in its text. A name there
is a run of name characters and escapes. The names of types, pseudo-classes and pseudo-elements are
identifiers, and ids are runs; the names of classes and attributes are identifiers exactly if they
are not loose. -/
theorem isSpelled_iff_of_ofText {t : Text} {s : Selector} (h : Selector.ofText t = .ok s)
    (ht : IsTame t) :
    (∀ x ∈ s.alternatives, ∀ c ∈ x.compounds, AreNamed c (names t)) ∧
      ∀ n ∈ names t, NameRun n.text n.rest ∧
        (n.kind = .typeName ∨ n.kind = .pseudoClassName ∨ n.kind = .id → n.IsSpelled) ∧
        (n.IsSpelled ↔ n.isLoose = false) := by
  refine ⟨exists_mem_names_of_ofText h, fun n hn => ?_⟩
  have hname := isNameIn_of_mem_names hn
  have htext := ht.of_infix hname.infix_text
  have hiff := hname.isRead.isSpelled_iff htext
  exact ⟨nameRun_takeIdent htext, fun hkind => hiff.mpr (hname.isRead.isLoose_eq_false htext hkind),
    hiff⟩

/-- Escapes, capital letters, and an id that starts with a digit. -/
theorem isSpelled_iff_of_ofText_escapedClass :
    (names "> P.\\31 0#1:HOVER, [-x=1]::\\62 efore".toList).map (fun n => (n.kind, n.name)) =
        [(.typeName, "p".toList), (.className, "10".toList), (.id, "1".toList),
          (.pseudoClassName, "HOVER".toList), (.attributeName, "-x".toList),
          (.pseudoClassName, "before".toList)] ∧
      ∀ n ∈ names "> P.\\31 0#1:HOVER, [-x=1]::\\62 efore".toList, n.IsSpelled := by
  have hread : Selector.ofText "> P.\\31 0#1:HOVER, [-x=1]::\\62 efore".toList = .ok
      ⟨[⟨[.tag "p".toList, .hasClass "10".toList, .hasId "1".toList, .never],
          [(.child, [.pseudo .scope])]⟩,
        ⟨[.attribute ⟨"-x".toList, some (.equals, "1".toList), false⟩, .never], []⟩]⟩ := by
    decide +kernel
  obtain ⟨-, hnames⟩ := isSpelled_iff_of_ofText hread (by decide +kernel)
  refine ⟨by decide +kernel, fun n hn => (hnames n hn).2.2.mpr ?_⟩
  have hloose : ∀ n ∈ names "> P.\\31 0#1:HOVER, [-x=1]::\\62 efore".toList,
      n.isLoose = false := by decide +kernel
  exact hloose n hn

/-- **A name that is no identifier.** A class name may start with a digit. -/
theorem not_isSpelled_of_ofText :
    ¬ ∀ (t : Text) (s : Selector), Selector.ofText t = .ok s → ∀ n ∈ names t, n.IsSpelled := by
  intro h
  have hread : Selector.ofText ".1a".toList = .ok ⟨[⟨[.hasClass "1a".toList], []⟩]⟩ := by
    decide +kernel
  have hspelled := h _ _ hread ⟨.className, "1a".toList⟩ (by decide +kernel)
  cases hspelled.start (by decide) with
  | letter hc => exact absurd hc (by decide)

end Css
end CosmeticFilter
