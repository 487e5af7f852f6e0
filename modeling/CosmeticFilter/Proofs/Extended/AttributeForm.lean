import CosmeticFilter.Proofs.Extended.Removals

/-!
# The attribute form of a pseudo-class

An extended pseudo-class can be written as `:name(argument)` or as `[-ext-name="argument"]`. The two
reach the reader by different ways: the argument is the content of round brackets, where brackets
are counted and a quote opens a string only where a value may start, or a quoted value within square
brackets, whose name, equals sign and quotes have to be taken off. Without quotes and backslashes in
the argument, both come to the same pseudo-class with the same argument, and what is read from there
on is the same.

* `colonForm`, `attributeForm`: the two forms;
* `groupContent_attributeContent`: the content of the square brackets;
* `addAttribute_attributeContent`: the name and the argument are found in it;
* `step_attributeForm`, `piecesIn_attributeForm`: the two forms as pieces of a text;
* `readAll_attributeForm`: a text that goes on with one of the forms;
* `ofText_attributeForm`: the same selector, or the same error.
-/

namespace CosmeticFilter
namespace Extended

variable {inner : BranchReader} {s : Scope} {S A w t u z : Text} {name : Name}

/-- The form with a colon. -/
def colonForm (w A : Text) : Text := ':' :: (w ++ '(' :: (A ++ [')']))

/-- What stands in the square brackets of the attribute form. -/
def attributeContent (w A : Text) : Text :=
  Draft.attributeLead ++ (w ++ '=' :: '"' :: (A ++ ['"']))

/-- The form with square brackets. -/
def attributeForm (w A : Text) : Text := '[' :: (attributeContent w A ++ [']'])

/-! ### The content of the square brackets -/

/-- Up to a quote or a bracket, square brackets hold any characters. -/
theorem groupContent_square_append {x v : Text}
    (ht : ∀ c ∈ t, c ≠ '\\' ∧ c ≠ '"' ∧ c ≠ '\'' ∧ c ≠ ']')
    (h : ∀ p, groupContent .square ⟨0, none, p⟩ u = (x, v)) (p : Char) :
    groupContent .square ⟨0, none, p⟩ (t ++ u) = (t ++ x, v) := by
  induction t generalizing p with
  | nil => exact h p
  | cons c r ih =>
    obtain ⟨⟨hescape, hdouble, hsingle, hclose⟩, hr⟩ := List.forall_mem_cons.mp ht
    have hstep : Inside.step .square ⟨0, none, p⟩ c = some ⟨0, none, c⟩ := by
      simp [Inside.step, hdouble, hsingle, hclose]
    rw [List.cons_append, groupContent_cons hescape, hstep]
    dsimp only
    rw [ih hr]
    rfl

/-- A string in square brackets reaches up to its closing quote. -/
theorem groupContent_square_string (hA : ∀ c ∈ A, c ≠ '"' ∧ c ≠ '\\') (p : Char) :
    groupContent .square ⟨0, some '"', p⟩ (A ++ '"' :: ']' :: z) = (A ++ ['"'], ']' :: z) := by
  induction A generalizing p with
  | nil => rfl
  | cons c r ih =>
    obtain ⟨⟨hquote, hescape⟩, hr⟩ := List.forall_mem_cons.mp hA
    have hstep : Inside.step .square ⟨0, some '"', p⟩ c = some ⟨0, some '"', c⟩ := by
      simp [Inside.step, hquote]
    rw [List.cons_append, groupContent_cons hescape, hstep]
    dsimp only
    rw [ih hr]
    rfl

/-- The square brackets hold just what they should. -/
theorem groupContent_attributeContent (hname : Name.ofText? w = some name)
    (hA : ∀ c ∈ A, c ≠ '"' ∧ c ≠ '\\') :
    groupContent .square ⟨0, none, '['⟩ (attributeContent w A ++ ']' :: z) =
      (attributeContent w A, ']' :: z) := by
  have hsplit : ∀ v, attributeContent w A ++ v =
      (Draft.attributeLead ++ w ++ ['=']) ++ ('"' :: (A ++ '"' :: v)) := by
    simp [attributeContent]
  have hself : attributeContent w A =
      (Draft.attributeLead ++ w ++ ['=']) ++ ('"' :: (A ++ ['"'])) := by
    simp [attributeContent]
  rw [hsplit, hself]
  refine groupContent_square_append (fun c hc => ?_) (fun p => ?_) '['
  · have hplain : ∀ d ∈ Draft.attributeLead ++ ['='], d ≠ '\\' ∧ d ≠ '"' ∧ d ≠ '\'' ∧ d ≠ ']' :=
      List.forall_iff_forall_mem.mp (by decide)
    rw [List.append_assoc] at hc
    rcases List.mem_append.mp hc with hlead | hc
    · exact hplain c (List.mem_append_left _ hlead)
    · rcases List.mem_append.mp hc with hw | hequals
      · have hident := (isIdentChar_of_ofText? hname c hw).1
        refine ⟨?_, ?_, ?_, ?_⟩ <;> rintro rfl <;> exact absurd hident (by decide)
      · exact hplain c (List.mem_append_right _ hequals)
  · rw [groupContent_cons (by decide)]
    show Text.onto '"' (groupContent .square ⟨0, some '"', '"'⟩ _) = _
    rw [groupContent_square_string hA]
    rfl

/-- The argument is the whole content of its round brackets if these make one group. -/
theorem fills_of_chunks (h : chunks ('(' :: (A ++ [')'])) = [.group .parens A true]) :
    Inside.start.Fills A := by
  have hgroup := groupContent_append .parens ⟨0, none, '('⟩ (A ++ [')'])
  rw [chunks_of_group rfl] at h
  obtain ⟨hcontent, -⟩ := Chunk.group.inj (List.cons.inj h).1 |>.2
  rw [hcontent, List.append_cancel_left_eq] at hgroup
  exact Prod.ext hcontent hgroup

/-! ### The name and the argument -/

theorem dropEscapes_eq_self {c : Char} (ht : '\\' ∉ t) : Text.dropEscapes c t = t := by
  fun_induction Text.dropEscapes c t with
  | case1 => rfl
  | case2 => rfl
  | case3 x y r hescape ih => exact absurd (hescape.1 ▸ List.mem_cons_self) ht
  | case4 x y r hescape ih => rw [ih fun hmem => ht (List.mem_cons_of_mem x hmem)]

/-- The quotes around a value are taken off. -/
theorem unquote_quoted (hA : '\\' ∉ A) : Draft.unquote ('"' :: (A ++ ['"'])) = A := by
  have hstrip : Text.stripQuotes? ('"' :: (A ++ ['"'])) = some A := by
    rw [Text.stripQuotes?, if_pos ⟨.inl rfl, List.getLast?_concat⟩, List.dropLast_concat]
  unfold Draft.unquote
  rw [hstrip]
  exact dropEscapes_eq_self hA

/-- Nothing is trimmed off between two characters that are no blanks. -/
theorem trim_between {c d : Char} (hc : Text.isBlank c = false) (hd : Text.isBlank d = false) :
    Text.trim (c :: (t ++ [d])) = c :: (t ++ [d]) := by
  refine Text.trim_eq_self (fun e he => ?_) fun e he => ?_
  · rwa [← Option.some_inj.mp he]
  · rw [← List.cons_append, List.getLast?_concat] at he
    rwa [← Option.some_inj.mp he]

/-- The name and the value stand on either side of the equals sign. -/
theorem nameAndValue_quoted (hname : Name.ofText? w = some name) :
    Draft.nameAndValue (w ++ '=' :: '"' :: (A ++ ['"'])) = (w, '"' :: (A ++ ['"'])) := by
  have hident := isIdentChar_of_ofText? hname
  have hcut : Text.cutFirst (· == '=') (w ++ '=' :: '"' :: (A ++ ['"'])) =
      some (w, '"' :: (A ++ ['"'])) :=
    Text.cutFirst_eq_some_iff.mpr ⟨'=', rfl, fun c hc => beq_eq_false_iff_ne.mpr (by
      rintro rfl
      exact absurd (hident _ hc).1 (by decide)), rfl⟩
  have hw : Text.trim w = w := Text.trim_eq_self
    (fun c hc => (hident c (List.mem_of_head? hc)).2)
    fun c hc => (hident c (List.mem_of_getLast? hc)).2
  have hvalue : Text.trim ('"' :: (A ++ ['"'])) = '"' :: (A ++ ['"']) :=
    trim_between (by decide) (by decide)
  unfold Draft.nameAndValue
  rw [hcut, Option.map_some, Option.getD_some]
  dsimp only
  rw [hw, hvalue]

theorem extendedBody?_attributeContent (w A : Text) :
    Draft.extendedBody? (attributeContent w A) = some (w ++ '=' :: '"' :: (A ++ ['"'])) := by
  have htrim : Text.trim (attributeContent w A) = attributeContent w A := by
    have hends : attributeContent w A =
        '-' :: (("ext-".toList ++ (w ++ '=' :: '"' :: A)) ++ ['"']) := by
      simp [attributeContent, Draft.attributeLead]
    rw [hends]
    exact trim_between (by decide) (by decide)
  unfold Draft.extendedBody?
  dsimp only
  rw [htrim, attributeContent, List.take_left, List.drop_left, if_pos (by decide)]

/-- The attribute form adds the pseudo-class with its argument. -/
theorem addAttribute_attributeContent (hname : Name.ofText? w = some name) (hne : name ≠ .remove)
    (hA : '\\' ∉ A) (d : Draft) :
    d.addAttribute inner s (attributeContent w A) = d.addExtended inner s name A := by
  unfold Draft.addAttribute
  rw [extendedBody?_attributeContent]
  dsimp only
  rw [nameAndValue_quoted hname, hname]
  dsimp only
  rw [if_neg hne, unquote_quoted hA]

/-! ### The two forms in a text -/

/-- The two forms do the same to what has been read. -/
theorem step_attributeForm (hname : Name.ofText? w = some name) (hne : name ≠ .remove)
    (hA : '\\' ∉ A) (p : Progress) :
    p.step inner s (.attributeTest (attributeContent w A)) =
      p.step inner s (.pseudoClass w (.given A)) := by
  unfold Progress.step
  dsimp only
  rw [addAttribute_attributeContent hname hne hA, Draft.addPseudoClass, hname]

/-- The pieces of an attribute form behind a text that ends outside groups. -/
theorem piecesIn_attributeForm {f : Text} (hclosed : ∀ k ∈ chunks f, k.isClosed = true)
    (hescape : endsInEscape f = false) (hname : Name.ofText? w = some name)
    (hA : ∀ c ∈ A, c ≠ '"' ∧ c ≠ '\\') :
    piecesIn (f ++ attributeForm w A) = piecesIn f ++ [.attributeTest (attributeContent w A)] := by
  have hchunks : chunks (attributeForm w A) = [.group .square (attributeContent w A) true] := by
    unfold attributeForm
    rw [chunks_closed_group rfl (groupContent_attributeContent hname hA), chunks_nil]
  have hall : chunks (f ++ attributeForm w A) = chunks f ++ chunks (attributeForm w A) :=
    chunks_append hclosed hescape fun _ _ _ => rfl
  -- square brackets continue nothing that is held back
  have hfeed : ∀ h : Held, h.feed (.group .square (attributeContent w A) true) =
      (h.release ++ [.attributeTest (attributeContent w A)], .nothing) := by
    intro h
    cases h <;> rfl
  simp only [piecesIn_append hall, hchunks, piecesFrom, hfeed, piecesIn_eq f, Held.release,
    List.append_assoc, List.append_nil]

/-- What goes on with one form is read like what goes on with the other. -/
theorem readAll_attributeForm (hS : S = [] ∨ ∃ sel, Selector.ofText S = .ok sel)
    (hlast : S.getLast? ≠ some '\\') (hname : Name.ofText? w = some name) (hne : name ≠ .remove)
    (hA : ∀ c ∈ A, c ≠ '"' ∧ c ≠ '\\') (hfills : Inside.start.Fills A) :
    readAll .top (S ++ attributeForm w A) = readAll .top (S ++ colonForm w A) := by
  have hescape : endsInEscape S = false := by
    by_contra hends
    exact hlast (getLast?_of_escape (Bool.not_eq_false _ ▸ hends))
  obtain ⟨p, hstands⟩ : ∃ p, Stands readAll .top (Text.trimStart S) p := by
    rcases hS with rfl | ⟨sel, hsel⟩
    · exact ⟨_, .nil⟩
    · obtain ⟨p, hstands, -⟩ := exists_stands_of_readAll (Selector.ofText_eq_ok.mp hsel) hescape
      exact ⟨p, hstands⟩
  have hclosed := isClosed_of_run hstands.run
  have htrim : ∀ {c d : Char} {u : Text}, Text.isBlank c = false → Text.isBlank d = false →
      Text.trim (S ++ c :: (u ++ [d])) = Text.trimStart S ++ c :: (u ++ [d]) := by
    intro c d u hc hd
    rw [Text.trim_append_cons hc, Text.trimEnd_append_cons hd, Text.trimEnd_nil]
  have hcolon : colonForm w A = ':' :: ((w ++ '(' :: A) ++ [')']) := by simp [colonForm]
  have hread : ∀ {f : Text} {q : Piece}, Text.trim (S ++ f) = Text.trimStart S ++ f →
      piecesIn (Text.trimStart S ++ f) = piecesIn (Text.trimStart S) ++ [q] →
      readAll .top (S ++ f) = finish .top (p.step readAll .top q) := by
    intro f q htrim hpieces
    rw [readAll_eq, htrim]
    show finish .top ((piecesIn (Text.trimStart S ++ f)).foldlM _ _) = _
    rw [hpieces, List.foldlM_append, hstands.run]
    show finish .top ([q].foldlM (Progress.step readAll .top) p) = _
    rw [List.foldlM_cons]
    exact congrArg (finish .top) (bind_pure _)
  rw [hread (f := attributeForm w A) (htrim (by decide) (by decide))
      (piecesIn_attributeForm hclosed hstands.escape hname hA),
    hread (f := colonForm w A) (by rw [hcolon]; exact htrim (by decide) (by decide))
      (piecesIn_spelled hclosed hstands.escape hstands.heldIn_ne_colon hname hfills),
    step_attributeForm hname hne fun hmem => (hA _ hmem).2 rfl]

/-- **The attribute form is the colon form.** Behind a selector, or by itself, an extended
pseudo-class other than a removal means the same in both forms, whatever its name and its argument,
if the argument has neither a double quote nor a backslash in it and makes one group in round
brackets: the two texts are read as the same selector, or they fail for the same cause. -/
theorem ofText_attributeForm (hS : S = [] ∨ ∃ sel, Selector.ofText S = .ok sel)
    (hlast : S.getLast? ≠ some '\\') (hname : Name.ofText? w = some name) (hne : name ≠ .remove)
    (hA : ∀ c ∈ A, c ≠ '"' ∧ c ≠ '\\')
    (hgroup : chunks ('(' :: (A ++ [')'])) = [.group .parens A true]) :
    (∃ sel, Selector.ofText (S ++ attributeForm w A) = .ok sel ∧
        Selector.ofText (S ++ colonForm w A) = .ok sel) ∨
      ∃ cause, Selector.ofText (S ++ attributeForm w A) = .error ⟨S ++ attributeForm w A, cause⟩ ∧
        Selector.ofText (S ++ colonForm w A) = .error ⟨S ++ colonForm w A, cause⟩ := by
  have hread := readAll_attributeForm hS hlast hname hne hA (fills_of_chunks hgroup)
  rw [Selector.ofText_eq, Selector.ofText_eq, hread]
  cases readAll .top (S ++ colonForm w A) with
  | ok branches => exact .inl ⟨_, rfl, rfl⟩
  | error cause => exact .inr ⟨cause, rfl, rfl⟩

/-- A name in capitals, and an argument with a bracket in a string. -/
theorem ofText_attributeForm_bracketInString :
    (∃ sel, Selector.ofText "ul > li".toList = .ok sel) ∧ "ul > li".toList.getLast? ≠ some '\\' ∧
      Name.ofText? "HAS".toList = some .has ∧ Name.has ≠ .remove ∧
      (∀ c ∈ "> a[title=')'], b".toList, c ≠ '"' ∧ c ≠ '\\') ∧
      chunks "(> a[title=')'], b)".toList = [.group .parens "> a[title=')'], b".toList true] ∧
      ∃ sel, Selector.ofText "ul > li[-ext-HAS=\"> a[title=')'], b\"]".toList = .ok sel ∧
        Selector.ofText "ul > li:HAS(> a[title=')'], b)".toList = .ok sel := by
  have hS : ∃ sel, Selector.ofText "ul > li".toList = .ok sel := 
    ⟨⟨[[.fragment "ul > li".toList]]⟩, by decide +kernel⟩
  have hlast : "ul > li".toList.getLast? ≠ some '\\' := by decide
  have hname : Name.ofText? "HAS".toList = some .has := by decide
  have hA : ∀ c ∈ "> a[title=')'], b".toList, c ≠ '"' ∧ c ≠ '\\' :=
    List.forall_iff_forall_mem.mp (by decide)
  have hgroup : chunks "(> a[title=')'], b)".toList =
      [.group .parens "> a[title=')'], b".toList true] := by decide +kernel
  refine ⟨hS, hlast, hname, by decide, hA, hgroup, ?_⟩
  rcases ofText_attributeForm (.inr hS) hlast hname (by decide) hA hgroup with
    h | ⟨cause, -, herror⟩
  · exact h
  · have hread : (Selector.ofText "ul > li:HAS(> a[title=')'], b)".toList).isOk = true := by
      decide +kernel
    rw [show "ul > li:HAS(> a[title=')'], b)".toList = "ul > li".toList ++
      colonForm "HAS".toList "> a[title=')'], b".toList from rfl, herror] at hread
    cases hread

end Extended
end CosmeticFilter
