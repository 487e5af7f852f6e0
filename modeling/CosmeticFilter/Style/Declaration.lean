import CosmeticFilter.Text.Nesting

/-!
# Declaration blocks

A declaration block is a list of declarations `property: value` that semicolons separate. Neither a
semicolon nor a colon counts inside quotes or round brackets or behind a backslash, and empty
declarations are passed over. One malformed declaration spoils the whole block.

* `Declaration`: a property and its value;
* `Declaration.readBlock`: reads a block.
-/

namespace CosmeticFilter

/-- A property, in small letters, and its value. -/
structure Declaration where
  /-- The name of the property. -/
  property : Text
  /-- What it is set to. -/
  value : Text
  deriving DecidableEq, Repr

/-- Why a text is no declaration block. -/
inductive StyleError where
  /-- A value without a property. -/
  | missingProperty (declaration : Text)
  /-- A property without a value. -/
  | missingValue (property : Text)
  /-- There is no declaration. -/
  | emptyBlock
  /-- A declaration without a colon. -/
  | unclosed (declaration : Text)
  deriving DecidableEq, Repr

/-- The wording of an error. -/
def StyleError.message : StyleError → Text
  | missingProperty declaration =>
    "missing property in declaration ".toList ++ Text.ticked declaration
  | missingValue property => "missing value for property ".toList ++ Text.ticked property
  | emptyBlock => "empty declaration block".toList
  | unclosed declaration => "unclosed declaration ".toList ++ Text.ticked declaration

namespace Declaration

/-- What stands before the first semicolon that counts, and what stands after it. -/
def untilSemicolon (t : Text) : Text × Text :=
  match Nesting.cut .round (· == ';') .top t with
  | some (before, _, after) => (before, after)
  | none => (t, [])

/-- A declaration, from what stands before its colon and what stands after it. -/
def ofParts (property value : Text) : Except StyleError Declaration :=
  if Text.trim property = [] then
    .error (.missingProperty (Text.trim (property ++ ':' :: value)))
  else if Text.trim value = [] then .error (.missingValue (Text.lower (Text.trim property)))
  else .ok ⟨Text.lower (Text.trim property), Text.trim value⟩

/-- The text from the next declaration on. -/
def skipSeparators (t : Text) : Text := t.dropWhile fun c => Text.isBlank c || c == ';'

theorem length_skipSeparators_le (t : Text) : (skipSeparators t).length ≤ t.length :=
  (List.dropWhile_sublist _).length_le

theorem length_untilSemicolon_le (t : Text) : (untilSemicolon t).2.length ≤ t.length := by
  unfold untilSemicolon
  split
  · rename_i before c after found
    rw [Nesting.cut_eq_some found]
    simp only [List.length_append, List.length_cons]
    omega
  · simp

/-- Reads declarations to the end of the text. -/
def readAll (t : Text) : Except StyleError (List Declaration) :=
  if skipSeparators t = [] then .ok []
  else match _cut : Nesting.cut .round (fun c => c == ':' || c == ';') .top (skipSeparators t) with
    | none => .error (.unclosed (Text.trim (untilSemicolon (skipSeparators t)).1))
    | some (property, sign, after) =>
      if sign = ';' then .error (.unclosed (Text.trim (untilSemicolon (skipSeparators t)).1))
      else match ofParts property (untilSemicolon after).1 with
        | .error e => .error e
        | .ok d => (readAll (untilSemicolon after).2).map (d :: ·)
termination_by t.length
decreasing_by
  have h₁ := congrArg List.length (Nesting.cut_eq_some _cut)
  have h₂ := length_untilSemicolon_le after
  have h₃ := length_skipSeparators_le t
  simp only [List.length_append, List.length_cons] at h₁
  omega

/-- Reads a declaration block; `mayBeEmpty` says whether it may hold no declaration. -/
def readBlock (mayBeEmpty : Bool) (t : Text) : Except StyleError (List Declaration) :=
  match readAll t with
  | .error e => .error e
  | .ok [] => if mayBeEmpty then .ok [] else .error .emptyBlock
  | .ok (d :: ds) => .ok (d :: ds)

end Declaration
end CosmeticFilter
