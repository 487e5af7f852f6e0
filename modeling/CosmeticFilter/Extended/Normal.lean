import CosmeticFilter.Text.Nesting

/-!
# Normal form of selector texts

Two texts that differ only in blanks outside quotes and brackets are the same selector. The normal
form has one space for each run of such blanks, and none at the ends.

* `normalForm`: the normal form of a text.
-/

namespace CosmeticFilter
namespace Extended

/-- The normal form of the rest of a text, where `owed` says whether blanks have just been passed
over. -/
def normalFrom (s : Nesting) (owed : Bool) : Text → Text
  | [] => []
  | c :: r =>
    if s.isTop && Text.isBlank c then normalFrom s true r
    else (if owed then [' '] else []) ++ c :: normalFrom (s.step .roundAndSquare c) false r

/-- The normal form of a selector text. -/
def normalForm (t : Text) : Text := normalFrom .top false (Text.trim t)

end Extended
end CosmeticFilter
