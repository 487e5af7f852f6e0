import CosmeticFilter.Extended.Normal
import CosmeticFilter.Extended.Reader

/-!
# Cache of selectors

A style sheet repeats its selectors, and finding out where a selector ends means reading it more
than once. The cache keeps what each text was read as, refusals included, under the normal form of
the text.

* `Cache.read`: what a text is read as, and the cache that knows it.
-/

namespace CosmeticFilter
namespace Extended

/-- What texts were read as, the latest first. -/
structure Cache where
  /-- The normal forms, and what was read. -/
  entries : List (Text × Except Error Selector)

namespace Cache

/-- Nothing has been read. -/
def empty : Cache := ⟨[]⟩

/-- How many texts have been read. -/
def size (c : Cache) : Nat := c.entries.length

/-- What is known of a text. -/
def find? (c : Cache) (t : Text) : Option (Except Error Selector) :=
  c.entries.lookup (normalForm t)

/-- What a text is read as. A text with the normal form of an earlier one is not read again. -/
def read (c : Cache) (t : Text) : Except Error Selector × Cache :=
  match c.find? t with
  | some known => (known, c)
  | none => (Selector.ofText t, ⟨(normalForm t, Selector.ofText t) :: c.entries⟩)

end Cache
end Extended
end CosmeticFilter
