import ObjectModel.Text.Basic
/-!
# White space

The units with the Unicode property White_Space, all of them in the basic plane, and the removal
of such units at both ends of a text.
-/

namespace ObjectModel.Text

/-- The unit has the property White_Space. -/
def isBlank (u : UInt16) : Bool :=
  (0x09 ≤ u && u ≤ 0x0D) || u == 0x20 || u == 0x85 || u == 0xA0 || u == 0x1680
    || (0x2000 ≤ u && u ≤ 0x200A) || u == 0x2028 || u == 0x2029 || u == 0x202F
    || u == 0x205F || u == 0x3000

/-- The text without white space at either end. -/
def trim (t : Text) : Text :=
  ⟨((t.units.dropWhile isBlank).reverse.dropWhile isBlank).reverse⟩

end ObjectModel.Text
