import ObjectModel.Value

/-!
# Property keys

A property is named by a text or a symbol.  A text that is the decimal form of a natural number
below `2 ^ 32 - 1` is an array index and is kept as that number, so that keys can be ordered.
`Key.ofText` and `Key.toValue` undo each other: two names denote one key exactly when they are
equal texts.
-/

namespace ObjectModel

inductive Key where
  | index (i : Nat)
  | name (t : Text)
  | symbol (s : Symbol)
  deriving DecidableEq, Inhabited

/-- One more than the greatest array index. -/
def indexLimit : Nat := Number.maxWord

/-- The array index that a text is the decimal form of, if there is one. -/
def Text.arrayIndex? (t : Text) : Option Nat :=
  if t.isEmpty || 10 < t.length || !t.units.all isDigit then none
  else if 1 < t.length && t.units.head? == some 0x30 then none
  else
    let n := digitsValue t.units
    if n < indexLimit then some n else none

namespace Key

def ofText (t : Text) : Key :=
  match t.arrayIndex? with
  | some i => .index i
  | none => .name t

def ofString (s : String) : Key := ofText (Text.ofString s)

instance : Coe String Key := ⟨ofString⟩

/-- The key read at position `i` of a walk over an array; positions are counted in 32 bits. -/
def ofPosition (i : Nat) : Key := .index (i % (Number.maxWord + 1))

/-- The key as a language value, an index in decimal form. -/
def toValue : Key → Value
  | .index i => .text (Text.ofNat i)
  | .name t => .text t
  | .symbol s => .symbol s

def isIndex : Key → Bool
  | .index _ => true
  | _ => false

def isSymbol : Key → Bool
  | .symbol _ => true
  | _ => false

def index? : Key → Option Nat
  | .index i => some i
  | _ => none

/-- The key of an array's length. -/
def length : Key := ofString "length"

/-- The key of the iterator method. -/
def iterator : Key := .symbol Symbol.iterator

/-! ### An order of keys

Tables find a property by an order of all keys: indexes, then names by their units, then symbols.
Keys that compare equal are equal. -/

def rank : Key → Nat
  | .index _ => 0
  | .name _ => 1
  | .symbol _ => 2

def ordinal : Key → Nat
  | .index i => i
  | .name _ => 0
  | .symbol s => s.index

def units : Key → List UInt16
  | .name t => t.units
  | _ => []

instance : Ord Key :=
  ⟨compareLex (compareOn rank) (compareLex (compareOn ordinal) (compareOn units))⟩

instance : Std.TransOrd Key :=
  inferInstanceAs <| Std.TransCmp <|
    compareLex (compareOn rank) (compareLex (compareOn ordinal) (compareOn units))

theorem eq_of_rank_ordinal_units {j k : Key} (hr : j.rank = k.rank)
    (ho : j.ordinal = k.ordinal) (hu : j.units = k.units) : j = k := by
  cases j <;> cases k <;> simp_all [rank, ordinal, units]
  case name s t => cases s; cases t; simp_all
  case symbol s t => cases s; cases t; simp_all

instance : Std.LawfulEqOrd Key where
  eq_of_compare {j k} h := by
    have h : (compare j.rank k.rank).then
        ((compare j.ordinal k.ordinal).then (compare j.units k.units)) = .eq := h
    rw [Ordering.then_eq_eq, Ordering.then_eq_eq] at h
    obtain ⟨hr, ho, hu⟩ := h
    exact eq_of_rank_ordinal_units (Std.LawfulEqOrd.eq_of_compare hr)
      (Std.LawfulEqOrd.eq_of_compare ho) (Std.LawfulEqOrd.eq_of_compare hu)

end Key

/-! ## Names in object literals -/

namespace Text

def isIdentifierStart (u : UInt16) : Bool :=
  u == 0x5F || u == 0x24 || (0x41 ≤ u && u ≤ 0x5A) || (0x61 ≤ u && u ≤ 0x7A)

/-- The text is an identifier of ASCII letters, digits, `_` and `$`. -/
def isIdentifier (t : Text) : Bool :=
  match t.units with
  | [] => false
  | u :: rest => isIdentifierStart u && rest.all fun v => isIdentifierStart v || isDigit v

/-- The greatest index that is written without quotes. -/
def bareIndexLimit : Nat := 2147483647

/-- The text is the decimal form of a number up to `bareIndexLimit`. -/
def isBareIndex (t : Text) : Bool :=
  !t.isEmpty && t.length ≤ 10 && !(1 < t.length && t.units.head? == some 0x30)
    && t.units.all isDigit && digitsValue t.units ≤ bareIndexLimit

end Text

/-- The key as it stands before the colon of an object literal: bare when it is an identifier or
a small index, in single quotes otherwise.  Literals hold no symbol keys. -/
def Key.literalName : Key → Text
  | .index i =>
    if i ≤ Text.bareIndexLimit then Text.ofNat i
    else Text.quoteWith Text.singleQuote (Text.ofNat i)
  | .name t =>
    if t.isIdentifier || t.isBareIndex then t else Text.quoteWith Text.singleQuote t
  | .symbol _ => Text.empty

end ObjectModel
