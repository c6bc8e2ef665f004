import ObjectModel.Number.Decimal
import ObjectModel.Text.Quoted

/-!
# Language values

A value is undefined, null, a boolean, a number, a text, a symbol or an object.  Symbols and
objects are known by their place in the heap.

There is one not-a-number and a text is its units, so `SameValue` is equality of values;
`sameValueZero` joins the two zeros, and `looksEqual` also keeps not-a-number apart from itself.
-/

namespace ObjectModel

/-- The place that the last of `count` entries is known by.  Places are counted in 32 bits, and the
count stops at the greatest word: from there on a new entry is known by the place of the one before
it. -/
def lastPlace (count : Nat) : Nat := min count Number.maxWord - 1

/-- The place of an object in the heap. -/
structure Ref where
  index : Nat
  deriving DecidableEq, Inhabited

namespace Ref

/-- How a place is written in diagnostics. -/
def label (r : Ref) : String := "#" ++ toString r.index

/-- The place of the last of `count` entries. -/
def last? (count : Nat) : Option Ref := if count = 0 then none else some ⟨lastPlace count⟩

instance : Ord Ref := ⟨compareOn index⟩

instance : Std.TransOrd Ref := inferInstanceAs (Std.TransCmp (compareOn index))

instance : Std.LawfulEqOrd Ref where
  eq_of_compare {a b} h := by
    have h : compare a.index b.index = .eq := h
    exact congrArg Ref.mk (Std.LawfulEqOrd.eq_of_compare h)

end Ref

/-- The place of a symbol among the symbols. -/
structure Symbol where
  index : Nat
  deriving DecidableEq, Inhabited

namespace Symbol

/-- The well-known symbol that names the iterator method; it is allocated first. -/
def iterator : Symbol := ⟨0⟩

instance : Ord Symbol := ⟨compareOn index⟩

instance : Std.TransOrd Symbol := inferInstanceAs (Std.TransCmp (compareOn index))

instance : Std.LawfulEqOrd Symbol where
  eq_of_compare {a b} h := by
    have h : compare a.index b.index = .eq := h
    exact congrArg Symbol.mk (Std.LawfulEqOrd.eq_of_compare h)

end Symbol

inductive Value where
  | undefined
  | null
  | bool (b : Bool)
  | number (n : Number)
  | text (t : Text)
  | symbol (s : Symbol)
  | object (r : Ref)
  deriving DecidableEq, Inhabited

/-- The value inside a wrapper object. -/
inductive Primitive where
  | bool (b : Bool)
  | number (n : Number)
  | text (t : Text)
  | symbol (s : Symbol)
  deriving DecidableEq

def Primitive.toValue : Primitive → Value
  | .bool b => .bool b
  | .number n => .number n
  | .text t => .text t
  | .symbol s => .symbol s

namespace Value

def ofNat (n : Nat) : Value := .number (Number.ofNat n)

/-- Null stands for no object. -/
def ofRef? : Option Ref → Value
  | some r => .object r
  | none => .null

def ref? : Value → Option Ref
  | .object r => some r
  | _ => none

def primitive? : Value → Option Primitive
  | .bool b => some (.bool b)
  | .number n => some (.number n)
  | .text t => some (.text t)
  | .symbol s => some (.symbol s)
  | _ => none

def isNullish : Value → Bool
  | .undefined | .null => true
  | _ => false

def isUndefined : Value → Bool
  | .undefined => true
  | _ => false

/-- The boolean a value counts as. -/
def truthy : Value → Bool
  | .undefined | .null => false
  | .bool b => b
  | .number n => !(n.isZero || n == .nan)
  | .text t => !t.isEmpty
  | .symbol _ | .object _ => true

def sameValue (x y : Value) : Bool := x == y

def sameValueZero : Value → Value → Bool
  | .number x, .number y => x == y || (x.isZero && y.isZero)
  | x, y => x == y

/-- Equality by content, numbers as numbers. -/
def looksEqual : Value → Value → Bool
  | .number x, .number y => x.numericEq y
  | x, y => x == y

/-- The key a collection stores for this one: zero loses its sign. -/
def canonicalKey : Value → Value
  | .number n => if n.isZero then .number Number.zero else .number n
  | v => v

/-! ### An order of values

Collections find a member by an order of all values, first by kind and then by content.  It has no
meaning of its own; values that compare equal are equal. -/

def rank : Value → Nat
  | .undefined => 0
  | .null => 1
  | .bool _ => 2
  | .number _ => 3
  | .text _ => 4
  | .symbol _ => 5
  | .object _ => 6

def ordinal : Value → Nat
  | .bool b => b.toNat
  | .number n => n.ordinal
  | .symbol s => s.index
  | .object r => r.index
  | .undefined | .null | .text _ => 0

def units : Value → List UInt16
  | .text t => t.units
  | _ => []

instance : Ord Value :=
  ⟨compareLex (compareOn rank) (compareLex (compareOn ordinal) (compareOn units))⟩

instance : Std.TransOrd Value :=
  inferInstanceAs <| Std.TransCmp <|
    compareLex (compareOn rank) (compareLex (compareOn ordinal) (compareOn units))

theorem eq_of_rank_ordinal_units {x y : Value} (hr : x.rank = y.rank)
    (ho : x.ordinal = y.ordinal) (hu : x.units = y.units) : x = y := by
  cases x <;> cases y <;> simp_all [rank, ordinal, units]
  case bool b c => cases b <;> cases c <;> simp_all
  case number m n => exact Number.ordinal_inj ho
  case text s t => cases s; cases t; simp_all
  case symbol s t => cases s; cases t; simp_all
  case object s t => cases s; cases t; simp_all

instance : Std.LawfulEqOrd Value where
  eq_of_compare {x y} h := by
    have h : (compare x.rank y.rank).then
        ((compare x.ordinal y.ordinal).then (compare x.units y.units)) = .eq := h
    rw [Ordering.then_eq_eq, Ordering.then_eq_eq] at h
    obtain ⟨hr, ho, hu⟩ := h
    exact eq_of_rank_ordinal_units (Std.LawfulEqOrd.eq_of_compare hr)
      (Std.LawfulEqOrd.eq_of_compare ho) (Std.LawfulEqOrd.eq_of_compare hu)

end Value

end ObjectModel
