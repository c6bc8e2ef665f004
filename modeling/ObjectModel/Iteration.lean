import ObjectModel.Key

/-!
# Iteration

What a host iterator walks over and where it stands.  An iterator is fresh, then active with a
cursor, then exhausted, and an exhausted one stays so.
-/

namespace ObjectModel

inductive IterationSource where
  /-- The given values. -/
  | list (values : Array Value)
  /-- The elements of an array, whose length is read at every step. -/
  | arrayValues (array : Ref)
  /-- The positions below a length fixed at creation. -/
  | arrayKeys (length : Nat)
  /-- Position and element, below a length fixed at creation. -/
  | arrayEntries (array : Ref) (length : Nat)
  /-- The units of a text, each as a text. -/
  | codeUnits (units : Array UInt16)
  /-- Keys listed at creation; those deleted before they are reached are skipped. -/
  | objectKeys (object : Ref) (keys : Array Key)
  /-- The same with the property's value. -/
  | objectEntries (object : Ref) (keys : Array Key)
  /-- The live entries of a map. -/
  | mapEntries (map : Ref)
  /-- The live values of a set. -/
  | setValues (set : Ref)
  deriving Inhabited

inductive Cursor where
  | fresh
  | active (position : Nat)
  | exhausted
  deriving DecidableEq, Inhabited

/-- The position the next step looks at. -/
def Cursor.position? : Cursor → Option Nat
  | .fresh => some 0
  | .active position => some position
  | .exhausted => none

/-- What stands at a position, before any user code has run. -/
inductive Element where
  | finished
  | hole
  | value (v : Value)
  /-- The element of an array, if its length still reaches the position. -/
  | live (array : Ref)
  /-- Position and element of an array. -/
  | arrayEntry (array : Ref)
  /-- A listed key, with the property's value if `entry`. -/
  | ownKey (object : Ref) (key : Key) (entry : Bool)
  | pair (key value : Value)

end ObjectModel
