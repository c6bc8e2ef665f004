import ObjectModel.Object

/-!
# Arrays

The length of an array stands apart from its stored properties.  It is above every stored index:
storing an element beyond it raises it, and lowering it removes the elements from the top until
one of them may not be removed.
-/

namespace ObjectModel.Object

def withLength (o : Object) (length : Nat) (writable : Bool) : Object :=
  { o with kind := .array length writable }

/-- Removes the elements at the given indexes in their order; with the index of the first that may
not be removed. -/
def deleteIndexes (o : Object) : List Nat → Object × Option Nat
  | [] => (o, none)
  | i :: rest =>
    match o.delete? (.index i) with
    | some o => o.deleteIndexes rest
    | none => (o, some i)

/-- Gives an array a smaller length; false if an element stopped it, which then
is the last one. -/
def shrink (o : Object) (length : Nat) (writable : Bool) : Object × Bool :=
  match o.deleteIndexes (o.properties.indexesFrom length).reverse with
  | (o, none) => (o.withLength length writable, true)
  | (o, some i) => (o.withLength (i + 1) writable, false)

/-- Gives an array another length; false if that is refused or only done in part. -/
def resize (o : Object) (length : Nat) (writable : Bool) : Object × Bool :=
  match o.kind with
  | .array old oldWritable =>
    if old ≤ length then
      if oldWritable then (o.withLength length writable, true)
      else (o, length == old && !writable)
    else if oldWritable then o.shrink length writable
    else (o, false)
  | _ => (o, false)

/-- Defines an array's length by a descriptor without a value, which can only make it read-only. -/
def restrictLength (o : Object) (d : Descriptor) : Object × Bool :=
  match o.kind with
  | .array length writable =>
    if d.configurable == some true || d.enumerable == some true || d.isAccessor then (o, false)
    else if !writable then (o, d.writable != some true)
    else (o.withLength length (d.writable != some false), true)
  | _ => (o, false)

/-- Defines an element of an array.  Beyond a read-only length, and from the greatest word on, there
are no new ones. -/
def defineElement? (o : Object) (i : Nat) (d : Descriptor) : Option Object :=
  match o.kind with
  | .array length writable =>
    if length ≤ i && (!writable || indexLimit ≤ i) then none
    else
      (o.define? (.index i) d).map fun o =>
        if length ≤ i then o.withLength (i + 1) writable else o
  | _ => o.define? (.index i) d

/-- Defines a property other than an array's length. -/
def defineStored? (o : Object) (k : Key) (d : Descriptor) : Option Object :=
  match k with
  | .index i => o.defineElement? i d
  | _ => o.define? k d

end ObjectModel.Object
