import ObjectModel.Engine.Access

/-!
# Accessor methods

Defining and looking up one half of an accessor.  Definition with a nullish receiver falls on the
global object; a look-up passes over data properties and over accessors without that half.
-/

namespace ObjectModel

/-- The descriptor that defines one half. -/
def AccessorHalf.descriptor (half : AccessorHalf) (f : Option Ref) : Descriptor :=
  match half with
  | .getter => { get := some f, enumerable := some true, configurable := some true }
  | .setter => { set := some f, enumerable := some true, configurable := some true }

/-- The function of one half. -/
def AccessorHalf.pick (half : AccessorHalf) (d : Descriptor) : Option Ref :=
  match half with
  | .getter => d.get.join
  | .setter => d.set.join

namespace Engine

variable (eng : Engine)

def defineAccessor (half : AccessorHalf) (receiver key f : Value) : Run Unit := do
  let o ← if receiver.isNullish then pure Intrinsic.globalObject.ref else toObject receiver
  let f ←
    if f.isUndefined then pure none
    else
      match ← Run.callable? f with
      | some f => pure (some f)
      | none => Run.fail .accessorFunction
  let k ← eng.toPropertyKey key
  eng.definePropertyOrThrow o k (half.descriptor f)

/-- The first function of a half along a chain of objects. -/
def findAccessor (half : AccessorHalf) (k : Key) : List Ref → Run Value
  | [] => pure .undefined
  | o :: rest => do
    match (← eng.getOwnProperty o k).bind half.pick with
    | some f => pure (.object f)
    | none => findAccessor half k rest

def lookupAccessor (half : AccessorHalf) (receiver key : Value) : Run Value := do
  let o ← toObject receiver
  let k ← eng.toPropertyKey key
  eng.findAccessor half k ((← Run.heap).ancestors o)

end Engine

end ObjectModel
