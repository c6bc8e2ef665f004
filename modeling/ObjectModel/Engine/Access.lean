import ObjectModel.Engine.Basic
import ObjectModel.Object.Array

/-!
# Reading and writing properties

The operations on objects that need no knowledge of proxies: reading through values, setting,
creating, defining and deleting with or without a throw, arrays and lists, and the two directions
between descriptors and the objects that describe them.
-/

namespace ObjectModel.Engine

variable (eng : Engine)

/-- The property of any value, read for the value itself. -/
def getV (v : Value) (k : Key) : Run Value := do
  let o ← toObject v
  eng.getFor o k v

def set (o : Ref) (k : Key) (v : Value) (throws : Bool) : Run Unit := do
  let done ← eng.setFor o k v (.object o)
  if !done && throws then Run.fail (.propertyNotSet ((← Run.heap).displayKey k))

def createDataProperty (o : Ref) (k : Key) (v : Value) : Run Bool :=
  eng.defineOwnProperty o k (.plain v)

def createDataPropertyOrThrow (o : Ref) (k : Key) (v : Value) : Run Unit := do
  unless ← eng.createDataProperty o k v do Run.fail .propertyNotCreated

def definePropertyOrThrow (o : Ref) (k : Key) (d : Descriptor) : Run Unit := do
  unless ← eng.defineOwnProperty o k d do
    Run.fail (.propertyNotDefined ((← Run.heap).displayKey k))

def deletePropertyOrThrow (o : Ref) (k : Key) : Run Unit := do
  unless ← eng.deleteProperty o k do Run.fail .propertyNotDeleted

/-- The method of a value; undefined and null count as none. -/
def getMethod (v : Value) (k : Key) : Run (Option Ref) := do
  let f ← eng.getV v k
  if f.isNullish then pure none
  else
    match ← Run.callable? f with
    | some f => pure (some f)
    | none => Run.fail .notCallable

def invoke (v : Value) (k : Key) (arguments : List Value) : Run Value := do
  let f ← eng.getV v k
  eng.call f v arguments

/-! ## New objects with plain properties -/

/-- Replaces an object by what `f` makes of it, unless that refuses. -/
def reviseObject (o : Ref) (f : Object → Option Object) : Run Bool := do
  match f (← Run.object o) with
  | some revised =>
    Run.update o fun _ => revised
    pure true
  | none => pure false

/-- Gives an object that is no proxy plain properties one after the other, an array's length
apart. -/
def addPlain (o : Ref) : List (Key × Value) → Run Unit
  | [] => pure ()
  | (k, v) :: rest => do
    unless ← reviseObject o fun a => a.defineStored? k (.plain v) do Run.fail .propertyNotCreated
    addPlain o rest

/-- A new object that inherits from the object prototype. -/
def newPlainObject (ps : List (Key × Value)) : Run Ref := do
  let o ← newObject (some Intrinsic.objectPrototype.ref)
  addPlain o ps
  pure o

/-- A new array, which the given values are stored in from the first position on. -/
def newArray (vs : List Value) : Run Ref := do
  let a ← newOfClass .arrayPrototype (.array 0 true)
  addPlain a (vs.zipIdx.map fun (v, i) => (.ofPosition i, v))
  pure a

/-! ## Lists -/

def lengthOfArrayLike (o : Ref) : Run Nat := do eng.toLength (← eng.get o .length)

/-- The elements at `count` positions from `start` on. -/
def elements (o : Ref) : Nat → Nat → Run (List Value)
  | 0, _ => pure []
  | count + 1, start => do
    let v ← eng.get o (.ofPosition start)
    return v :: (← elements o count (start + 1))

/-- The elements of an object with a length below `2 ^ 32 - 1`. -/
def listFromArrayLike (v : Value) : Run (List Value) := do
  match v with
  | .object o =>
    let length ← eng.lengthOfArrayLike o
    if indexLimit ≤ length then Run.fail .arrayLength else eng.elements o length 0
  | _ => Run.fail .listFromPrimitive

/-- Each value as a property key. -/
def toPropertyKeys : List Value → Run (List Key)
  | [] => pure []
  | v :: rest => do
    let k ← eng.toPropertyKey v
    return k :: (← toPropertyKeys rest)

/-! ## Descriptors as objects -/

/-- The object that describes a property. -/
def fromDescriptor (d : Descriptor) : Run Ref :=
  let accessor (f : Option Ref) : Value := f.elim .undefined .object
  newPlainObject <|
    (d.value.map fun v => (("value" : Key), v)).toList
      ++ (d.writable.map fun b => (("writable" : Key), Value.bool b)).toList
      ++ (d.get.map fun f => (("get" : Key), accessor f)).toList
      ++ (d.set.map fun f => (("set" : Key), accessor f)).toList
      ++ (d.enumerable.map fun b => (("enumerable" : Key), Value.bool b)).toList
      ++ (d.configurable.map fun b => (("configurable" : Key), Value.bool b)).toList

/-- The object that describes a property, or undefined for none. -/
def fromDescriptor? : Option Descriptor → Run Value
  | none => pure .undefined
  | some d => return .object (← fromDescriptor d)

/-- A field of a describing object, own or inherited. -/
def field? (o : Ref) (k : Key) : Run (Option Value) := do
  if ← eng.hasProperty o k then return some (← eng.get o k) else pure none

/-- An accessor function, or undefined. -/
def toAccessor (half : AccessorHalf) (v : Value) : Run (Option Ref) := do
  if v.isUndefined then pure none
  else
    match ← Run.callable? v with
    | some f => pure (some f)
    | none => Run.fail (.accessorNotCallable half)

def accessorField? (o : Ref) (k : Key) (half : AccessorHalf) : Run (Option (Option Ref)) := do
  match ← eng.field? o k with
  | none => pure none
  | some v => return some (← toAccessor half v)

/-- The descriptor that an object describes. -/
def toDescriptor (v : Value) : Run Descriptor := do
  match v with
  | .object o =>
    let enumerable := (← eng.field? o "enumerable").map Value.truthy
    let configurable := (← eng.field? o "configurable").map Value.truthy
    let value ← eng.field? o "value"
    let writable := (← eng.field? o "writable").map Value.truthy
    let get ← eng.accessorField? o "get" .getter
    let set ← eng.accessorField? o "set" .setter
    let d : Descriptor := { value, writable, get, set, enumerable, configurable }
    if d.isAccessor && d.isData then Run.fail .descriptorOfBothKinds else pure d
  | _ => Run.fail .descriptorNotObject

end ObjectModel.Engine
