import ObjectModel.Engine.Access

/-!
# The internal methods of objects that are not proxies

Own properties are read from and written to the heap at once, an array's length apart, whose
definition converts a value first.  Looking up and assigning walk the prototype chain through the
engine, so that a proxy on the chain answers for itself.
-/

namespace ObjectModel.Engine

variable (eng : Engine)

/-- Replaces an object and gives the verdict that comes with the replacement. -/
def reviseWith (o : Ref) (f : Object → Object × Bool) : Run Bool := do
  let (revised, verdict) := f (← Run.object o)
  Run.update o fun _ => revised
  pure verdict

/-- Defines an array's length.  The value is converted twice, and both numbers must agree. -/
def defineLength (o : Ref) (d : Descriptor) : Run Bool := do
  match d.value with
  | none => reviseWith o fun a => a.restrictLength d
  | some v =>
    let length ← eng.toWord v
    let n ← eng.toNumber v
    if !n.numericEq (Number.ofNat length) then Run.fail .arrayLength
    else if d.configurable == some true || d.enumerable == some true then pure false
    else reviseWith o fun a => a.resize length (d.writable.getD true)

def ordinaryDefine (o : Ref) (k : Key) (d : Descriptor) : Run Bool := do
  match ← Run.kind o with
  | .array _ _ =>
    if k = .length then eng.defineLength o d else reviseObject o fun a => a.defineStored? k d
  | _ => reviseObject o fun a => a.define? k d

def ordinaryDelete (o : Ref) (k : Key) : Run Bool := do
  match ← Run.kind o with
  | .array _ _ =>
    if k = .length then pure false else reviseObject o fun a => a.delete? k
  | _ => reviseObject o fun a => a.delete? k

def ordinaryHas (o : Ref) (k : Key) : Run Bool := do
  match ← eng.getOwnProperty o k with
  | some _ => pure true
  | none =>
    match (← Run.heap).prototypeOf o with
    | some parent => eng.hasProperty parent k
    | none => pure false

/-- Calls an accessor's function for a receiver; one that is missing gives undefined. -/
def callGetter (getter : Option Ref) (receiver : Value) : Run Value :=
  match getter with
  | some f => eng.call (.object f) receiver []
  | none => pure .undefined

/-- Calls an accessor's function with a value; false if it is missing. -/
def callSetter (setter : Option Ref) (receiver v : Value) : Run Bool := do
  match setter with
  | some f =>
    let _ ← eng.call (.object f) receiver [v]
    pure true
  | none => pure false

def ordinaryGet (o : Ref) (k : Key) (receiver : Value) : Run Value := do
  match ← eng.getOwnProperty o k with
  | some d =>
    match d.value with
    | some v => pure v
    | none => eng.callGetter d.get.join receiver
  | none =>
    match (← Run.heap).prototypeOf o with
    | some parent => eng.getFor parent k receiver
    | none => pure .undefined

/-- Assigns to the receiver's own property, which may be missing. -/
def setOnReceiver (receiver : Value) (k : Key) (v : Value) : Run Bool := do
  match receiver with
  | .object r =>
    match ← eng.getOwnProperty r k with
    | some d =>
      if d.isAccessor || d.writable == some false then pure false
      else eng.defineOwnProperty r k { value := some v }
    | none => eng.createDataProperty r k v
  | _ => pure false

def ordinarySet (o : Ref) (k : Key) (v receiver : Value) : Run Bool := do
  match ← eng.getOwnProperty o k with
  | some d =>
    if d.isData then
      if d.writable == some false then pure false else eng.setOnReceiver receiver k v
    else eng.callSetter d.set.join receiver v
  | none =>
    match (← Run.heap).prototypeOf o with
    | some parent => eng.setFor parent k v receiver
    | none => eng.setOnReceiver receiver k v

/-- Links an object to another prototype unless that would close a cycle. -/
def ordinarySetPrototypeOf (o : Ref) (p : Option Ref) : Run Bool := do
  let object ← Run.object o
  if p = object.prototype then pure true
  else if !object.extensible then pure false
  else
    let heap ← Run.heap
    match heap.chainReaches o heap.objects.size p with
    | none => Run.outOfFuel
    | some true => pure false
    | some false =>
      Run.update o fun object => { object with prototype := p }
      pure true

end ObjectModel.Engine
