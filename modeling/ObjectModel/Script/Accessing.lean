import ObjectModel.Script.Operand

/-!
# Operations on objects

Properties, keys, prototypes and calls.
-/

namespace ObjectModel.Engine

variable (eng : Engine) {ε : Type} (ops : Operands ε)

/-- The own properties of an object, each shown before its key. -/
def dumpProperties (o : Ref) : List Key → Run (List (KeyView × Option DescriptorView))
  | [] => pure []
  | k :: rest => do
    let d ← eng.getOwnProperty o k
    let descriptor ← Run.showDescriptor? d
    let key ← Run.showKey k
    return (key, descriptor) :: (← dumpProperties o rest)

def dump (o : Ref) : Run Plain := do
  let heap ← Run.heap
  let proto ← Run.showValue (.ofRef? (heap.prototypeOf o))
  let keys ← eng.ownKeys o
  return .dump proto (heap.isExtensible o) (← eng.dumpProperties o keys)

def boolResult (x : Run Bool) : Run Result := do return .value (.bool (← x))

/-- Undefined after an action that only has effects. -/
def unitResult (x : Run Unit) : Run Result := do
  x
  pure (.value .undefined)

def access : Access ε → Run Result
  | .get o key receiver => do
    let o ← ops.object "o" o
    let k ← ops.key eng key
    match ← ops.evaluate? receiver with
    | none => return .value (← eng.get o k)
    | some receiver => return .value (← eng.getFor o k receiver)
  | .getV value key => do
    let v ← ops.evaluate value
    let k ← ops.key eng key
    return .value (← eng.getV v k)
  | .getMethod value key => do
    let v ← ops.evaluate value
    let k ← ops.key eng key
    return .value ((← eng.getMethod v k).elim .undefined .object)
  | .set o key value receiver throws => do
    let o ← ops.object "o" o
    let k ← ops.key eng key
    let v ← ops.evaluate value
    match ← ops.evaluate? receiver with
    | none => unitResult (eng.set o k v throws)
    | some receiver => boolResult (eng.setFor o k v receiver)
  | .createDataProperty o key value throws => do
    let o ← ops.object "o" o
    let k ← ops.key eng key
    let v ← ops.evaluate value
    if throws then unitResult (eng.createDataPropertyOrThrow o k v)
    else boolResult (eng.createDataProperty o k v)
  | .define o key descriptor throws => do
    let o ← ops.object "o" o
    let k ← ops.key eng key
    let d ← ops.descriptor descriptor
    if throws then unitResult (eng.definePropertyOrThrow o k d)
    else boolResult (eng.defineOwnProperty o k d)
  | .delete o key throws => do
    let o ← ops.object "o" o
    let k ← ops.key eng key
    if throws then unitResult (eng.deletePropertyOrThrow o k)
    else boolResult (eng.deleteProperty o k)
  | .has o key => do
    let o ← ops.object "o" o
    let k ← ops.key eng key
    boolResult (eng.hasProperty o k)
  | .hasOwn o key => do
    let o ← ops.object "o" o
    let k ← ops.key eng key
    boolResult (eng.hasOwnProperty o k)
  | .getOwnProperty o key => do
    let o ← ops.object "o" o
    let k ← ops.key eng key
    match ← eng.getOwnProperty o k with
    | some d => return .plain (.descriptor (← Run.showDescriptor d))
    | none => pure (.value .undefined)
  | .ownKeys o => do
    let o ← ops.object "o" o
    let keys ← eng.ownKeys o
    return .plain (.keys (← Run.showKeys keys))
  | .enumerableOwnKeys o => do
    let o ← ops.object "o" o
    let keys ← eng.enumerableOwnKeys o
    return .plain (.keys (← Run.showKeys keys))
  | .enumerate o => do
    let o ← ops.object "o" o
    return .value (.object (← eng.enumerate o))
  | .getPrototypeOf o => do
    let o ← ops.object "o" o
    return .value (.ofRef? ((← Run.heap).prototypeOf o))
  | .setPrototypeOf o proto => do
    let o ← ops.object "o" o
    let p ← ops.object? proto
    boolResult (eng.setPrototypeOf o p)
  | .preventExtensions o => do
    let o ← ops.object "o" o
    Run.change fun m => { m with heap := m.heap.preventExtensions o }
    pure (.value (.bool true))
  | .dump o => do
    let o ← ops.object "o" o
    return .plain (← eng.dump o)
  | .call f receiver arguments raw => do
    if raw then
      let f ← ops.object "f" f
      let this ← ops.evaluate receiver
      let values ← ops.evaluateAll arguments
      return .value (← eng.callRaw f this values)
    else
      let f ← ops.evaluate f
      let this ← ops.evaluate receiver
      let values ← ops.evaluateAll arguments
      return .value (← eng.call f this values)
  | .construct f arguments newTarget raw => do
    let f ← ops.object "f" f
    let values ← ops.evaluateAll arguments
    let newTarget ← ops.object? newTarget
    if raw then return .value (.object (← eng.constructRaw f values (newTarget.getD f)))
    else return .value (.object (← eng.construct f values newTarget))
  | .invoke receiver key arguments => do
    let this ← ops.evaluate receiver
    let k ← ops.key eng key
    let values ← ops.evaluateAll arguments
    return .value (← eng.invoke this k values)
  | .length o => do
    let o ← ops.object "o" o
    return .value (.ofNat (← eng.lengthOfArrayLike o))
  | .listFromArrayLike value => do
    let v ← ops.evaluate value
    let values ← eng.listFromArrayLike v
    return .plain (.values (← Run.showValues values))

end ObjectModel.Engine
