import ObjectModel.Script.Accessing

/-!
# Collections and iteration

Maps, sets and the iterator protocol.
-/

namespace ObjectModel.Engine

variable (eng : Engine) {ε : Type} (ops : Operands ε)

/-! ## Maps and sets -/

def addEntries (map : Value) : List (ε × ε) → Run Unit
  | [] => pure ()
  | (k, v) :: rest => do
    let key ← ops.evaluate k
    let value ← ops.evaluate v
    mapSet map key value
    addEntries map rest

def addItems (set : Value) : List ε → Run Unit
  | [] => pure ()
  | e :: rest => do
    setAdd set (← ops.evaluate e)
    addItems set rest

/-- An operand that must be an object, as a value. -/
def collection (o : ε) : Run Value := do return .object (← ops.object "o" o)

def collect : Collecting ε → Run Value
  | .map entries => do
    let map ← newMap
    addEntries ops (.object map) entries
    pure (.object map)
  | .mapSet o key value => do
    let map ← collection ops o
    let k ← ops.evaluate key
    let v ← ops.evaluate value
    mapSet map k v
    pure .undefined
  | .mapGet o key => do
    let map ← collection ops o
    mapGet map (← ops.evaluate key)
  | .mapHas o key => do
    let map ← collection ops o
    return .bool (← mapHas map (← ops.evaluate key))
  | .mapDelete o key => do
    let map ← collection ops o
    return .bool (← mapDelete map (← ops.evaluate key))
  | .set items => do
    let set ← newSet
    addItems ops (.object set) items
    pure (.object set)
  | .setAdd o value => do
    let set ← collection ops o
    setAdd set (← ops.evaluate value)
    pure .undefined
  | .setHas o value => do
    let set ← collection ops o
    return .bool (← setHas set (← ops.evaluate value))
  | .setDelete o value => do
    let set ← collection ops o
    return .bool (← setDelete set (← ops.evaluate value))

/-! ## Iteration -/

def iterationForm : SourceForm ε → Run IterationSource
  | .list items => do return .list (← ops.evaluateAll items).toArray
  | .arrayValues o => do return .arrayValues (← ops.object "o" o)
  | .arrayKeys length => do return .arrayKeys (← ops.word length)
  | .arrayEntries o length => do
    let o ← ops.object "o" o
    return .arrayEntries o (← ops.word length)
  | .codeUnits value => do return .codeUnits (← ops.text value).units.toArray
  | .objectKeys o keys => do
    let o ← ops.object "o" o
    let keys ← ops.evaluateAll keys
    return .objectKeys o (← eng.toPropertyKeys keys).toArray
  | .objectEntries o keys => do
    let o ← ops.object "o" o
    let keys ← ops.evaluateAll keys
    return .objectEntries o (← eng.toPropertyKeys keys).toArray
  | .mapEntries o => do return .mapEntries (← ops.object "o" o)
  | .setValues o => do return .setValues (← ops.object "o" o)

/-- A value, or the word that there is none left. -/
def orDone (v : Option Value) : Result := v.elim (.plain .done) .value

def iterate : Iterating ε → Run Result
  | .getIterator value => do
    let v ← ops.evaluate value
    return .value (.object (← eng.getIterator v))
  | .next o => do
    let o ← ops.object "o" o
    return .value (.object (← eng.iteratorNext o))
  | .complete o => do
    let o ← ops.object "o" o
    boolResult (eng.iteratorComplete o)
  | .value o => do
    let o ← ops.object "o" o
    return .value (← eng.iteratorValue o)
  | .step o => do
    let o ← ops.object "o" o
    return orDone ((← eng.iteratorStep o).map .object)
  | .stepValue o => do
    let o ← ops.object "o" o
    return orDone (← eng.iteratorStepValue o)
  | .drain o => do
    let o ← ops.object "o" o
    let values ← eng.iteratorToList o
    return .value (.object (← newArray values))
  | .drainList o => do
    let o ← ops.object "o" o
    let values ← eng.iteratorToList o
    return .plain (.values (← Run.showValues values))
  | .result value done => do
    let v ← ops.evaluate value
    return .value (.object (← newResult v done))
  | .advance o => do
    let o ← ops.object "o" o
    return .value (.object (← eng.advance o))
  | .iterator source => do
    let source ← eng.iterationForm ops source
    return .value (.object (← newIterator source))

end ObjectModel.Engine
