import ObjectModel.Engine.Adapter
import ObjectModel.Engine.Realm

/-!
# Iteration objects

The older iterator protocol.  An iteration object has the realm's private next method as an own
property.  The objects that the `iterator` methods give are proxies whose enumeration is the
iteration itself.
-/

namespace ObjectModel.Engine

variable (eng : Engine)

/-- An iteration object behind a proxy that enumerates it. -/
def newEnumerable (source : IterationSource) : Run Ref := do
  let x ← install
  let o ← newIterationObject x.iteratorPrototype x.nextSymbol source
  newProxy o .enumeratesTarget

/-- Iterates over the keys of a value, or over pairs of key and element: positions of an array,
enumerable own keys of anything else.  An array is walked over at most `Number.maxWord`
positions. -/
def iterationSource (v : Value) (keysOnly : Bool) : Run IterationSource := do
  if (← Run.heap).isArray v then
    let array ← toObject v
    let length := min (← eng.lengthOfArrayLike array) Number.maxWord
    pure (if keysOnly then .arrayKeys length else .arrayEntries array length)
  else
    let o ← toObject v
    let keys := (← eng.enumerableOwnKeys o).toArray
    pure (if keysOnly then .objectKeys o keys else .objectEntries o keys)

def newIteration (v : Value) (keysOnly : Bool) : Run Ref := do
  newEnumerable (← eng.iterationSource v keysOnly)

/-- The value has the private next method. -/
def isIterationObject (v : Value) : Run Bool := do
  match v with
  | .object o =>
    let x ← install
    eng.hasOwnProperty o (.symbol x.nextSymbol)
  | _ => pure false

/-- Calls the private next method. -/
def iterationNext (v : Value) : Run Value := do
  if ← eng.isIterationObject v then
    let x ← install
    eng.invoke v (.symbol x.nextSymbol) []
  else Run.fail (.receiver .iterationNext)

end ObjectModel.Engine
