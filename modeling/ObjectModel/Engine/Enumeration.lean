import ObjectModel.Engine.Proxy
import Std.Data.TreeSet

/-!
# Own and enumerable keys

Questions about the keys of an object that a proxy may answer by a trap of its own.
-/

namespace ObjectModel.Engine

variable (eng : Engine)

def hasOwnProperty (o : Ref) (k : Key) : Run Bool := do
  match ← eng.proxyHasOwn? o k with
  | some answer => pure answer
  | none => return (← eng.getOwnProperty o k).isSome

/-- The object has the key as an enumerable own property. -/
def isOwnEnumerable (o : Ref) (k : Key) : Run Bool := do
  return (← eng.getOwnProperty o k).any Descriptor.isEnumerable

/-- The enumerable ones of the given own keys. -/
def keepEnumerable (o : Ref) : List Key → Run (List Key)
  | [] => pure []
  | k :: rest => do
    let keep ← eng.isOwnEnumerable o k
    let kept ← keepEnumerable o rest
    pure (if keep then k :: kept else kept)

/-- The enumerable own keys that are not symbols. -/
def enumerableOwnKeys (o : Ref) : Run (List Key) := do
  eng.keepEnumerable o ((← eng.ownKeys o).filter fun k => !k.isSymbol)

/-- Goes through the keys of one object of a chain: the enumerable ones among those not yet
visited, and all keys visited afterwards. -/
def enumerateKeys (o : Ref) :
    List Key → Std.TreeSet Key → Run (List Key × Std.TreeSet Key)
  | [], visited => pure ([], visited)
  | k :: rest, visited => do
    if k.isSymbol || visited.contains k then enumerateKeys o rest visited
    else
      let keep ← eng.isOwnEnumerable o k
      let (kept, visited) ← enumerateKeys o rest (visited.insert k)
      pure (if keep then k :: kept else kept, visited)

/-- The enumerable keys of an object and its prototypes; a key hides itself further up, also one
that is not enumerable. -/
def enumerateChain : Nat → Option Ref → Std.TreeSet Key → Run (List Key)
  | _, none, _ => pure []
  | 0, some _, _ => Run.outOfFuel
  | fuel + 1, some o, visited => do
    let own ← eng.ownKeys o
    let (names, visited) ← eng.enumerateKeys o own visited
    return names ++ (← enumerateChain fuel ((← Run.heap).prototypeOf o) visited)

/-- An iterator over the enumerable keys of an object, inherited ones included. -/
def enumerate (o : Ref) : Run Ref := do
  match ← eng.proxyEnumerate? o with
  | some iterator => pure iterator
  | none =>
    let names ← eng.enumerateChain eng.limit (some o) ∅
    newIterator (.list (names.map Key.toValue).toArray)

end ObjectModel.Engine
