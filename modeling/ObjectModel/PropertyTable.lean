import ObjectModel.Property
import ObjectModel.Slots

/-!
# Property tables

The own properties of an object, in the order in which their keys became present.  Replacing a
property keeps its place; removing a key and adding it again moves it to the end.  `keys` lists
the indexes in ascending order, then the names, then the symbols.
-/

namespace ObjectModel

abbrev PropertyTable := Slots Key Property

namespace PropertyTable

def empty : PropertyTable := Slots.empty

/-- Removes a key.  A table that holds nothing afterwards gives up its cells. -/
def remove (t : PropertyTable) (k : Key) : PropertyTable :=
  let rest := t.erase k
  if rest.isEmpty then empty else rest

/-- The stored indexes in the order of their insertion. -/
def indexes (t : PropertyTable) : List Nat := t.entries.filterMap fun e => e.1.index?

def names (t : PropertyTable) : List Key :=
  (t.entries.map Prod.fst).filter fun k => !k.isIndex && !k.isSymbol

def symbols (t : PropertyTable) : List Key := (t.entries.map Prod.fst).filter Key.isSymbol

/-- The keys: indexes in ascending order, then names, then symbols. -/
def keys (t : PropertyTable) : List Key :=
  (t.indexes.mergeSort (· ≤ ·)).map Key.index ++ t.names ++ t.symbols

/-- The stored indexes from `start` on, in ascending order. -/
def indexesFrom (t : PropertyTable) (start : Nat) : List Nat :=
  (t.indexes.filter (start ≤ ·)).mergeSort (· ≤ ·)

end PropertyTable

end ObjectModel
