import ObjectModel.Engine.Basic

/-!
# Maps and sets

The operations on map and set objects; every other receiver is refused.
-/

namespace ObjectModel.Engine

def newMap : Run Ref := newOfClass .mapPrototype (.map .empty)

def newSet : Run Ref := newOfClass .setPrototype (.set .empty)

/-- A map object and its slots. -/
def requireMap (v : Value) : Run (Ref × MapData) := do
  match v with
  | .object r =>
    match ← Run.kind r with
    | .map data => pure (r, data)
    | _ => Run.fail (.expected .map)
  | _ => Run.fail (.expected .map)

def mapSet (map k v : Value) : Run Unit := do
  let (r, data) ← requireMap map
  Run.update r fun o => { o with kind := .map (data.set k v) }

def mapGet (map k : Value) : Run Value := do return (← requireMap map).2.get k

def mapHas (map k : Value) : Run Bool := do return (← requireMap map).2.has k

def mapDelete (map k : Value) : Run Bool := do
  let (r, data) ← requireMap map
  Run.update r fun o => { o with kind := .map (data.delete k) }
  pure (data.has k)

/-- A set object and its slots. -/
def requireSet (v : Value) : Run (Ref × SetData) := do
  match v with
  | .object r =>
    match ← Run.kind r with
    | .set data => pure (r, data)
    | _ => Run.fail (.expected .set)
  | _ => Run.fail (.expected .set)

def setAdd (set v : Value) : Run Unit := do
  let (r, data) ← requireSet set
  Run.update r fun o => { o with kind := .set (data.add v) }

def setHas (set v : Value) : Run Bool := do return (← requireSet set).2.has v

def setDelete (set v : Value) : Run Bool := do
  let (r, data) ← requireSet set
  Run.update r fun o => { o with kind := .set (data.delete v) }
  pure (data.has v)

end ObjectModel.Engine
