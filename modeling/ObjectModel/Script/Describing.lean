import ObjectModel.Script.Operand

/-!
# Descriptors and tables

Descriptors as objects, and property tables driven on their own.
-/

namespace ObjectModel.Engine

variable (eng : Engine) {ε : Type} (ops : Operands ε)

/-- Makes a stored property a writable data property, with its other attributes kept. -/
def withWritableValue (p : Property) (v : Value) : Property :=
  { p with content := .data v true }

/-- The property of a table as it is shown. -/
def showStored (p : Option Property) : Run TableView := do
  match p with
  | some p => return .descriptor (← Run.showDescriptor p.toDescriptor)
  | none => pure .nothing

def tableAction (t : PropertyTable) (k : Key) : TableAction ε → Run (PropertyTable × TableView)
  | .insert form => do
    let d ← ops.descriptor form
    pure (t.insert k (.ofDescriptor d), .nothing)
  | .update value => do
    let v ← ops.evaluate value
    match t.find? k with
    | some p => pure (t.insert k (withWritableValue p v), .bool true)
    | none => pure (t, .bool false)
  | .remove => do return (t.remove k, ← showStored (t.find? k))
  | .get => do return (t, ← showStored (t.find? k))
  | .contains => pure (t, .bool (t.contains k))
  | .size => pure (t, .size t.size t.isEmpty)
  | .keys => do return (t, .keys (← Run.showKeys t.keys))
  | .indexesFrom start => pure (t, .indexes (t.indexesFrom start))
  | .skip => pure (t, .nothing)

def tableActions : PropertyTable → List (Option ε × TableAction ε) → Run (List TableView)
  | _, [] => pure []
  | t, (key, action) :: rest => do
    let k ←
      match key with
      | some e => ops.key eng e
      | none => pure (.index 0)
    let (t, view) ← tableAction ops t k action
    return view :: (← tableActions t rest)

/-- The longest list whose last place is asked for. -/
def placesLimit : Nat := 100

def describe : Description ε → Run Result
  | .toDescriptor value => do
    let d ← eng.toDescriptor (← ops.evaluate value)
    return .plain (.descriptor (← Run.showDescriptor d))
  | .fromDescriptor none => pure (.value .undefined)
  | .fromDescriptor (some form) => do
    let d ← ops.descriptor form
    return .value (.object (← fromDescriptor d))
  | .inspect form => do
    let d ← ops.descriptor form
    return .plain <|
      .descriptorFacts d.isAccessor d.isData d.isGeneric d.isComplete d.hasFields
        (← Run.showDescriptor d.complete)
  | .method f => do
    let f ← ops.object "f" f
    return .plain (.descriptor (← Run.showDescriptor (.method f)))
  | .table actions => do return .plain (.table (← eng.tableActions ops .empty actions))
  | .places a b =>
    let r : Ref := ⟨a⟩
    let last := (Ref.last? (min a placesLimit)).map Ref.index
    pure (.plain (.place a r.label (compare a b) (a == b) last))

end ObjectModel.Engine
