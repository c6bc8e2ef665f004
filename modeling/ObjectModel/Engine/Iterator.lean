import ObjectModel.Engine.Enumeration

/-!
# Iterators

The iterator protocol, and the step of a host iterator.  The step moves the cursor before it
reads the value, so a read that throws is not repeated; only the length of a live array is read
first.
-/

namespace ObjectModel.Engine

variable (eng : Engine)

/-! ## The protocol -/

def iteratorObject (v : Value) : Run Ref :=
  match v with
  | .object r => pure r
  | _ => Run.fail .iteratorResultNotObject

def getIterator (v : Value) : Run Ref := do
  match ← eng.getMethod v .iterator with
  | some f => iteratorObject (← eng.call (.object f) v [])
  | none => Run.fail .notIterable

def iteratorNext (iterator : Ref) : Run Ref := do
  iteratorObject (← eng.invoke (.object iterator) "next" [])

def iteratorComplete (result : Ref) : Run Bool := do return (← eng.get result "done").truthy

def iteratorValue (result : Ref) : Run Value := eng.get result "value"

/-- The next result, or nothing at the end. -/
def iteratorStep (iterator : Ref) : Run (Option Ref) := do
  let result ← eng.iteratorNext iterator
  if ← eng.iteratorComplete result then pure none else pure (some result)

/-- The next value, or nothing at the end. -/
def iteratorStepValue (iterator : Ref) : Run (Option Value) := do
  match ← eng.iteratorStep iterator with
  | some result => return some (← eng.iteratorValue result)
  | none => pure none

def iteratorValues (iterator : Ref) : Nat → Run (List Value)
  | 0 => Run.outOfFuel
  | fuel + 1 => do
    match ← eng.iteratorStepValue iterator with
    | some v => return v :: (← iteratorValues iterator fuel)
    | none => pure []

/-- All remaining values. -/
def iteratorToList (iterator : Ref) : Run (List Value) := eng.iteratorValues iterator eng.limit

def newResult (v : Value) (done : Bool) : Run Ref :=
  newPlainObject [("value", v), ("done", .bool done)]

/-! ## Host iterators -/

def moveCursor (iterator : Ref) (cursor : Cursor) : Run Unit :=
  Run.update iterator fun o =>
    match o.kind with
    | .iterator source _ => { o with kind := .iterator source cursor }
    | _ => o

def newPair (a b : Value) : Run Value := return .object (← newArray [a, b])

/-- What one position of a source gives. -/
inductive Outcome where
  | finished
  | skipped
  | value (v : Value)

/-- Moves an iterator past a position and reads what stands there. -/
def readElement (iterator : Ref) (position : Nat) : Element → Run Outcome
  | .finished => do
    moveCursor iterator .exhausted
    pure .finished
  | .hole => do
    moveCursor iterator (.active (position + 1))
    pure .skipped
  | .value v => do
    moveCursor iterator (.active (position + 1))
    pure (.value v)
  | .live array => do
    let length ← eng.lengthOfArrayLike array
    if length ≤ position then
      moveCursor iterator .exhausted
      pure .finished
    else
      moveCursor iterator (.active (position + 1))
      return .value (← eng.get array (.ofPosition position))
  | .arrayEntry array => do
    moveCursor iterator (.active (position + 1))
    let v ← eng.get array (.ofPosition position)
    return .value (← newPair (.ofNat position) v)
  | .ownKey object key entry => do
    moveCursor iterator (.active (position + 1))
    if !(← eng.hasOwnProperty object key) then pure .skipped
    else if entry then
      let v ← eng.get object key
      return .value (← newPair key.toValue v)
    else pure (.value key.toValue)
  | .pair k v => do
    moveCursor iterator (.active (position + 1))
    return .value (← newPair k v)

/-- Advances an iterator past skipped positions, at most `fuel` times. -/
def advanceWithin (iterator : Ref) : Nat → Run Ref
  | 0 => Run.outOfFuel
  | fuel + 1 => do
    let heap ← Run.heap
    match heap.kind iterator with
    | .iterator source cursor =>
      match cursor.position? with
      | none => newResult .undefined true
      | some position =>
        match ← eng.readElement iterator position (heap.elementAt source position) with
        | .finished => newResult .undefined true
        | .skipped => advanceWithin iterator fuel
        | .value v => newResult v false
    | _ => Run.fail (.receiver .hostNext)

/-- The next result of a host iterator. -/
def advance (iterator : Ref) : Run Ref := do
  let heap ← Run.heap
  match heap.kind iterator with
  | .iterator source _ => eng.advanceWithin iterator (heap.skippable source + 1)
  | _ => Run.fail (.receiver .hostNext)

end ObjectModel.Engine
