import ObjectModel.Machine

/-!
# Showing values

Turns values into views.  Objects and symbols without a name of their own are numbered when they
are first shown, so showing changes the machine.
-/

namespace ObjectModel.Run

/-- The number of `a` among those shown, which it joins if it is new. -/
def numberIn {α : Type} [Ord α] [Std.TransOrd α] [Std.LawfulEqOrd α] (shown : Slots α Unit)
    (a : α) : Nat × Slots α Unit :=
  match shown.position? a with
  | some i => (i, shown)
  | none => (shown.extent, shown.insert a ())

def numberObject (r : Ref) : Run Nat := fun m =>
  let (i, shownObjects) := numberIn m.shownObjects r
  .ok i { m with shownObjects }

def numberSymbol (s : Symbol) : Run Nat := fun m =>
  let (i, shownSymbols) := numberIn m.shownSymbols s
  .ok i { m with shownSymbols }

/-- The name of an object that the extensions added. -/
def extensionName? (x : Extensions) (r : Ref) : Option String :=
  if r = x.iteratorPrototype then some "%Iterator.prototype%"
  else if r = x.iteratorConstructor then some "%Iterator%"
  else none

/-- The name of an object that the realm knows. -/
def objectName? (m : Machine) (r : Ref) : Option String :=
  match Intrinsic.ofRef? r with
  | some i => some i.name
  | none => m.extensions.bind fun x => extensionName? x r

def symbolName? (m : Machine) (s : Symbol) : Option String :=
  if s = Symbol.iterator then some "@@iterator"
  else if m.extensions.any fun x => x.nextSymbol == s then some "@@next"
  else none

def shape (h : Heap) (r : Ref) : Shape :=
  match h.kind r with
  | .proxy _ _ => .proxy
  | .array _ _ => .array
  | _ => if (h.callable? (.object r)).isSome then .function else .object

def showObject (r : Ref) : Run View := do
  let m ← machine
  match objectName? m r with
  | some name => pure (.namedObject name)
  | none =>
    let shape := shape m.heap r
    return .object (← numberObject r) shape

def showSymbol (s : Symbol) : Run View := do
  let m ← machine
  match symbolName? m s with
  | some name => pure (.namedSymbol name)
  | none =>
    let description := (m.heap.description s).map Text.lossy
    return .symbol (← numberSymbol s) description

def showValue : Value → Run View
  | .undefined => pure .undefined
  | .null => pure .null
  | .bool b => pure (.bool b)
  | .number n => pure (.number n)
  | .text t => pure (.text t)
  | .symbol s => showSymbol s
  | .object r => showObject r

def showValues : List Value → Run (List View)
  | [] => pure []
  | v :: rest => do
    let view ← showValue v
    return view :: (← showValues rest)

def showKey : Key → Run KeyView
  | .index i => pure (.index i)
  | k => return .view (← showValue k.toValue)

def showKeys : List Key → Run (List KeyView)
  | [] => pure []
  | k :: rest => do
    let view ← showKey k
    return view :: (← showKeys rest)

def showField : Option Value → Run (Option View)
  | none => pure none
  | some v => return some (← showValue v)

/-- An accessor function; one mentioned as undefined is shown as undefined. -/
def showAccessor (f : Option (Option Ref)) : Run (Option View) :=
  showField (f.map fun f => f.elim .undefined .object)

def showDescriptor (d : Descriptor) : Run DescriptorView := do
  let value ← showField d.value
  let get ← showAccessor d.get
  let set ← showAccessor d.set
  pure ⟨value, d.writable, get, set, d.enumerable, d.configurable⟩

def showDescriptor? : Option Descriptor → Run (Option DescriptorView)
  | none => pure none
  | some d => return some (← showDescriptor d)

/-- Records a call in the log. -/
def logCall (label : String) (receiver : Value) (arguments : List Value)
    (newTarget : Option Ref) : Run Unit := do
  let receiver ← showValue receiver
  let arguments ← showValues arguments
  let newTarget ← showField (newTarget.map .object)
  change fun m => { m with log := ⟨label, receiver, arguments, newTarget⟩ :: m.log }

end ObjectModel.Run
