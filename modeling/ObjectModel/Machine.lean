import ObjectModel.Object
import ObjectModel.Script.View
import ObjectModel.Text.Interned

/-!
# The machine and its runs

The machine holds the heap, the interned texts, the state of the extensions and of serialization,
and what scripts leave behind: variables, the log of calls, events, and the numbers given to shown
objects.

A run gives a value, stops with a thrown value, or runs out of fuel; the machine after it is kept
in every case.
-/

namespace ObjectModel

structure Options where
  /-- Start without the extensions; they can be installed later. -/
  withoutExtensions : Bool
  /-- Record when the intrinsic objects are ready. -/
  printInternals : Bool
  deriving Inhabited

/-- What the extensions add to the realm. -/
structure Extensions where
  /-- Key of the private next method of iteration objects. -/
  nextSymbol : Symbol
  iteratorPrototype : Ref
  iteratorConstructor : Ref

/-- The composites being serialized, and how many were entered. -/
structure SourceContext where
  visiting : List Ref
  depth : Nat
  deriving DecidableEq, Inhabited

namespace SourceContext

def idle : SourceContext := ⟨[], 0⟩

def isIdle (c : SourceContext) : Bool := c.depth == 0 && c.visiting.isEmpty

def isVisiting (c : SourceContext) (r : Ref) : Bool := c.visiting.contains r

def enter (c : SourceContext) (r : Ref) : SourceContext := ⟨r :: c.visiting, c.depth + 1⟩

def leave (c : SourceContext) (r : Ref) : SourceContext := ⟨c.visiting.erase r, c.depth - 1⟩

end SourceContext

/-- What the machine reports while it runs. -/
inductive Event where
  | intrinsicsReady
  | extensionsInstalled
  | started
  | trapDerived (trap : Trap) (derivation : Derivation)
  | trapUnanswerable (trap : Trap)
  | revisited (placeholder : Text)
  | failed (kind : ErrorKind) (message : Text)

namespace Event

/-- The realm reports its making on one level, single operations on a finer one. -/
def level : Event → String
  | .intrinsicsReady | .extensionsInstalled | .started => "DEBUG"
  | .trapDerived _ _ | .trapUnanswerable _ | .revisited _ | .failed _ _ => "TRACE"

def message : Event → Text
  | .intrinsicsReady => "intrinsics initialized"
  | .extensionsInstalled => "legacy extensions installed"
  | .started => "agent created"
  | .trapDerived _ _ => "derived proxy trap"
  | .trapUnanswerable _ => "proxy trap cannot be derived"
  | .revisited _ => "toSource revisited a composite"
  | .failed _ message => message

end Event

structure Machine where
  heap : Heap
  /-- The texts that operations on texts make. -/
  texts : TextTable
  options : Options
  extensions : Option Extensions
  source : SourceContext
  /-- The newest event first. -/
  events : List Event
  bindings : List (String × Value)
  /-- The value caught last. -/
  caught : Value
  /-- The newest call first. -/
  log : List LogEntry
  /-- The shown objects in the order of their numbers. -/
  shownObjects : Slots Ref Unit
  shownSymbols : Slots Symbol Unit

/-- Why a run stopped without a value. -/
inductive Halt where
  | thrown (v : Value)
  | outOfFuel

abbrev Run := EStateM Halt Machine

namespace Run

def machine : Run Machine := fun m => .ok m m

def change (f : Machine → Machine) : Run Unit := fun m => .ok () (f m)

def heap : Run Heap := fun m => .ok m.heap m

def object (r : Ref) : Run Object := fun m => .ok (m.heap.object r) m

def kind (r : Ref) : Run Kind := fun m => .ok (m.heap.kind r) m

def update (r : Ref) (f : Object → Object) : Run Unit :=
  change fun m => { m with heap := m.heap.modify r f }

def allocate (o : Object) : Run Ref := fun m =>
  let (r, heap) := m.heap.allocate o
  .ok r { m with heap }

/-- Makes a text and gives its place. -/
def makeText (c : TextConstruction) : Run TextRef := fun m =>
  let (r, texts) := m.texts.make c
  .ok r { m with texts }

def texts : Run TextTable := fun m => .ok m.texts m

def emit (e : Event) : Run Unit := change fun m => { m with events := e :: m.events }

variable {α : Type}

def throwValue (v : Value) : Run α := fun m => .error (.thrown v) m

def outOfFuel : Run α := fun m => .error .outOfFuel m

/-- A new error object; its message is not enumerable. -/
def newError (kind : ErrorKind) (message : Text) : Run Ref :=
  allocate
    { Object.new (some (Intrinsic.ofErrorKind kind).ref) .error with
      properties := PropertyTable.empty.insert "message" (.hidden (.text message)) }

/-- Throws the error of a fault. -/
def fail (fault : Fault) : Run α := do
  emit (.failed fault.kind fault.message)
  let e ← newError fault.kind fault.message
  throwValue (.object e)

/-- The outcome of a run as a value, thrown values included. -/
def attempt (x : Run α) : Run (Except Value α) := fun m =>
  match x m with
  | .ok a m => .ok (.ok a) m
  | .error (.thrown v) m => .ok (.error v) m
  | .error .outOfFuel m => .error .outOfFuel m

/-- Changes the machine after a run, however it ends. -/
def afterwards (x : Run α) (f : Machine → Machine) : Run α := fun m =>
  match x m with
  | .ok a m => .ok a (f m)
  | .error e m => .error e (f m)

def callable? (v : Value) : Run (Option Ref) := fun m => .ok (m.heap.callable? v) m

end Run

end ObjectModel
