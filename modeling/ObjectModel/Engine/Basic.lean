import ObjectModel.Machine
import ObjectModel.Number.Reading

/-!
# The engine

The internal methods of objects call each other and, through functions and traps, user code,
which calls them again.  A method is therefore data, and the operations of the object model are
plain definitions over an `Engine`: something that answers methods.  The engine that really does
so answers each method by these operations over an engine with less fuel, so every statement
about all runs is an induction on fuel with one case per method.

Evaluation of expressions is a method like the others.
-/

namespace ObjectModel

/-- What the body of a script function can name. -/
structure Frame where
  receiver : Value
  arguments : List Value
  newTarget : Option Ref

/-- The methods, by the type of their answers. -/
inductive Method : Type → Type where
  | getOwnProperty (o : Ref) (k : Key) : Method (Option Descriptor)
  | defineOwnProperty (o : Ref) (k : Key) (d : Descriptor) : Method Bool
  | hasProperty (o : Ref) (k : Key) : Method Bool
  | get (o : Ref) (k : Key) (receiver : Value) : Method Value
  | set (o : Ref) (k : Key) (v receiver : Value) : Method Bool
  | delete (o : Ref) (k : Key) : Method Bool
  | ownKeys (o : Ref) : Method (List Key)
  | setPrototypeOf (o : Ref) (p : Option Ref) : Method Bool
  | call (f : Ref) (receiver : Value) (arguments : List Value) : Method Value
  | construct (f : Ref) (arguments : List Value) (newTarget : Ref) : Method Ref
  | evaluate (frame : Option Frame) (e : Expr) : Method Result

/-- Answers methods; `limit` bounds the loops whose end user code decides. -/
structure Engine where
  limit : Nat
  answer : {α : Type} → Method α → Run α

namespace Engine

variable (eng : Engine)

def getOwnProperty (o : Ref) (k : Key) : Run (Option Descriptor) :=
  eng.answer (.getOwnProperty o k)

def defineOwnProperty (o : Ref) (k : Key) (d : Descriptor) : Run Bool :=
  eng.answer (.defineOwnProperty o k d)

def hasProperty (o : Ref) (k : Key) : Run Bool := eng.answer (.hasProperty o k)

def getFor (o : Ref) (k : Key) (receiver : Value) : Run Value := eng.answer (.get o k receiver)

def setFor (o : Ref) (k : Key) (v receiver : Value) : Run Bool :=
  eng.answer (.set o k v receiver)

def deleteProperty (o : Ref) (k : Key) : Run Bool := eng.answer (.delete o k)

def ownKeys (o : Ref) : Run (List Key) := eng.answer (.ownKeys o)

def setPrototypeOf (o : Ref) (p : Option Ref) : Run Bool := eng.answer (.setPrototypeOf o p)

/-- Calls a function object without checking that it is one. -/
def callRaw (f : Ref) (receiver : Value) (arguments : List Value) : Run Value :=
  eng.answer (.call f receiver arguments)

def constructRaw (f : Ref) (arguments : List Value) (newTarget : Ref) : Run Ref :=
  eng.answer (.construct f arguments newTarget)

/-- Calls a value, which must be callable. -/
def call (f receiver : Value) (arguments : List Value) : Run Value := do
  match ← Run.callable? f with
  | some f => eng.callRaw f receiver arguments
  | none => Run.fail .notCallable

/-- Constructs an object; without a new target the function itself is it. -/
def construct (f : Ref) (arguments : List Value) (newTarget : Option Ref) : Run Ref := do
  if (← Run.heap).isConstructor (.object f) then
    eng.constructRaw f arguments (newTarget.getD f)
  else Run.fail .notConstructor

/-- The property of an object, read for the object itself. -/
def get (o : Ref) (k : Key) : Run Value := eng.getFor o k (.object o)

/-! ## Objects from values -/

def newObject (proto : Option Ref) : Run Ref := Run.allocate (.new proto .ordinary)

def newOfClass (proto : Intrinsic) (kind : Kind) : Run Ref :=
  Run.allocate (.new (some proto.ref) kind)

def newWrapper (p : Primitive) : Run Ref := newOfClass (.ofPrimitive p) (.wrapper p)

def newIterator (source : IterationSource) : Run Ref :=
  newOfClass .listIteratorPrototype (.iterator source .fresh)

/-- A new builtin or script function; its length and name are read-only and configurable. -/
def newFunction (proto : Option Ref) (name : Text) (length : Nat) (f : FunctionData) : Run Ref :=
  Run.allocate
    { Object.new (some (proto.getD Intrinsic.functionPrototype.ref)) (.function f) with
      properties :=
        (PropertyTable.empty.insert .length (.data (.ofNat length) false false true)).insert
          "name" (.data (.text name) false false true) }

def toObject (v : Value) : Run Ref :=
  match v with
  | .object r => pure r
  | _ =>
    match v.primitive? with
    | some p => newWrapper p
    | none => Run.fail .nullishAsObject

/-! ## Conversion to primitives -/

/-- The first of the methods that gives a primitive decides. -/
def firstPrimitive (o : Ref) : List Key → Run Value
  | [] => Run.fail .noPrimitiveValue
  | k :: rest => do
    let method ← eng.get o k
    match ← Run.callable? method with
    | none => firstPrimitive o rest
    | some f =>
      match ← eng.call (.object f) (.object o) [] with
      | .object _ => firstPrimitive o rest
      | v => pure v

def toPrimitive (v : Value) (hint : Hint) : Run Value :=
  match v with
  | .object o =>
    match hint with
    | .text => eng.firstPrimitive o ["toString", "valueOf"]
    | .number => eng.firstPrimitive o ["valueOf", "toString"]
  | v => pure v

/-- The number of a primitive value. -/
def primitiveToNumber : Value → Run Number
  | .number n => pure n
  | .symbol _ => Run.fail .symbolAsNumber
  | .undefined | .object _ => pure .nan
  | .null => pure .zero
  | .bool b => pure (Number.ofNat (if b then 1 else 0))
  | .text t => pure (Number.ofText t)

def toNumber (v : Value) : Run Number := do primitiveToNumber (← eng.toPrimitive v .number)

/-- The text of a primitive value. -/
def primitiveToText : Value → Run Text
  | .text t => pure t
  | .symbol _ => Run.fail .symbolAsText
  | .undefined | .object _ => pure "undefined"
  | .null => pure "null"
  | .bool b => pure (if b then "true" else "false")
  | .number n => pure n.toText

def toText (v : Value) : Run Text := do primitiveToText (← eng.toPrimitive v .text)

def toPropertyKey (v : Value) : Run Key := do
  match ← eng.toPrimitive v .text with
  | .symbol s => pure (.symbol s)
  | v => return .ofText (← primitiveToText v)

/-- The integer toward zero; what is not a number counts as zero. -/
def toIntegerOrInfinity (v : Value) : Run Number := do
  let n ← eng.toNumber v
  pure (if n == .nan || n.isZero then .zero else n.truncate)

def toWord (v : Value) : Run Nat := do return (← eng.toNumber v).modWord

/-- The greatest length. -/
def lengthLimit : Nat := 0x1FFFFFFFFFFFFF

def toLength (v : Value) : Run Nat := do
  return (← eng.toIntegerOrInfinity v).clampNat lengthLimit

end Engine

end ObjectModel
