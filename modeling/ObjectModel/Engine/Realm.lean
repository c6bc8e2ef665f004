import ObjectModel.Engine.Enumeration

/-!
# The realm

The members of the intrinsic objects, and the extensions.  The intrinsic objects get their
members when the realm is made.  The extensions add further ones, then or later, without asking
whether an object still takes properties; an object that gets members takes properties again.
-/

namespace ObjectModel

/-- A property that the realm puts on an object. -/
inductive Member where
  | method (name : String) (length : Nat) (f : Native)
  | getter (key : Key) (name : String) (f : Native) (configurable : Bool)
  | value (name : String) (v : Value)

namespace Intrinsic

def initialPrototype : Intrinsic → Option Ref
  | .objectPrototype => none
  | .evalErrorPrototype | .rangeErrorPrototype | .referenceErrorPrototype
  | .syntaxErrorPrototype | .typeErrorPrototype | .uriErrorPrototype => some errorPrototype.ref
  | _ => some objectPrototype.ref

/-- Some prototypes are themselves objects of the class they serve. -/
def initialKind : Intrinsic → Kind
  | .arrayPrototype => .array 0 true
  | .booleanPrototype => .wrapper (.bool false)
  | .numberPrototype => .wrapper (.number .zero)
  | .stringPrototype => .wrapper (.text .empty)
  | _ => .ordinary

def errorMembers (kind : ErrorKind) : List Member :=
  [.value "name" (.text kind.name), .value "message" (.text .empty)]

/-- The members that every realm has. -/
def members : Intrinsic → List Member
  | .objectPrototype =>
    [.method "hasOwnProperty" 1 .objectHasOwnProperty, .method "toString" 0 .objectToString,
      .method "valueOf" 0 .objectValueOf]
  | .functionPrototype => [.method "toString" 0 .functionToString]
  | .symbolPrototype =>
    [.method "toString" 0 .symbolToString, .method "valueOf" 0 .symbolValueOf]
  | .booleanPrototype =>
    [.method "toString" 0 .booleanToString, .method "valueOf" 0 .booleanValueOf]
  | .numberPrototype =>
    [.method "toString" 1 .numberToString, .method "valueOf" 0 .numberValueOf]
  | .stringPrototype =>
    [.method "toString" 0 .stringToString, .method "valueOf" 0 .stringValueOf]
  | .errorPrototype => errorMembers .error ++ [.method "toString" 0 .errorToString]
  | .evalErrorPrototype => errorMembers .evalError
  | .rangeErrorPrototype => errorMembers .rangeError
  | .referenceErrorPrototype => errorMembers .referenceError
  | .syntaxErrorPrototype => errorMembers .syntaxError
  | .typeErrorPrototype => errorMembers .typeError
  | .uriErrorPrototype => errorMembers .uriError
  | .datePrototype => [.method "getTime" 0 .dateGetTime, .method "valueOf" 0 .dateGetTime]
  | .regexpPrototype =>
    [.getter "flags" "get flags" .regexpFlags true,
      .getter "source" "get source" .regexpSource true, .method "toString" 0 .regexpToString]
  | .mapPrototype =>
    [.method "delete" 1 .mapDelete, .method "get" 1 .mapGet, .method "has" 1 .mapHas,
      .method "set" 2 .mapSet]
  | .setPrototype =>
    [.method "add" 1 .setAdd, .method "delete" 1 .setDelete, .method "has" 1 .setHas]
  | .listIteratorPrototype => [.method "next" 0 .hostNext]
  | .globalObject | .arrayPrototype => []

/-- The members that the extensions add, apart from those that need new objects. -/
def extensionMembers : Intrinsic → List Member
  | .globalObject => [.method "uneval" 1 .uneval]
  | .objectPrototype =>
    [.method "toSource" 0 .objectToSource,
      .method "__defineGetter__" 2 (.defineAccessor .getter),
      .method "__defineSetter__" 2 (.defineAccessor .setter),
      .method "__lookupGetter__" 1 (.lookupAccessor .getter),
      .method "__lookupSetter__" 1 (.lookupAccessor .setter),
      .getter .iterator "get [Symbol.iterator]" .objectIterator false]
  | .arrayPrototype =>
    [.method "toSource" 0 .arrayToSource, .method "iterator" 0 .arrayIterator]
  | .functionPrototype => [.method "toSource" 0 .functionToSource]
  | .stringPrototype =>
    [.method "toSource" 0 .stringToSource, .method "iterator" 0 .stringIterator,
      .method "quote" 0 .stringQuote]
  | .numberPrototype => [.method "toSource" 0 .numberToSource]
  | .booleanPrototype => [.method "toSource" 0 .booleanToSource]
  | .datePrototype => [.method "toSource" 0 .dateToSource]
  | .regexpPrototype => [.method "toSource" 0 .regexpToSource]
  | .errorPrototype => [.method "toSource" 0 .errorToSource]
  | .mapPrototype => [.method "iterator" 0 .mapIterator]
  | .setPrototype => [.method "iterator" 0 .setIterator]
  | _ => []

end Intrinsic

/-- The heap of the intrinsic objects, still without members. -/
def Heap.intrinsics : Heap where
  objects := (Intrinsic.all.map fun i => Object.new i.initialPrototype i.initialKind).toArray
  symbols := #[some "Symbol.iterator"]

namespace Engine

/-! ## Members -/

def newNative (name : String) (length : Nat) (f : Native) : Run Ref :=
  newFunction none name length ⟨.native f, name, none⟩

def newMember : Member → Run (Key × Property)
  | .method name length f => do return (name, .hidden (.object (← newNative name length f)))
  | .getter key name f configurable => do
    return (key, ⟨.accessor (some (← newNative name 0 f)) none, false, configurable⟩)
  | .value name v => pure (name, .hidden v)

def newMembers : List Member → Run (List (Key × Property))
  | [] => pure []
  | m :: rest => do
    let property ← newMember m
    return property :: (← newMembers rest)

/-- Puts members on an object, which then takes properties. -/
def addMembers (o : Ref) (ms : List Member) : Run Unit := do
  let properties ← newMembers ms
  Run.update o fun object => object.populate properties true

/-- Puts on each intrinsic object the members that `select` names. -/
def addIntrinsicMembers (select : Intrinsic → List Member) : List Intrinsic → Run Unit
  | [] => pure ()
  | i :: rest => do
    let members := select i
    unless members.isEmpty do addMembers i.ref members
    addIntrinsicMembers select rest

/-! ## Extensions -/

/-- An object with a private next method that advances the object's own iteration. -/
def newIterationObject (proto : Ref) (next : Symbol) (source : IterationSource) : Run Ref := do
  let o ← Run.allocate (.new (some proto) (.iterator source .fresh))
  let f ← newFunction none "next" 0 ⟨.advances o, "next", none⟩
  Run.update o fun object =>
    { object with
      properties := object.properties.insert (.symbol next) (.data (.object f) false false false) }
  pure o

def newSymbol (description : Option Text) : Run Symbol := fun m =>
  let (s, heap) := m.heap.allocateSymbol description
  .ok s { m with heap }

/-- Adds everything the extensions bring to the realm. -/
def addExtensions (x : Extensions) : Run Unit := do
  addIntrinsicMembers Intrinsic.extensionMembers Intrinsic.all
  let proxy ← newObject (some Intrinsic.objectPrototype.ref)
  addMembers proxy
    [.method "create" 2 .proxyCreate, .method "createFunction" 3 .proxyCreateFunction]
  Run.update x.iteratorConstructor fun object =>
    { object with
      properties :=
        object.properties.insert "prototype"
          (.data (.object x.iteratorPrototype) false false false) }
  addMembers x.iteratorPrototype
    [.method "next" 0 .iterationNext, .method "iterator" 0 .iterationSelf,
      .value "constructor" (.object x.iteratorConstructor)]
  addMembers Intrinsic.globalObject.ref
    [.value "Proxy" (.object proxy), .value "Iterator" (.object x.iteratorConstructor)]
  Run.update Intrinsic.listIteratorPrototype.ref fun object =>
    { object with prototype := some x.iteratorPrototype }

/-- Installs the extensions, once. -/
def install : Run Extensions := do
  match (← Run.machine).extensions with
  | some x => pure x
  | none =>
    let next ← newSymbol (some "next")
    let prototype ← newIterationObject Intrinsic.objectPrototype.ref next (.list #[])
    let constructor ← newNative "Iterator" 2 .iteratorConstructor
    let x : Extensions := ⟨next, prototype, constructor⟩
    Run.change fun m => { m with extensions := some x }
    addExtensions x
    Run.emit .extensionsInstalled
    pure x

/-- Makes the realm. -/
def start : Run Unit := do
  addIntrinsicMembers Intrinsic.members Intrinsic.all
  let options := (← Run.machine).options
  if options.printInternals then Run.emit .intrinsicsReady
  unless options.withoutExtensions do let _ ← install
  Run.emit .started

end Engine

/-- The machine before its realm is made. -/
def Machine.bare (options : Options) : Machine where
  heap := .intrinsics
  texts := .initial
  options := options
  extensions := none
  source := .idle
  events := []
  bindings := []
  caught := .undefined
  log := []
  shownObjects := .empty
  shownSymbols := .empty

end ObjectModel
