import ObjectModel.Collection
import ObjectModel.Iteration
import ObjectModel.PropertyTable
import ObjectModel.Script.Expr

/-!
# Objects

An object has a prototype, a flag that says whether it takes new properties, a table of own
properties and the internal slots of its kind.  Functions are data: a builtin is named by
`Native`, a script function carries its body.
-/

namespace ObjectModel

/-- The builtin functions. -/
inductive Native where
  | objectHasOwnProperty
  | objectToString
  | objectValueOf
  | functionToString
  | symbolToString
  | symbolValueOf
  | booleanToString
  | booleanValueOf
  | numberToString
  | numberValueOf
  | stringToString
  | stringValueOf
  | errorToString
  | dateGetTime
  | regexpFlags
  | regexpSource
  | regexpToString
  | mapDelete
  | mapGet
  | mapHas
  | mapSet
  | setAdd
  | setDelete
  | setHas
  | hostNext
  | uneval
  | objectToSource
  | arrayToSource
  | functionToSource
  | stringToSource
  | numberToSource
  | booleanToSource
  | dateToSource
  | regexpToSource
  | errorToSource
  | defineAccessor (half : AccessorHalf)
  | lookupAccessor (half : AccessorHalf)
  | proxyCreate
  | proxyCreateFunction
  | iteratorConstructor
  | iterationNext
  | iterationSelf
  | arrayIterator
  | stringIterator
  | mapIterator
  | setIterator
  | objectIterator
  | stringQuote
  | nothing
  | probe
  deriving DecidableEq

/-- A function written in expressions. -/
structure ScriptFunction where
  label : String
  logged : Bool
  isConstructor : Bool
  body : List Expr

inductive Behaviour where
  | native (f : Native)
  /-- Advances the given iterator, whatever the receiver. -/
  | advances (iterator : Ref)
  | script (f : ScriptFunction)

/-- The function can be constructed. -/
def Behaviour.isConstructor : Behaviour → Bool
  | .native f => f == .iteratorConstructor || f == .nothing
  | .advances _ => false
  | .script f => f.isConstructor

structure FunctionData where
  behaviour : Behaviour
  initialName : Text
  source : Option Text

/-- The internal slots beyond the ordinary ones. -/
inductive Kind where
  | ordinary
  | array (length : Nat) (lengthWritable : Bool)
  | function (f : FunctionData)
  | proxy (target : Ref) (traps : TrapTable)
  | wrapper (p : Primitive)
  | error
  | date (time : Number)
  | regexp (pattern flags : Text)
  | map (data : MapData)
  | set (data : SetData)
  | iterator (source : IterationSource) (cursor : Cursor)

structure Object where
  prototype : Option Ref
  extensible : Bool
  properties : PropertyTable
  kind : Kind

instance : Inhabited Object := ⟨⟨none, true, .empty, .ordinary⟩⟩

namespace Object

/-- A new object without properties. -/
def new (prototype : Option Ref) (kind : Kind) : Object := ⟨prototype, true, .empty, kind⟩

def isProxy (o : Object) : Bool :=
  match o.kind with
  | .proxy _ _ => true
  | _ => false

/-- The descriptor of an array's length. -/
def lengthDescriptor (length : Nat) (writable : Bool) : Descriptor :=
  { value := some (.ofNat length), writable := some writable, enumerable := some false
    configurable := some false }

/-- The own property of an object that is not a proxy. -/
def ownDescriptor (o : Object) (k : Key) : Option Descriptor :=
  match o.kind with
  | .array length writable =>
    if k = .length then some (lengthDescriptor length writable)
    else (o.properties.find? k).map Property.toDescriptor
  | _ => (o.properties.find? k).map Property.toDescriptor

/-- The keys with the length of an array after the indexes. -/
def insertLength (ks : List Key) : List Key :=
  ks.takeWhile Key.isIndex ++ .length :: ks.dropWhile Key.isIndex

/-- The own keys of an object that is not a proxy. -/
def ownKeys (o : Object) : List Key :=
  match o.kind with
  | .array _ _ => insertLength o.properties.keys
  | _ => o.properties.keys

/-- Defines a stored property; nothing if the definition is refused. -/
def define? (o : Object) (k : Key) (d : Descriptor) : Option Object :=
  (Property.revise o.extensible (o.properties.find? k) d).map fun p =>
    { o with properties := o.properties.insert k p }

/-- Removes a stored property; nothing if it may not be removed. -/
def delete? (o : Object) (k : Key) : Option Object :=
  match o.properties.find? k with
  | none => some o
  | some p => if p.configurable then some { o with properties := o.properties.remove k } else none

/-- Adds properties without any checks; the object takes new properties afterwards. -/
def populate (o : Object) (ps : List (Key × Property)) (extensible : Bool) : Object :=
  { o with
    extensible
    properties := o.properties.insertAll ps }

end Object

/-! ## The heap -/

/-- All objects, and the descriptions of all symbols. -/
structure Heap where
  objects : Array Object
  symbols : Array (Option Text)

namespace Heap

def object (h : Heap) (r : Ref) : Object := h.objects.getD r.index default

def kind (h : Heap) (r : Ref) : Kind := (h.object r).kind

def allocate (h : Heap) (o : Object) : Ref × Heap :=
  (⟨h.objects.size⟩, { h with objects := h.objects.push o })

def modify (h : Heap) (r : Ref) (f : Object → Object) : Heap :=
  { h with objects := h.objects.modify r.index f }

def allocateSymbol (h : Heap) (description : Option Text) : Symbol × Heap :=
  (⟨h.symbols.size⟩, { h with symbols := h.symbols.push description })

def description (h : Heap) (s : Symbol) : Option Text := (h.symbols[s.index]?).join

/-- The symbol as text. -/
def descriptiveText (h : Heap) (s : Symbol) : Text :=
  Text.ofString "Symbol(" ++ ((h.description s).getD .empty).lossy ++ Text.ofString ")"

/-- The key as it stands in messages. -/
def displayKey (h : Heap) : Key → Text
  | .index i => Text.ofNat i
  | .name t => t.lossy
  | .symbol s => h.descriptiveText s

/-! ### Through proxies

A proxy's target is older than the proxy, so following targets ends within the heap. -/

def rootWithin (h : Heap) : Nat → Ref → Ref
  | 0, r => r
  | fuel + 1, r =>
    match h.kind r with
    | .proxy target _ => h.rootWithin fuel target
    | _ => r

/-- The object under all proxies. -/
def root (h : Heap) (r : Ref) : Ref := h.rootWithin h.objects.size r

/-- The prototype of an object; proxies show their target's. -/
def prototypeOf (h : Heap) (r : Ref) : Option Ref := (h.object (h.root r)).prototype

def isExtensible (h : Heap) (r : Ref) : Bool := (h.object (h.root r)).extensible

def preventExtensions (h : Heap) (r : Ref) : Heap :=
  h.modify (h.root r) fun o => { o with extensible := false }

def isArray (h : Heap) : Value → Bool
  | .object r =>
    match h.kind (h.root r) with
    | .array _ _ => true
    | _ => false
  | _ => false

/-- The object, if it can be called. -/
def callable? (h : Heap) : Value → Option Ref
  | .object r =>
    match h.kind (h.root r) with
    | .function _ => some r
    | _ => none
  | _ => none

def isConstructor (h : Heap) : Value → Bool
  | .object r =>
    match h.kind (h.root r) with
    | .function f => f.behaviour.isConstructor
    | _ => false
  | _ => false

/-! ### Prototype chains -/

/-- Whether `o` is on the chain that starts at the last argument, as far as it runs through
objects that are not proxies; nothing if the chain does not end within `fuel` steps. -/
def chainReaches (h : Heap) (o : Ref) : Nat → Option Ref → Option Bool
  | _, none => some false
  | 0, some _ => none
  | fuel + 1, some p =>
    if p = o then some true
    else if (h.object p).isProxy then some false
    else h.chainReaches o fuel (h.object p).prototype

/-- The objects from the last argument up its prototypes, without those already `seen`. -/
def ancestorsWithin (h : Heap) : Nat → List Ref → Option Ref → List Ref
  | 0, _, _ => []
  | _, _, none => []
  | fuel + 1, seen, some r =>
    if seen.contains r then [] else r :: h.ancestorsWithin fuel (r :: seen) (h.prototypeOf r)

/-- The object and its prototypes, up to the first repetition. -/
def ancestors (h : Heap) (r : Ref) : List Ref :=
  h.ancestorsWithin (h.objects.size + 1) [] (some r)

/-! ### Iteration sources -/

/-- What stands at a position of a source. -/
def elementAt (h : Heap) (source : IterationSource) (position : Nat) : Element :=
  match source with
  | .list values => (values[position]?).elim .finished .value
  | .arrayValues array => .live array
  | .arrayKeys length => if position < length then .value (.ofNat position) else .finished
  | .arrayEntries array length => if position < length then .arrayEntry array else .finished
  | .codeUnits units =>
    (units[position]?).elim .finished fun u => .value (.text (.singleton u))
  | .objectKeys object keys =>
    (keys[position]?).elim .finished fun k => .ownKey object k false
  | .objectEntries object keys =>
    (keys[position]?).elim .finished fun k => .ownKey object k true
  | .mapEntries map =>
    match h.kind map with
    | .map data =>
      match data.cells[position]? with
      | some (some (k, v)) => .pair k v
      | some none => .hole
      | none => .finished
    | _ => .finished
  | .setValues set =>
    match h.kind set with
    | .set data =>
      match data.cells[position]? with
      | some (some (v, _)) => .value v
      | some none => .hole
      | none => .finished
    | _ => .finished

/-- A bound on the positions of a source that one step can skip. -/
def skippable (h : Heap) (source : IterationSource) : Nat :=
  match source with
  | .objectKeys _ keys | .objectEntries _ keys => keys.size
  | .mapEntries map =>
    match h.kind map with
    | .map data => data.extent
    | _ => 0
  | .setValues set =>
    match h.kind set with
    | .set data => data.extent
    | _ => 0
  | _ => 0

end Heap

end ObjectModel
