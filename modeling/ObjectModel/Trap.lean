import ObjectModel.Value

/-!
# Traps and handlers

A proxy answers an operation by a trap, or forwards it to its target when the trap is missing.
The traps come from a table of functions, from an old-style handler whose operations were read
when the proxy was made, or are the single trap of an iterator that enumerates itself.

An old-style handler has any of thirteen operations.  Each trap is derived from the first of its
derivations whose operations the handler has; a trap without one cannot be answered.
-/

namespace ObjectModel

inductive Trap where
  | getOwnPropertyDescriptor
  | defineProperty
  | has
  | hasOwn
  | get
  | set
  | deleteProperty
  | ownKeys
  | enumerate
  | setPrototypeOf
  | apply
  | construct
  deriving DecidableEq, Inhabited

namespace Trap

def name : Trap → String
  | .getOwnPropertyDescriptor => "getOwnPropertyDescriptor"
  | .defineProperty => "defineProperty"
  | .has => "has"
  | .hasOwn => "hasOwn"
  | .get => "get"
  | .set => "set"
  | .deleteProperty => "deleteProperty"
  | .ownKeys => "ownKeys"
  | .enumerate => "enumerate"
  | .setPrototypeOf => "setPrototypeOf"
  | .apply => "apply"
  | .construct => "construct"

/-- The traps that are derived from a handler, in the order of derivation. -/
def derived : List Trap :=
  [.getOwnPropertyDescriptor, .defineProperty, .has, .hasOwn, .get, .set, .deleteProperty,
    .ownKeys, .enumerate]

def all : List Trap := derived ++ [.setPrototypeOf, .apply, .construct]

def ofName? (s : String) : Option Trap := all.find? fun t => t.name == s

end Trap

/-- The operations of an old-style handler. -/
inductive HandlerOperation where
  | getOwnPropertyDescriptor
  | getPropertyDescriptor
  | defineProperty
  | getOwnPropertyNames
  | delete
  | enumerate
  | iterate
  | getPropertyNames
  | keys
  | has
  | hasOwn
  | get
  | set
  deriving DecidableEq, Inhabited

namespace HandlerOperation

def name : HandlerOperation → String
  | .getOwnPropertyDescriptor => "getOwnPropertyDescriptor"
  | .getPropertyDescriptor => "getPropertyDescriptor"
  | .defineProperty => "defineProperty"
  | .getOwnPropertyNames => "getOwnPropertyNames"
  | .delete => "delete"
  | .enumerate => "enumerate"
  | .iterate => "iterate"
  | .getPropertyNames => "getPropertyNames"
  | .keys => "keys"
  | .has => "has"
  | .hasOwn => "hasOwn"
  | .get => "get"
  | .set => "set"

/-- All operations, in the order in which they are read from a handler. -/
def all : List HandlerOperation :=
  [.getOwnPropertyDescriptor, .getPropertyDescriptor, .defineProperty, .getOwnPropertyNames,
    .delete, .enumerate, .iterate, .getPropertyNames, .keys, .has, .hasOwn, .get, .set]

end HandlerOperation

/-- A handler with the values its operations had when it was read. -/
structure Handler where
  object : Ref
  operations : List (HandlerOperation × Value)
  deriving Inhabited

namespace Handler

def operation? (h : Handler) (op : HandlerOperation) : Option Value := h.operations.lookup op

def has (h : Handler) (op : HandlerOperation) : Bool := (h.operation? op).isSome

end Handler

/-! ## Derivations -/

/-- A way of building a trap. -/
inductive Derivation where
  /-- From one operation of the handler. -/
  | operation (op : HandlerOperation)
  /-- From listing all names and keeping those whose descriptor is enumerable. -/
  | enumerableNames
  /-- By looking for a descriptor and redefining the property. -/
  | descriptors
  deriving DecidableEq

namespace Derivation

/-- The operations that a derivation needs. -/
def requires : Derivation → List HandlerOperation
  | .operation op => [op]
  | .enumerableNames => [.getPropertyNames, .getPropertyDescriptor]
  | .descriptors => []

/-- How a derivation is named in events. -/
def label : Derivation → String
  | .operation op => op.name
  | .enumerableNames => "getPropertyNames"
  | .descriptors => "getOwnPropertyDescriptor, getPropertyDescriptor and defineProperty"

end Derivation

/-- The derivations of a trap, the preferred one first. -/
def Trap.derivations : Trap → List Derivation
  | .getOwnPropertyDescriptor =>
    [.operation .getOwnPropertyDescriptor, .operation .getPropertyDescriptor]
  | .defineProperty => [.operation .defineProperty]
  | .has => [.operation .has, .operation .getPropertyDescriptor]
  | .hasOwn => [.operation .hasOwn, .operation .getOwnPropertyDescriptor]
  | .get => [.operation .get, .operation .getPropertyDescriptor]
  | .set => [.operation .set, .descriptors]
  | .deleteProperty => [.operation .delete]
  | .ownKeys => [.operation .keys, .operation .getOwnPropertyNames]
  | .enumerate => [.operation .enumerate, .operation .iterate, .enumerableNames]
  | .setPrototypeOf | .apply | .construct => []

/-- The derivation that a handler allows for a trap. -/
def Handler.derive? (h : Handler) (t : Trap) : Option Derivation :=
  t.derivations.find? fun d => d.requires.all h.has

/-- The functions that a callable proxy runs when it is called and constructed. -/
structure CallTraps where
  call : Ref
  construct : Ref

inductive TrapTable where
  /-- Each trap calls the function given for it. -/
  | functions (table : List (Trap × Value))
  /-- The traps derived from a handler; a callable proxy has two more. -/
  | adapted (handler : Handler) (callTraps : Option CallTraps)
  /-- Enumerating the proxy gives its target. -/
  | enumeratesTarget

namespace TrapTable

def has (t : TrapTable) (trap : Trap) : Bool :=
  match t with
  | .functions table => (table.lookup trap).isSome
  | .adapted _ callTraps =>
    match trap with
    | .apply | .construct => callTraps.isSome
    | _ => true
  | .enumeratesTarget => trap == .enumerate

/-- The traps that are present. -/
def traps (t : TrapTable) : List Trap := Trap.all.filter t.has

/-- The present traps as a diagnostic text. -/
def summary (t : TrapTable) : String :=
  "TrapTable \x7b traps: ["
    ++ String.intercalate ", " (t.traps.map fun trap => "\"" ++ trap.name ++ "\"") ++ "] \x7d"

end TrapTable

end ObjectModel
