import ObjectModel.Engine.Access

/-!
# Traps

How a proxy answers.  A trap of a function table calls its function with the target and the
operands; a derived trap calls the operations of the handler, with the handler as receiver and
the key as a value; a missing trap forwards to the target.
-/

namespace ObjectModel

namespace Engine

variable (eng : Engine)

/-! ## Operations of a handler -/

def callOperation (h : Handler) (op : HandlerOperation) (arguments : List Value) : Run Value :=
  match h.operation? op with
  | some f => eng.call f (.object h.object) arguments
  | none => Run.fail (.operationMissing op)

/-- The descriptor that an operation gives for a key; undefined is none. -/
def operationDescriptor (h : Handler) (op : HandlerOperation) (key : Value) :
    Run (Option Descriptor) := do
  let result ← eng.callOperation h op [key]
  if result.isUndefined then pure none else return some (← eng.toDescriptor result)

/-- The names that an operation lists. -/
def operationNames (h : Handler) (op : HandlerOperation) : Run (List Value) := do
  eng.listFromArrayLike (← eng.callOperation h op [])

/-- Handlers know the iterator method by the name `iterator`. -/
def handlerKey (k : Key) : Value :=
  if k = .iterator then .text "iterator" else k.toValue

/-! ## Derived traps -/

def derivedGetOwn (h : Handler) (k : Key) : Run (Option Descriptor) :=
  match h.derive? .getOwnPropertyDescriptor with
  | some (.operation op) => eng.operationDescriptor h op k.toValue
  | _ => Run.fail (.trapUnanswerable .getOwnPropertyDescriptor)

def derivedDefine (h : Handler) (k : Key) (d : Descriptor) : Run Bool := do
  match h.derive? .defineProperty with
  | some (.operation op) =>
    let description ← fromDescriptor d
    let _ ← eng.callOperation h op [k.toValue, .object description]
    pure true
  | _ => Run.fail (.trapUnanswerable .defineProperty)

/-- A predicate that an operation answers: a descriptor operation by having an answer. -/
def derivedPredicate (h : Handler) (trap : Trap) (k : Key) : Run Bool := do
  match h.derive? trap with
  | some (.operation op) =>
    let result ← eng.callOperation h op [k.toValue]
    match op with
    | .getPropertyDescriptor | .getOwnPropertyDescriptor => pure !result.isUndefined
    | _ => pure result.truthy
  | _ => Run.fail (.trapUnanswerable trap)

def derivedGet (h : Handler) (k : Key) (receiver : Value) : Run Value := do
  match h.derive? .get with
  | some (.operation .get) => eng.callOperation h .get [receiver, k.toValue]
  | some _ =>
    match ← eng.operationDescriptor h .getPropertyDescriptor (handlerKey k) with
    | none => pure .undefined
    | some d =>
      if d.isData then pure (d.value.getD .undefined)
      else
        match d.get.join with
        | some f => eng.call (.object f) receiver []
        | none => pure .undefined
  | none => Run.fail (.trapUnanswerable .get)

/-- Assigns through a descriptor: a writable data property is defined anew, an accessor calls its
setter. -/
def setThrough (h : Handler) (key : Value) (d : Descriptor) (v receiver : Value) : Run Bool := do
  if d.isData then
    if d.writable != some true then pure false
    else
      let description ← fromDescriptor { d with value := some v }
      let _ ← eng.callOperation h .defineProperty [key, .object description]
      pure true
  else
    match d.set.join with
    | some f =>
      let _ ← eng.call (.object f) receiver [v]
      pure true
    | none => pure false

/-- The descriptor of an operation that the handler may lack. -/
def optionalDescriptor (h : Handler) (op : HandlerOperation) (key : Value) :
    Run (Option Descriptor) :=
  if h.has op then eng.operationDescriptor h op key else pure none

def derivedSet (h : Handler) (k : Key) (v receiver : Value) : Run Bool := do
  match h.derive? .set with
  | some (.operation op) =>
    return (← eng.callOperation h op [receiver, k.toValue, v]).truthy
  | _ =>
    let key := k.toValue
    let own ← eng.optionalDescriptor h .getOwnPropertyDescriptor key
    let found ←
      match own with
      | some d => pure (some d)
      | none => eng.optionalDescriptor h .getPropertyDescriptor key
    match found with
    | some d => eng.setThrough h key d v receiver
    | none =>
      let description ← fromDescriptor (.plain v)
      let _ ← eng.callOperation h .defineProperty [key, .object description]
      pure true

def derivedOwnKeys (h : Handler) : Run (List Key) := do
  match h.derive? .ownKeys with
  | some (.operation op) => eng.toPropertyKeys (← eng.operationNames h op)
  | _ => Run.fail (.trapUnanswerable .ownKeys)

/-- The names whose descriptor is enumerable. -/
def enumerableNames (h : Handler) : List Value → Run (List Value)
  | [] => pure []
  | name :: rest => do
    let key ← eng.toPropertyKey name
    let d ← eng.operationDescriptor h .getPropertyDescriptor key.toValue
    let kept ← enumerableNames h rest
    pure (if d.any Descriptor.isEnumerable then name :: kept else kept)

def derivedEnumerate (h : Handler) : Run Ref := do
  match h.derive? .enumerate with
  | some (.operation .iterate) =>
    match ← eng.callOperation h .iterate [] with
    | .object iterator => pure iterator
    | _ => Run.fail .iterateGavePrimitive
  | some (.operation op) => newIterator (.list (← eng.operationNames h op).toArray)
  | some .enumerableNames =>
    let names ← eng.operationNames h .getPropertyNames
    newIterator (.list (← eng.enumerableNames h names).toArray)
  | _ => Run.fail (.trapUnanswerable .enumerate)

/-! ## Traps of a function table -/

/-- The object a trap must give. -/
def trapObject (v : Value) : Run Ref :=
  match v with
  | .object r => pure r
  | _ => Run.fail .trapGavePrimitive

def callTrap (f : Value) (target : Ref) (arguments : List Value) : Run Value :=
  eng.call f .undefined (.object target :: arguments)

def trapPredicate (f : Value) (target : Ref) (arguments : List Value) : Run Bool := do
  return (← eng.callTrap f target arguments).truthy

/-! ## The answers of a proxy -/

/-- A predicate on a key; `forward` asks the target. -/
def proxyPredicate (target : Ref) (traps : TrapTable) (trap : Trap) (k : Key)
    (forward : Run Bool) : Run Bool :=
  match traps with
  | .functions table =>
    match table.lookup trap with
    | some f => eng.trapPredicate f target [k.toValue]
    | none => forward
  | .adapted h _ => eng.derivedPredicate h trap k
  | .enumeratesTarget => forward

def proxyGetOwn (target : Ref) (traps : TrapTable) (k : Key) : Run (Option Descriptor) := do
  match traps with
  | .functions table =>
    match table.lookup .getOwnPropertyDescriptor with
    | some f =>
      let result ← eng.callTrap f target [k.toValue]
      if result.isUndefined then pure none
      else return some (← eng.toDescriptor result).complete
    | none => eng.getOwnProperty target k
  | .adapted h _ => return (← eng.derivedGetOwn h k).map Descriptor.complete
  | .enumeratesTarget => eng.getOwnProperty target k

def proxyDefine (target : Ref) (traps : TrapTable) (k : Key) (d : Descriptor) : Run Bool := do
  match traps with
  | .functions table =>
    match table.lookup .defineProperty with
    | some f =>
      let description ← fromDescriptor d
      eng.trapPredicate f target [k.toValue, .object description]
    | none => eng.defineOwnProperty target k d
  | .adapted h _ => eng.derivedDefine h k d
  | .enumeratesTarget => eng.defineOwnProperty target k d

def proxyHas (target : Ref) (traps : TrapTable) (k : Key) : Run Bool :=
  eng.proxyPredicate target traps .has k (eng.hasProperty target k)

def proxyDelete (target : Ref) (traps : TrapTable) (k : Key) : Run Bool :=
  eng.proxyPredicate target traps .deleteProperty k (eng.deleteProperty target k)

def proxyGet (target : Ref) (traps : TrapTable) (k : Key) (receiver : Value) : Run Value :=
  match traps with
  | .functions table =>
    match table.lookup .get with
    | some f => eng.callTrap f target [k.toValue, receiver]
    | none => eng.getFor target k receiver
  | .adapted h _ => eng.derivedGet h k receiver
  | .enumeratesTarget => eng.getFor target k receiver

def proxySet (target : Ref) (traps : TrapTable) (k : Key) (v receiver : Value) : Run Bool :=
  match traps with
  | .functions table =>
    match table.lookup .set with
    | some f => eng.trapPredicate f target [k.toValue, v, receiver]
    | none => eng.setFor target k v receiver
  | .adapted h _ => eng.derivedSet h k v receiver
  | .enumeratesTarget => eng.setFor target k v receiver

def proxyOwnKeys (target : Ref) (traps : TrapTable) : Run (List Key) := do
  match traps with
  | .functions table =>
    match table.lookup .ownKeys with
    | some f =>
      let names ← eng.listFromArrayLike (← eng.callTrap f target [])
      eng.toPropertyKeys names
    | none => eng.ownKeys target
  | .adapted h _ => eng.derivedOwnKeys h
  | .enumeratesTarget => eng.ownKeys target

def proxySetPrototypeOf (target : Ref) (traps : TrapTable) (p : Option Ref) : Run Bool :=
  match traps with
  | .functions table =>
    match table.lookup .setPrototypeOf with
    | some f => eng.trapPredicate f target [.ofRef? p]
    | none => eng.setPrototypeOf target p
  | .adapted _ _ => Run.fail .prototypeFixed
  | .enumeratesTarget => eng.setPrototypeOf target p

def proxyCall (target : Ref) (traps : TrapTable) (receiver : Value) (arguments : List Value) :
    Run Value := do
  match traps with
  | .functions table =>
    match table.lookup .apply with
    | some f =>
      let list ← newArray arguments
      eng.callTrap f target [receiver, .object list]
    | none => eng.callRaw target receiver arguments
  | .adapted _ (some callTraps) => eng.call (.object callTraps.call) receiver arguments
  | .adapted _ none => eng.callRaw target receiver arguments
  | .enumeratesTarget => eng.callRaw target receiver arguments

def proxyConstruct (target : Ref) (traps : TrapTable) (arguments : List Value) (newTarget : Ref) :
    Run Ref := do
  match traps with
  | .functions table =>
    match table.lookup .construct with
    | some f =>
      let list ← newArray arguments
      trapObject (← eng.callTrap f target [.object list, .object newTarget])
    | none => eng.constructRaw target arguments newTarget
  | .adapted _ (some callTraps) => eng.construct callTraps.construct arguments none
  | .adapted _ none => eng.constructRaw target arguments newTarget
  | .enumeratesTarget => eng.constructRaw target arguments newTarget

/-- The answer of the `hasOwn` trap, if the object is a proxy that has one. -/
def proxyHasOwn? (o : Ref) (k : Key) : Run (Option Bool) := do
  match ← Run.kind o with
  | .proxy target traps =>
    if traps.has .hasOwn then
      return some (← eng.proxyPredicate target traps .hasOwn k (pure false))
    else pure none
  | _ => pure none

/-- The iterator of the `enumerate` trap, if the object is a proxy that has one. -/
def proxyEnumerate? (o : Ref) : Run (Option Ref) := do
  match ← Run.kind o with
  | .proxy target traps =>
    match traps with
    | .functions table =>
      match table.lookup .enumerate with
      | some f => return some (← trapObject (← eng.callTrap f target []))
      | none => pure none
    | .adapted h _ => return some (← eng.derivedEnumerate h)
    | .enumeratesTarget => pure (some target)
  | _ => pure none

end Engine

end ObjectModel
