import ObjectModel.Engine.Proxy

/-!
# Proxies from old-style handlers

The operations of a handler are read once, when the proxy is made; later changes of the handler
do not matter.  A callable proxy has two functions of its own beside the handler.
-/

namespace ObjectModel.Engine

variable (eng : Engine)

/-- The operations among the given ones that a handler has. -/
def readOperations (handler : Ref) :
    List HandlerOperation → Run (List (HandlerOperation × Value))
  | [] => pure []
  | op :: rest => do
    match ← eng.field? handler op.name with
    | some f => return (op, f) :: (← readOperations handler rest)
    | none => readOperations handler rest

def readHandler (handler : Ref) : Run Handler := do
  return ⟨handler, ← eng.readOperations handler HandlerOperation.all⟩

/-- How each trap comes from a handler, as events. -/
def derivationEvents (h : Handler) : List Event :=
  Trap.derived.map fun trap =>
    match h.derive? trap with
    | some derivation => .trapDerived trap derivation
    | none => .trapUnanswerable trap

/-- The traps of a handler. -/
def adapt (handler : Ref) (callTraps : Option CallTraps) : Run TrapTable := do
  let h ← eng.readHandler handler
  Run.change fun m => { m with events := (derivationEvents h).reverse ++ m.events }
  pure (.adapted h callTraps)

def newProxy (target : Ref) (traps : TrapTable) : Run Ref :=
  Run.allocate (.new none (.proxy target traps))

def requireHandler (v : Value) : Run Ref :=
  match v with
  | .object r => pure r
  | _ => Run.fail .handlerNotObject

/-- A proxy for a new object with the given prototype. -/
def proxyCreate (handler proto : Value) : Run Ref := do
  let handler ← requireHandler handler
  let proto ←
    match proto with
    | .object r => pure (some r)
    | .null | .undefined => pure none
    | _ => Run.fail .prototypeNotObject
  let target ← newObject proto
  newProxy target (← eng.adapt handler none)

/-- A callable proxy; without a construct trap the call trap is used for both. -/
def proxyCreateFunction (handler call : Value) (construct : Option Value) : Run Ref := do
  let handler ← requireHandler handler
  match ← Run.callable? call with
  | none => Run.fail .callTrapNotCallable
  | some call =>
    let construct ←
      match construct with
      | none => pure call
      | some f =>
        match ← Run.callable? f with
        | some f => pure f
        | none => Run.fail .constructTrapNotCallable
    let target ← newFunction none .empty 0 ⟨.native .nothing, .empty, none⟩
    newProxy target (← eng.adapt handler (some ⟨call, construct⟩))

end ObjectModel.Engine
