import ObjectModel.Script.Accessing

/-!
# The extensions

Source text, proxies, iteration objects and installation.
-/

namespace ObjectModel.Engine

variable (eng : Engine) {ε : Type} (ops : Operands ε)

/-- The traps that the given names stand for; other names are evaluated and dropped. -/
def evaluateTraps : List (String × ε) → Run (List (Trap × Value))
  | [] => pure []
  | (name, e) :: rest => do
    let f ← ops.evaluate e
    let traps ← evaluateTraps rest
    match Trap.ofName? name with
    | some trap => pure ((trap, f) :: traps)
    | none => pure traps

def extend : Extension ε → Run Result
  | .uneval value => do
    let v ← ops.evaluate value
    return .value (.text (← eng.uneval v))
  | .sourceContext => do
    let source := (← Run.machine).source
    pure (.plain (.sourceContext source.depth source.isIdle))
  | .proxyCreate handler proto => do
    let handler ← ops.evaluate handler
    let proto ← ops.evaluate proto
    return .value (.object (← eng.proxyCreate handler proto))
  | .proxyCreateFunction handler call construct => do
    let handler ← ops.evaluate handler
    let call ← ops.evaluate call
    let construct ← ops.evaluate? construct
    return .value (.object (← eng.proxyCreateFunction handler call construct))
  | .adapt handler => do
    let handler ← ops.object "handler" handler
    return .plain (.text (← eng.adapt handler none).summary)
  | .handlerOperations handler => do
    let handler ← ops.object "handler" handler
    let h ← eng.readHandler handler
    pure (.plain (.names (h.operations.map fun e => e.1.name)))
  | .proxy target traps => do
    let target ← ops.object "target" target
    let table ← evaluateTraps ops traps
    return .value (.object (← newProxy target (.functions table)))
  | .trapTable traps => do
    return .plain (.text (TrapTable.functions (← evaluateTraps ops traps)).summary)
  | .iterationObject value keysOnly => do
    let v ← ops.evaluate value
    return .value (.object (← eng.newIteration v keysOnly))
  | .isIterationObject value => do
    let v ← ops.evaluate value
    boolResult (eng.isIterationObject v)
  | .install => do
    let x ← install
    let views ← Run.showValues
      [.symbol x.nextSymbol, .object x.iteratorPrototype, .object x.iteratorConstructor]
    pure (.plain (.values views))
  | .realm => do
    let m ← Run.machine
    let global ← Run.showObject Intrinsic.globalObject.ref
    pure <| .plain <|
      .realm m.extensions.isSome m.options.withoutExtensions m.options.printInternals global

end ObjectModel.Engine
