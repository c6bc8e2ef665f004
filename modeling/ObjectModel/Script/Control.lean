import ObjectModel.Script.Operand

/-!
# Control

Sequences, choices, catching and raising, and comparison of two values.
-/

namespace ObjectModel

def Run.setVariable (name : String) (v : Value) : Run Unit :=
  Run.change fun m =>
    { m with bindings := (name, v) :: m.bindings.filter fun e => e.1 != name }

namespace Engine

variable (eng : Engine) {ε : Type} (ops : Operands ε)

/-- The value of the last expression. -/
def evaluateSequence : List ε → Run Value
  | [] => pure .undefined
  | [e] => ops.evaluate e
  | e :: rest => do
    let _ ← ops.evaluate e
    evaluateSequence rest

def control : Control ε → Run Value
  | .give e => ops.evaluate e
  | .sequence steps => evaluateSequence ops steps
  | .choose condition yes no => do
    if (← ops.evaluate condition).truthy then ops.evaluate yes else ops.evaluate no
  | .select on cases otherwise => do
    match ← ops.evaluate on with
    | .text t => ops.evaluate ((t.toString?.bind fun name => cases.lookup name).getD otherwise)
    | _ => ops.evaluate otherwise
  | .attempt body recovery => do
    match ← Run.attempt (ops.evaluate body) with
    | .ok v => pure v
    | .error thrown =>
      Run.change fun m => { m with caught := thrown }
      Run.setVariable "error" thrown
      ops.evaluate recovery
  | .raise (some kind) message => Run.fail (.raised kind message)
  | .raise none _ => Run.throwValue .undefined
  | .rethrow => do Run.throwValue (← Run.machine).caught
  | .unknown name => Run.fail (.unknownOperation name)

def pair (action : Pairing) (a b : ε) : Run Value := do
  match action with
  | .looksEqual => return .bool ((← ops.evaluate a).looksEqual (← ops.evaluate b))
  | .add => return .number ((← ops.number a).add (← ops.number b))
  | .sameValue => return .bool ((← ops.evaluate a).sameValue (← ops.evaluate b))
  | .sameValueZero => return .bool ((← ops.evaluate a).sameValueZero (← ops.evaluate b))

end Engine

end ObjectModel
