import ObjectModel.Script.Control
import ObjectModel.Script.Converting
import ObjectModel.Script.Describing
import ObjectModel.Script.Extending
import ObjectModel.Script.Iterating
import ObjectModel.Script.Making

/-!
# Evaluation

The meaning of an expression.  Operands are evaluated in the order of the constructor's
arguments, each checked or converted before the next; a result that is not a language value is
shown inside its operation.  A name is looked up in the running function, then among the names of
the realm, then among the variables, which are global.
-/

namespace ObjectModel

namespace Frame

/-- The number after `arg` in the name of an argument. -/
def argumentIndex? (name : String) : Option Nat :=
  match name.toList with
  | 'a' :: 'r' :: 'g' :: digits =>
    if !digits.isEmpty && digits.all Char.isDigit then
      some (digits.foldl (fun n c => 10 * n + (c.toNat - '0'.toNat)) 0)
    else none
  | _ => none

/-- What a name means inside a running function. -/
def lookup (frame : Frame) (name : String) : Run (Option Value) := do
  match name with
  | "this" => pure (some frame.receiver)
  | "newTarget" => pure (some (frame.newTarget.elim .undefined .object))
  | "args" => return some (.object (← Engine.newArray frame.arguments))
  | _ => pure ((argumentIndex? name).map fun i => frame.arguments.getD i .undefined)

end Frame

namespace Machine

/-- The objects that the extensions name. -/
def extensionValue? (m : Machine) (name : String) : Option Value :=
  match name with
  | "%Iterator.prototype%" => m.extensions.map fun x => .object x.iteratorPrototype
  | "%Iterator%" => m.extensions.map fun x => .object x.iteratorConstructor
  | _ => none

/-- What a name means outside of functions; an unknown one is undefined. -/
def lookup (m : Machine) (name : String) : Value :=
  match name with
  | "@@iterator" => .symbol Symbol.iterator
  | "@@next" => m.extensions.elim .undefined fun x => .symbol x.nextSymbol
  | _ =>
    match Intrinsic.ofName? name with
    | some i => .object i.ref
    | none =>
      match m.extensionValue? name with
      | some v => v
      | none => (m.bindings.lookup name).getD .undefined

end Machine

namespace Engine

variable (eng : Engine)

def operate {ε : Type} (ops : Operands ε) : Operation ε → Run Result
  | .control action => return .value (← control ops action)
  | .pairing action a b => return .value (← pair ops action a b)
  | .create action => return .value (← eng.create ops action)
  | .convert action value => eng.convert ops action value
  | .text action => textAction ops action
  | .access action => eng.access ops action
  | .describe action => eng.describe ops action
  | .collect action => return .value (← collect ops action)
  | .iterate action => eng.iterate ops action
  | .extend action => eng.extend ops action

def lookup (frame : Option Frame) (name : String) : Run Value := do
  let found ←
    match frame with
    | some frame => frame.lookup name
    | none => pure none
  match found with
  | some v => pure v
  | none => return (← Run.machine).lookup name

/-- The value of a subexpression. -/
def evaluateValue (frame : Option Frame) (e : Expr) : Run Value := do
  return (← eng.answer (.evaluate frame e)).toValue

/-- Operands that stand for the numbered subexpressions of an expression. -/
def operandsOf (frame : Option Frame) (operands : List Expr) : Operands Nat where
  evaluate i := eng.evaluateValue frame (Expr.operand operands i)
  expression i := Expr.operand operands i

/-- Operands that are expressions. -/
def expressions (frame : Option Frame) : Operands Expr where
  evaluate e := eng.evaluateValue frame e
  expression e := e

/-- Stores the value of an operation in its variable. -/
def store (name : Option String) (result : Result) : Run Unit :=
  match name, result with
  | some name, .value v => Run.setVariable name v
  | _, _ => pure ()

def evaluate (frame : Option Frame) : Expr → Run Result
  | .value v => pure (.value v)
  | .array items => do
    let values ← (eng.expressions frame).evaluateAll items
    return .value (.object (← newArray values))
  | .name n => return .value (← lookup frame n)
  | .operation op operands storeAs => do
    let result ← eng.operate (eng.operandsOf frame operands) op
    store storeAs result
    pure result

/-- Calls a script function: its body in order, with the value of the last expression. -/
def runScript (f : ScriptFunction) (frame : Frame) : Run Value := do
  if f.logged then Run.logCall f.label frame.receiver frame.arguments frame.newTarget
  evaluateSequence (eng.expressions (some frame)) f.body

end Engine

end ObjectModel
