import ObjectModel.Engine.Native
import ObjectModel.Script.Show

/-!
# Operands

What the operations of scripts do with an operand: evaluate it and read it as an object, a key, a
number, a text or a descriptor.
-/

namespace ObjectModel

/-- How operands are evaluated, and the expressions they stand for. -/
structure Operands (ε : Type) where
  evaluate : ε → Run Value
  expression : ε → Expr

namespace Operands

variable {ε : Type} (ops : Operands ε)

def evaluateAll : List ε → Run (List Value)
  | [] => pure []
  | e :: rest => do
    let v ← ops.evaluate e
    return v :: (← evaluateAll rest)

def evaluate? : Option ε → Run (Option Value)
  | none => pure none
  | some e => return some (← ops.evaluate e)

/-- An operand that must be an object; `field` names it in the error. -/
def object (field : String) (e : ε) : Run Ref := do
  match ← ops.evaluate e with
  | .object r => pure r
  | _ => Run.fail (.operandNotObject field)

/-- An object, or nothing for any other value. -/
def object? (e : ε) : Run (Option Ref) := do return (← ops.evaluate e).ref?

def key (eng : Engine) (e : ε) : Run Key := do eng.toPropertyKey (← ops.evaluate e)

/-- A number; other values count as zero. -/
def number (e : ε) : Run Number := do
  match ← ops.evaluate e with
  | .number n => pure n
  | _ => pure .zero

/-- A whole number of 32 bits, the nearest one in the direction of zero. -/
def word (e : ε) : Run Nat := do return (← ops.number e).clampNat Number.maxWord

/-- A text; other values count as empty. -/
def text (e : ε) : Run Text := do
  match ← ops.evaluate e with
  | .text t => pure t
  | _ => pure .empty

/-- An accessor function: an object, or undefined for any other value. -/
def accessor : Option ε → Run (Option (Option Ref))
  | none => pure none
  | some e => return some (← ops.object? e)

def descriptor (form : DescriptorForm ε) : Run Descriptor := do
  let value ← ops.evaluate? form.value
  let get ← ops.accessor form.get
  let set ← ops.accessor form.set
  pure
    { value, writable := form.writable, get, set, enumerable := form.enumerable
      configurable := form.configurable }

end Operands

end ObjectModel
