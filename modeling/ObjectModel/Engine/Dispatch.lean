import ObjectModel.Engine.Ordinary
import ObjectModel.Script.Evaluate

/-!
# The engine that answers every method

`step` answers one method over a given engine: a proxy by its traps, any other object by the
ordinary rules or those of its kind.  `engine` ties the knot with fuel, which only bounds the
depth of nested methods.
-/

namespace ObjectModel

namespace Engine

variable (eng : Engine)

/-- Runs a function with a receiver, and a new target if it is being constructed. -/
def runFunction (f : Ref) (receiver : Value) (arguments : List Value) (newTarget : Option Ref) :
    Run Value := do
  match ← Run.kind f with
  | .function data =>
    if newTarget.isSome && !data.behaviour.isConstructor then Run.fail .notConstructor
    else
      match data.behaviour with
      | .native f => eng.runNative f receiver arguments
      | .advances iterator => return .object (← eng.advance iterator)
      | .script f => eng.runScript f ⟨receiver, arguments, newTarget⟩
  | _ => Run.fail .notFunction

/-- Constructs with a function; the result must be an object. -/
def constructFunction (f : Ref) (arguments : List Value) (newTarget : Ref) : Run Ref := do
  match ← eng.runFunction f .undefined arguments (some newTarget) with
  | .object r => pure r
  | _ => Run.fail .constructorGavePrimitive

/-- Answers one method over an engine for the others. -/
def step : {α : Type} → Method α → Run α
  | _, .getOwnProperty o k => do
    match ← Run.kind o with
    | .proxy target traps => eng.proxyGetOwn target traps k
    | _ => return (← Run.object o).ownDescriptor k
  | _, .defineOwnProperty o k d => do
    match ← Run.kind o with
    | .proxy target traps => eng.proxyDefine target traps k d
    | _ => eng.ordinaryDefine o k d
  | _, .hasProperty o k => do
    match ← Run.kind o with
    | .proxy target traps => eng.proxyHas target traps k
    | _ => eng.ordinaryHas o k
  | _, .get o k receiver => do
    match ← Run.kind o with
    | .proxy target traps => eng.proxyGet target traps k receiver
    | _ => eng.ordinaryGet o k receiver
  | _, .set o k v receiver => do
    match ← Run.kind o with
    | .proxy target traps => eng.proxySet target traps k v receiver
    | _ => eng.ordinarySet o k v receiver
  | _, .delete o k => do
    match ← Run.kind o with
    | .proxy target traps => eng.proxyDelete target traps k
    | _ => ordinaryDelete o k
  | _, .ownKeys o => do
    match ← Run.kind o with
    | .proxy target traps => eng.proxyOwnKeys target traps
    | _ => return (← Run.object o).ownKeys
  | _, .setPrototypeOf o p => do
    match ← Run.kind o with
    | .proxy target traps => eng.proxySetPrototypeOf target traps p
    | _ => ordinarySetPrototypeOf o p
  | _, .call f receiver arguments => do
    match ← Run.kind f with
    | .proxy target traps => eng.proxyCall target traps receiver arguments
    | _ => eng.runFunction f receiver arguments none
  | _, .construct f arguments newTarget => do
    match ← Run.kind f with
    | .proxy target traps => eng.proxyConstruct target traps arguments newTarget
    | _ => eng.constructFunction f arguments newTarget
  | _, .evaluate frame e => eng.evaluate frame e

end Engine

/-- The engine with a given amount of fuel. -/
def engine : Nat → Engine
  | 0 => ⟨0, fun _ => Run.outOfFuel⟩
  | fuel + 1 => ⟨fuel + 1, fun method => (engine fuel).step method⟩

end ObjectModel
