import ObjectModel.Engine.Dispatch

/-!
# Sessions

A session makes a realm and runs the steps of a script in order.  Each step is reported with what
it gave or threw, the calls it made and the events it caused; a step that throws does not stop
the script.
-/

namespace ObjectModel

/-- How a step ended. -/
inductive Verdict where
  | value (v : View)
  | plain (p : Plain)
  /-- An error object of a known kind. -/
  | error (kind : ErrorKind) (message : Text)
  /-- Any other thrown value. -/
  | thrown (v : View) (message : Text)
  | outOfFuel

structure Report where
  verdict : Verdict
  log : List LogEntry
  events : List Event

structure Session where
  options : Options
  steps : List Expr

namespace Session

/-- Nested methods go no deeper than this. -/
def fuel : Nat := 1000000

def root : Engine := engine fuel

/-- The kind of error that a thrown value is: that of its prototype. -/
def errorKind? (h : Heap) (v : Value) : Option ErrorKind :=
  match v with
  | .object r =>
    let o := h.object r
    if o.isProxy then none
    else ErrorKind.all.find? fun kind => o.prototype == some (Intrinsic.ofErrorKind kind).ref
  | _ => none

/-- What stands for a thrown value that has no text. -/
def unprintable : Text := "<unprintable exception>"

def thrownMessage (eng : Engine) (v : Value) : Run Text := do
  match ← Run.attempt (eng.toText v) with
  | .ok t => pure t.lossy
  | .error _ => pure unprintable

/-- Shows a thrown value; its text may call functions. -/
def showThrown (eng : Engine) (v : Value) : Run Verdict := do
  match errorKind? (← Run.heap) v with
  | some kind => return .error kind (← thrownMessage eng v)
  | none =>
    let view ← Run.showValue v
    return .thrown view (← thrownMessage eng v)

def showResult : Result → Run Verdict
  | .value v => return .value (← Run.showValue v)
  | .plain p => pure (.plain p)

/-- Runs one step to its verdict. -/
def judge (eng : Engine) (e : Expr) : Run Verdict := do
  match ← Run.attempt (eng.answer (.evaluate none e)) with
  | .ok result => showResult result
  | .error v => showThrown eng v

/-- The machine with nothing recorded. -/
def quiet (m : Machine) : Machine := { m with log := [], events := [] }

/-- Runs one step and reports it. -/
def runStep (eng : Engine) (m : Machine) (e : Expr) : Report × Machine :=
  match judge eng e (quiet m) with
  | .ok verdict m => (⟨verdict, m.log.reverse, m.events.reverse⟩, m)
  | .error _ m => (⟨.outOfFuel, m.log.reverse, m.events.reverse⟩, m)

def runSteps (eng : Engine) : Machine → List Expr → List Report
  | _, [] => []
  | m, e :: rest =>
    let (report, m) := runStep eng m e
    report :: runSteps eng m rest

/-- The machine with its realm made. -/
def initialMachine (options : Options) : Machine :=
  match Engine.start (.bare options) with
  | .ok _ m => m
  | .error _ m => m

/-- The events of making the realm, and the reports of the steps. -/
def run (s : Session) : List Event × List Report :=
  let m := initialMachine s.options
  (m.events.reverse, runSteps root m s.steps)

end Session

end ObjectModel
