import ObjectModel.Engine.Accessor
import ObjectModel.Engine.Collection
import ObjectModel.Engine.IterationObject
import ObjectModel.Engine.Iterator
import ObjectModel.Engine.Source

/-!
# Builtin functions

What each builtin does with its receiver and its arguments.
-/

namespace ObjectModel

/-- The word for an object in its default text. -/
def Heap.tag (h : Heap) (r : Ref) : String :=
  if h.isArray (.object r) then "Array"
  else if (h.callable? (.object r)).isSome then "Function"
  else
    match h.kind r with
    | .error => "Error"
    | .wrapper (.bool _) => "Boolean"
    | .wrapper (.number _) => "Number"
    | .wrapper (.text _) => "String"
    | .wrapper (.symbol _) => "Symbol"
    | .date _ => "Date"
    | .regexp _ _ => "RegExp"
    | .map _ => "Map"
    | .set _ => "Set"
    | _ => "Object"

namespace Engine

variable (eng : Engine)

/-! ## Receivers -/

/-- The primitive value that a value is or wraps. -/
def wrapped? (v : Value) : Run (Option Primitive) := do
  match v with
  | .object r =>
    match ← Run.kind r with
    | .wrapper p => pure (some p)
    | _ => pure none
  | _ => pure v.primitive?

def thisBool (v : Value) : Run Bool := do
  match ← wrapped? v with
  | some (.bool b) => pure b
  | _ => Run.fail (.expected .bool)

def thisNumber (v : Value) : Run Number := do
  match ← wrapped? v with
  | some (.number n) => pure n
  | _ => Run.fail (.expected .number)

def thisText (v : Value) : Run Text := do
  match ← wrapped? v with
  | some (.text t) => pure t
  | _ => Run.fail (.expected .text)

def thisSymbol (v : Value) : Run Symbol := do
  match ← wrapped? v with
  | some (.symbol s) => pure s
  | _ => Run.fail (.expected .symbol)

def thisTime (v : Value) : Run Number := do
  match v with
  | .object r =>
    match ← Run.kind r with
    | .date t => pure t
    | _ => Run.fail (.expected .date)
  | _ => Run.fail (.expected .date)

/-- The object that a method was called on. -/
def thisObject (method : Receiver) (v : Value) : Run Ref :=
  match v with
  | .object r => pure r
  | _ => Run.fail (.receiver method)

/-! ## Text of objects -/

def boolText (b : Bool) : Text := if b then "true" else "false"

def objectText (v : Value) : Run Text := do
  let tag ←
    match v with
    | .undefined => pure "Undefined"
    | .null => pure "Null"
    | _ =>
      let r ← toObject v
      pure ((← Run.heap).tag r)
  pure ("[object " ++ tag ++ "]")

/-- A text property of an object, with a default for undefined. -/
def textProperty (o : Ref) (k : Key) (default : Text) : Run Text := do
  let v ← eng.get o k
  if v.isUndefined then pure default else eng.toText v

def errorText (o : Ref) : Run Text := do
  let name ← eng.textProperty o "name" "Error"
  let message ← eng.textProperty o "message" .empty
  pure <|
    if name.isEmpty then message
    else if message.isEmpty then name
    else name ++ Text.ofString ": " ++ message

/-! ## Regular expressions -/

/-- The source and the flags of a regular expression. -/
def regexp? (v : Value) : Run (Option (Text × Text)) := do
  match v with
  | .object r =>
    match ← Run.kind r with
    | .regexp source flags => pure (some (source, flags))
    | _ => pure none
  | _ => pure none

/-- How an empty pattern is written. -/
def emptyPattern : Text := "(?:)"

def regexpSource (v : Value) : Run Text := do
  match ← regexp? v with
  | some (source, _) => pure (if source.isEmpty then emptyPattern else source)
  | none =>
    if v = .object Intrinsic.regexpPrototype.ref then pure emptyPattern
    else Run.fail (.receiver .regexpSource)

def regexpFlags (v : Value) : Run Text := do
  let _ ← thisObject .regexpFlags v
  return ((← regexp? v).map Prod.snd).getD .empty

def regexpText (o : Ref) : Run Text := do
  let source ← eng.toText (← eng.get o "source")
  let flags ← eng.toText (← eng.get o "flags")
  pure (Text.ofString "/" ++ source ++ Text.ofString "/" ++ flags)

/-- Every flag is known and occurs once. -/
def flagsAllowed : List UInt16 → Bool
  | [] => true
  | u :: rest => "dgimsuvy".toList.any (fun c => UInt16.ofNat c.toNat == u)
    && !rest.contains u && flagsAllowed rest

def newRegexp (source flags : Text) : Run Ref :=
  if flagsAllowed flags.units then newOfClass .regexpPrototype (.regexp source flags)
  else Run.fail (.regexpFlags flags)

/-! ## The builtins -/

/-- Runs a builtin function.  Missing arguments are undefined. -/
def runNative (f : Native) (this : Value) (arguments : List Value) : Run Value := do
  let arg (i : Nat) : Value := arguments.getD i .undefined
  match f with
  | .objectHasOwnProperty =>
    let k ← eng.toPropertyKey (arg 0)
    let o ← toObject this
    return .bool (← eng.hasOwnProperty o k)
  | .objectToString => return .text (← objectText this)
  | .objectValueOf => return .object (← toObject this)
  | .functionToString =>
    match (← Run.heap).functionSource? this with
    | some source => pure (.text source)
    | none => Run.fail (.receiver .functionToString)
  | .symbolToString =>
    let s ← thisSymbol this
    return .text ((← Run.heap).descriptiveText s)
  | .symbolValueOf => return .symbol (← thisSymbol this)
  | .booleanToString => return .text (boolText (← thisBool this))
  | .booleanValueOf => return .bool (← thisBool this)
  | .numberToString => return .text (← thisNumber this).toText
  | .numberValueOf => return .number (← thisNumber this)
  | .stringToString => return .text (← thisText this)
  | .stringValueOf => return .text (← thisText this)
  | .errorToString =>
    let o ← thisObject .errorToString this
    return .text (← eng.errorText o)
  | .dateGetTime => return .number (← thisTime this)
  | .regexpFlags => return .text (← regexpFlags this)
  | .regexpSource => return .text (← regexpSource this)
  | .regexpToString =>
    let o ← thisObject .regexpToString this
    return .text (← eng.regexpText o)
  | .mapDelete => return .bool (← mapDelete this (arg 0))
  | .mapGet => mapGet this (arg 0)
  | .mapHas => return .bool (← mapHas this (arg 0))
  | .mapSet =>
    mapSet this (arg 0) (arg 1)
    pure this
  | .setAdd =>
    setAdd this (arg 0)
    pure this
  | .setDelete => return .bool (← setDelete this (arg 0))
  | .setHas => return .bool (← setHas this (arg 0))
  | .hostNext =>
    let o ← thisObject .hostNext this
    return .object (← eng.advance o)
  | .uneval => return .text (← eng.uneval (arg 0))
  | .objectToSource =>
    if this.isNullish then Run.fail (.receiver .objectToSource)
    else
      let o ← toObject this
      return .text (← eng.objectSource o)
  | .arrayToSource =>
    let o ← thisObject .arrayToSource this
    if (← Run.heap).isArray this then return .text (← eng.arraySource o)
    else Run.fail (.receiver .arrayToSource)
  | .functionToSource => return .text (← eng.functionSource this)
  | .stringToSource => return .text (constructorSource "String" (← thisText this).quote)
  | .numberToSource => return .text (constructorSource "Number" (← thisNumber this).toText)
  | .booleanToSource => return .text (constructorSource "Boolean" (boolText (← thisBool this)))
  | .dateToSource => return .text (constructorSource "Date" (← thisTime this).toText)
  | .regexpToSource =>
    match ← regexp? this with
    | some _ =>
      let o ← thisObject .regexpToSource this
      return .text (← eng.regexpText o)
    | none => Run.fail (.receiver .regexpToSource)
  | .errorToSource =>
    let o ← thisObject .errorToSource this
    return .text (← eng.errorSource o)
  | .defineAccessor half =>
    eng.defineAccessor half this (arg 0) (arg 1)
    pure .undefined
  | .lookupAccessor half => eng.lookupAccessor half this (arg 0)
  | .proxyCreate => return .object (← eng.proxyCreate (arg 0) (arg 1))
  | .proxyCreateFunction =>
    let construct := if (arg 2).isUndefined then none else some (arg 2)
    return .object (← eng.proxyCreateFunction (arg 0) (arg 1) construct)
  | .iteratorConstructor => return .object (← eng.newIteration (arg 0) (arg 1).truthy)
  | .iterationNext => eng.iterationNext this
  | .iterationSelf => pure this
  | .arrayIterator =>
    let o ← toObject this
    return .object (← newEnumerable (.arrayValues o))
  | .stringIterator =>
    if this.isNullish then Run.fail (.receiver .stringIterator)
    else
      let t ← eng.toText this
      return .object (← newEnumerable (.codeUnits t.units.toArray))
  | .mapIterator =>
    let o ← thisObject .mapIterator this
    match ← Run.kind o with
    | .map _ => return .object (← newEnumerable (.mapEntries o))
    | _ => Run.fail (.receiver .mapIterator)
  | .setIterator =>
    let o ← thisObject .setIterator this
    match ← Run.kind o with
    | .set _ => return .object (← newEnumerable (.setValues o))
    | _ => Run.fail (.receiver .setIterator)
  | .objectIterator => eng.getV this "iterator"
  | .stringQuote =>
    if this.isNullish then Run.fail (.receiver .stringQuote)
    else return .text (← eng.toText this).quote
  | .nothing => pure .undefined
  | .probe => pure (arg 0)

end Engine

end ObjectModel
