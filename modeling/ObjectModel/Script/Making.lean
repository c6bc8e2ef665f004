import ObjectModel.Script.Operand

/-!
# Making values

The operations that make objects, functions, symbols and wrappers.
-/

namespace ObjectModel.Engine

variable (eng : Engine) {ε : Type} (ops : Operands ε)

/-- Adds data properties whose keys and values are operands. -/
def addProperties (o : Ref) : List (ε × ε) → Run Unit
  | [] => pure ()
  | (k, v) :: rest => do
    let key ← ops.key eng k
    let value ← ops.evaluate v
    eng.createDataPropertyOrThrow o key value
    addProperties o rest

/-- A value that is neither undefined, null nor an object. -/
def requirePrimitive (v : Value) : Run Primitive :=
  match v.primitive? with
  | some p => pure p
  | none => Run.fail .operandNotPrimitive

def exoticKind (slots : Exotic) (value : ε) : Run Kind := do
  match slots with
  | .ordinary => pure .ordinary
  | .array => pure (.array 0 true)
  | .map => pure (.map .empty)
  | .set => pure (.set .empty)
  | .wrapper => return .wrapper (← requirePrimitive (← ops.evaluate value))

/-- Wraps a value in arrays, or in objects under a key. -/
def nest (inArrays : Bool) (k : Key) : Nat → Value → Run Value
  | 0, v => pure v
  | depth + 1, v => do
    let o ← if inArrays then newArray [v] else newPlainObject [(k, v)]
    nest inArrays k depth (.object o)

/-- The name of a function, with the verb of an accessor before it. -/
def functionName (verb : Option String) (name : Text) : Text :=
  match verb with
  | some verb => Text.ofString (verb ++ " ") ++ name
  | none => name

def newScriptFunction (proto : Option Ref) (form : FunctionForm ε) : Run Ref :=
  let name := functionName form.verb form.name
  newFunction proto name form.length
    { behaviour :=
        .script ⟨form.label, form.logged, form.isConstructor, form.body.map ops.expression⟩
      initialName := name
      source := form.source }

/-- The property stored for a descriptor without any checks; a value without a word on
writability is hidden. -/
def populatedProperty (d : Descriptor) : Property :=
  match d.value, d.writable with
  | some v, none => .hidden v
  | _, _ => .ofDescriptor d

def populatedProperties : List (ε × DescriptorForm ε) → Run (List (Key × Property))
  | [] => pure []
  | (k, form) :: rest => do
    let key ← ops.key eng k
    let d ← ops.descriptor form
    return (key, populatedProperty d) :: (← populatedProperties rest)

def hiddenProperties : List (ε × ε) → Run (List (Key × Property))
  | [] => pure []
  | (k, v) :: rest => do
    let key ← ops.key eng k
    let value ← ops.evaluate v
    return (key, .hidden value) :: (← hiddenProperties rest)

/-- The builtin that returns its first argument. -/
def newProbe (proto : Option Ref) : Run Ref :=
  newFunction proto "probe" 3 ⟨.native .probe, "probe", none⟩

/-- The property that adds the probe to an object. -/
def probeProperties (wanted : Bool) : Run (List (Key × Property)) := do
  if wanted then
    let f ← newProbe none
    pure [("probe", .data (.object f) false true true)]
  else pure []

def create : Creation ε → Run Value
  | .object proto properties => do
    let proto ←
      match proto with
      | none => pure (some Intrinsic.objectPrototype.ref)
      | some e => ops.object? e
    let o ← newObject proto
    eng.addProperties ops o properties
    pure (.object o)
  | .exotic proto slots value => do
    let kind ← exoticKind ops slots value
    return .object (← newOfClass proto kind)
  | .intrinsic i => pure (.object i.ref)
  | .array length proto items => do
    let length ← ops.word length
    let proto ← ops.object? proto
    let proto := proto.getD Intrinsic.arrayPrototype.ref
    let o ← Run.allocate (.new (some proto) (.array length true))
    eng.addProperties ops o items
    pure (.object o)
  | .nest value key depth inArrays => do
    let v ← ops.evaluate value
    let k ← ops.key eng key
    let depth ← ops.word depth
    nest inArrays k depth v
  | .wrap value => do
    let p ← requirePrimitive (← ops.evaluate value)
    return .object (← newWrapper p)
  | .unwrap value => do return (← requirePrimitive (← ops.evaluate value)).toValue
  | .date time => do
    let t ← ops.number time
    return .object (← newOfClass .datePrototype (.date t.clipTime))
  | .regexp pattern flags => return .object (← newRegexp pattern flags)
  | .error kind message => return .object (← Run.newError kind message)
  | .symbol description => return .symbol (← newSymbol description)
  | .function proto form => do
    let proto ← ops.object? proto
    return .object (← newScriptFunction ops proto form)
  | .populated proto properties extensible probe => do
    let proto ← ops.object? proto
    let stored ← eng.populatedProperties ops properties
    let probes ← probeProperties probe
    let o := (Object.new proto .ordinary).populate (stored ++ probes) (extensible.getD true)
    return .object (← Run.allocate o)
  | .probe proto properties => do
    let proto ← ops.object? proto
    let stored ← eng.hiddenProperties ops properties
    let f ← newProbe proto
    Run.update f fun o => o.populate stored o.extensible
    pure (.object f)

end ObjectModel.Engine
