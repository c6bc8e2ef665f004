import ObjectModel.Script.Operand

/-!
# Conversion and texts

The operations that convert one value, and those on texts.
-/

namespace ObjectModel.Engine

variable (eng : Engine) {ε : Type} (ops : Operands ε)

def classify (h : Heap) (v : Value) : Plain :=
  let extensible := v.ref?.map h.isExtensible
  .classification (h.isArray v) (h.callable? v).isSome (h.isConstructor v) extensible v.isNullish
    (v == .null) (match v with | .text _ => true | _ => false)

def convert (action : Conversion) (operand : ε) : Run Result := do
  let v ← ops.evaluate operand
  match action with
  | .primitive hint => return .value (← eng.toPrimitive v (hint.getD .number))
  | .boolean => pure (.value (.bool v.truthy))
  | .number => return .value (.number (← eng.toNumber v))
  | .integer => return .value (.number (← eng.toIntegerOrInfinity v))
  | .word => return .value (.ofNat (← eng.toWord v))
  | .length => return .value (.ofNat (← eng.toLength v))
  | .text => return .value (.text (← eng.toText v))
  | .object => return .value (.object (← toObject v))
  | .display => return .plain (.text (← eng.toText v).lossy)
  | .key =>
    let k ← eng.toPropertyKey v
    let view ← Run.showKey k
    return .plain (.key view ((← Run.heap).displayKey k) k.isIndex k.isSymbol)
  | .classify => return .plain (classify (← Run.heap) v)

/-! ## Texts -/

/-- The texts among some values. -/
def textsOf (vs : List Value) : List Text :=
  vs.filterMap fun
    | .text t => some t
    | _ => none

/-- The places of some texts, which are interned. -/
def internAll : List Text → Run (List TextRef)
  | [] => pure []
  | t :: rest => do
    let r ← Run.makeText (.units t.units)
    return r :: (← internAll rest)

/-- The key that a string names; if it is no index, the string is made a text.  A key holds the text
itself and not its place. -/
def keyOf (make : String → TextConstruction) (s : String) : Run Key := do
  match (Text.ofBytes (Wtf8.ofString s).bytes).arrayIndex? with
  | some i => pure (.index i)
  | none =>
    let texts ← Run.texts
    let _ ← Run.makeText (make s)
    return .name ⟨((make s).encoded texts).units⟩

def textAction : TextAction ε → Run Result
  | .inspect value position search => do
    let t ← ops.text value
    let r ← Run.makeText (.units t.units)
    let tail ← Run.makeText (.tail r position)
    let texts ← Run.texts
    return .plain <|
      .textFacts (texts.length r) r.isEmpty ((texts.text r).unitAt? position)
        ((texts.text r).indexOf? search) (.text (texts.text tail)) (texts.text r).lossy
  | .concat parts => do
    let rs ← internAll (textsOf (← ops.evaluateAll parts))
    let r ← Run.makeText (.concat rs)
    return .value (.text ((← Run.texts).text r))
  | .quote value => do return .plain (.text (← ops.text value).quote)
  | .quoteWith value mark => do return .plain (.text ((← ops.text value).quoteWith mark))
  | .key name => do
    let k ← keyOf .copy name
    let k' ← keyOf .string name
    return .plain (.keyOfText (← Run.showKey k) (k == k'))

end ObjectModel.Engine
