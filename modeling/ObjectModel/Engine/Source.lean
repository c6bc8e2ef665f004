import ObjectModel.Engine.Enumeration

/-!
# Source text of values

`uneval` gives a text that describes a value in the language's own literals.  Objects answer
through their `toSource` method; the builtin ones for objects, arrays and errors keep the set of
composites they are inside of, and write an empty literal in place of one they meet again.
-/

namespace ObjectModel

/-- The text of a function without source text. -/
def nativeSource (name : Text) : Text :=
  Text.ofString "function " ++ name ++ Text.ofString "() \x7b\n    [native code]\n\x7d"

/-- The source text of a callable object. -/
def Heap.functionSource? (h : Heap) (v : Value) : Option Text :=
  match v with
  | .object r =>
    match h.kind r with
    | .function f =>
      some (match f.source with
        | some source => source.lossy
        | none => nativeSource f.initialName.lossy)
    | .proxy _ _ => (h.callable? v).map fun _ => nativeSource .empty
    | _ => none
  | _ => none

/-- A function's source from its parameter list on. -/
def Text.fromParameters (source : Text) : Text :=
  match source.indexOf? 0x28 with
  | some i => source.dropFrom i
  | none => source

namespace Engine

variable (eng : Engine)

/-- Runs inside a composite; one that is already being visited is given as its placeholder. -/
def visit (r : Ref) (placeholder : Text) (body : Run Text) : Run Text := do
  if (← Run.machine).source.isVisiting r then
    Run.emit (.revisited placeholder)
    pure placeholder
  else
    Run.change fun m => { m with source := m.source.enter r }
    Run.afterwards body fun m => { m with source := m.source.leave r }

def uneval (v : Value) : Run Text := do
  match v with
  | .undefined => pure "(void 0)"
  | .null => pure "null"
  | .bool b => pure (if b then "true" else "false")
  | .number n => pure n.toText
  | .text t => pure t.quote
  | .symbol _ | .object _ =>
    let method ← eng.getV v "toSource"
    match ← Run.callable? method with
    | none => pure "null"
    | some f =>
      let result ← eng.call (.object f) v []
      return (← eng.toText result).lossy

/-- One half of an accessor as it stands in an object literal. -/
def accessorSource (h : Heap) (verb : String) (name : Text) (f : Ref) : Text :=
  Text.ofString verb ++ name ++ ((h.functionSource? (.object f)).getD .empty).fromParameters

/-- The entry of an own property; nothing if it has vanished or is an accessor without
functions. -/
def propertySource (o : Ref) (k : Key) : Run (Option Text) := do
  match ← eng.getOwnProperty o k with
  | none => pure none
  | some d =>
    if d.isAccessor then
      let heap ← Run.heap
      let getter := d.get.join.map (accessorSource heap "get " k.literalName)
      let setter := d.set.join.map (accessorSource heap "set " k.literalName)
      match getter.toList ++ setter.toList with
      | [] => pure none
      | halves => pure (some (Text.join ", " halves))
    else
      let v ← eng.uneval (d.value.getD .undefined)
      pure (some (k.literalName ++ Text.ofString ":" ++ v))

def propertySources (o : Ref) : List Key → Run (List Text)
  | [] => pure []
  | k :: rest => do
    let entry ← eng.propertySource o k
    return entry.toList ++ (← propertySources o rest)

/-- The object literal of the enumerable own properties, in parentheses unless it stands inside
another composite. -/
def objectSource (o : Ref) : Run Text :=
  visit o "\x7b\x7d" do
    let depth := (← Run.machine).source.depth
    let keys ← eng.enumerableOwnKeys o
    let entries ← eng.propertySources o keys
    let body := Text.join ", " entries
    pure <|
      if 1 < depth then Text.concat ["\x7b", body, "\x7d"]
      else Text.concat ["(\x7b", body, "\x7d)"]

/-- The source of the elements at `count` positions from `start` on, piece by piece; a hole is a
comma. -/
def elementSources (o : Ref) : Nat → Nat → Run (List Text)
  | 0, _ => pure []
  | count + 1, start => do
    let key := Key.ofPosition start
    let item ←
      if ← eng.hasOwnProperty o key then
        let element ← eng.uneval (← eng.get o key)
        pure (if count = 0 then [element] else [element, ", "])
      else pure [if count = 0 then "," else ", "]
    return item ++ (← elementSources o count (start + 1))

def arraySource (o : Ref) : Run Text :=
  visit o "[]" do
    let length ← eng.lengthOfArrayLike o
    let elements ← eng.elementSources o length 0
    pure (Text.ofString "[" ++ Text.concat (elements ++ [Text.ofString "]"]))

/-- A constructor call with one argument. -/
def constructorSource (name argument : Text) : Text :=
  Text.ofString "(new " ++ name ++ Text.ofString "(" ++ argument ++ Text.ofString "))"

def errorSource (o : Ref) : Run Text :=
  visit o "\x7b\x7d" do
    let name ← eng.toText (← eng.get o "name")
    let message ← eng.uneval (← eng.get o "message")
    pure (constructorSource name.lossy message)

/-- A function's source, in parentheses if the function has no name. -/
def functionSource (v : Value) : Run Text := do
  match (← Run.heap).functionSource? v with
  | none => Run.fail (.receiver .functionToSource)
  | some source =>
    let name ← eng.toText (← eng.getV v "name")
    pure (if name.isEmpty then Text.ofString "(" ++ source ++ Text.ofString ")" else source)

end Engine

end ObjectModel
