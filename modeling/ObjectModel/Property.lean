import ObjectModel.Key

/-!
# Properties and descriptors

A stored property has all its attributes; a descriptor has any of them, and says what a
definition asks for.  `Property.revise` is the rule of definition: whether a stored property may
become what a descriptor asks for, and what it then is.
-/

namespace ObjectModel

/-- The attributes a definition mentions.  An accessor can be mentioned as undefined. -/
structure Descriptor where
  value : Option Value := none
  writable : Option Bool := none
  get : Option (Option Ref) := none
  set : Option (Option Ref) := none
  enumerable : Option Bool := none
  configurable : Option Bool := none
  deriving DecidableEq, Inhabited

namespace Descriptor

def isAccessor (d : Descriptor) : Bool := d.get.isSome || d.set.isSome

def isData (d : Descriptor) : Bool := d.value.isSome || d.writable.isSome

def isGeneric (d : Descriptor) : Bool := !d.isAccessor && !d.isData

def hasFields (d : Descriptor) : Bool :=
  d.isData || d.isAccessor || d.enumerable.isSome || d.configurable.isSome

def isComplete (d : Descriptor) : Bool :=
  ((d.value.isSome && d.writable.isSome) || d.isAccessor)
    && d.enumerable.isSome && d.configurable.isSome

/-- The descriptor with the missing attributes of its kind at their defaults. -/
def complete (d : Descriptor) : Descriptor :=
  let d :=
    if d.isGeneric || d.isData then
      { d with value := some (d.value.getD .undefined), writable := some (d.writable.getD false) }
    else { d with get := some (d.get.getD none), set := some (d.set.getD none) }
  { d with
    enumerable := some (d.enumerable.getD false)
    configurable := some (d.configurable.getD false) }

/-- A writable, enumerable, configurable data property. -/
def plain (v : Value) : Descriptor :=
  { value := some v, writable := some true, enumerable := some true, configurable := some true }

/-- A method of a prototype: writable, configurable, not enumerable. -/
def method (f : Ref) : Descriptor :=
  { value := some (.object f), writable := some true, enumerable := some false
    configurable := some true }

/-- The descriptor mentions the property as enumerable. -/
def isEnumerable (d : Descriptor) : Bool := d.enumerable == some true

end Descriptor

/-- What a stored property holds. -/
inductive Content where
  | data (value : Value) (writable : Bool)
  | accessor (get set : Option Ref)
  deriving DecidableEq, Inhabited

structure Property where
  content : Content
  enumerable : Bool
  configurable : Bool
  deriving DecidableEq, Inhabited

namespace Property

def data (value : Value) (writable enumerable configurable : Bool) : Property :=
  ⟨.data value writable, enumerable, configurable⟩

/-- The attributes of a builtin's properties: writable, configurable, not enumerable. -/
def hidden (value : Value) : Property := data value true false true

def isAccessor (p : Property) : Bool :=
  match p.content with
  | .accessor _ _ => true
  | .data _ _ => false

def toDescriptor (p : Property) : Descriptor :=
  match p.content with
  | .data v w =>
    { value := some v, writable := some w, enumerable := some p.enumerable
      configurable := some p.configurable }
  | .accessor g s =>
    { get := some g, set := some s, enumerable := some p.enumerable
      configurable := some p.configurable }

/-- The property that a descriptor creates: an accessor if it mentions one, missing attributes at
their defaults. -/
def ofDescriptor (d : Descriptor) : Property :=
  { content :=
      if d.isAccessor then .accessor (d.get.getD none) (d.set.getD none)
      else .data (d.value.getD .undefined) (d.writable.getD false)
    enumerable := d.enumerable.getD false
    configurable := d.configurable.getD false }

/-- A property that is not configurable still admits what would change nothing, and the change of
a writable property's value or its becoming read-only. -/
def admits (p : Property) (d : Descriptor) : Bool :=
  p.configurable ||
    (d.configurable != some true
      && (d.enumerable.isNone || d.enumerable == some p.enumerable)
      && (d.isGeneric || d.isAccessor == p.isAccessor)
      && match p.content with
        | .accessor g s =>
          (d.get.isNone || d.get == some g) && (d.set.isNone || d.set == some s)
        | .data v w => w || (d.writable != some true && (d.value.isNone || d.value == some v)))

/-- The property with the attributes a descriptor mentions; a change of kind forgets the rest of
the old content. -/
def merge (p : Property) (d : Descriptor) : Property :=
  { content :=
      match p.content with
      | .data v w =>
        if d.isAccessor then .accessor (d.get.getD none) (d.set.getD none)
        else .data (d.value.getD v) (d.writable.getD w)
      | .accessor g s =>
        if d.isData then .data (d.value.getD .undefined) (d.writable.getD false)
        else .accessor (d.get.getD g) (d.set.getD s)
    enumerable := d.enumerable.getD p.enumerable
    configurable := d.configurable.getD p.configurable }

/-- The property after a definition, or nothing if the definition is refused. -/
def revise (extensible : Bool) (current : Option Property) (d : Descriptor) : Option Property :=
  match current with
  | none => if extensible then some (ofDescriptor d) else none
  | some p => if p.admits d then some (p.merge d) else none

end Property

end ObjectModel
