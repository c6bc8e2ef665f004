import ObjectModel.Fault

/-!
# Intrinsic objects

The objects that every realm starts with.  They are the first objects of the heap, in a fixed
order, so each has a fixed place.
-/

namespace ObjectModel

inductive Intrinsic where
  | objectPrototype
  | functionPrototype
  | booleanPrototype
  | datePrototype
  | errorPrototype
  | listIteratorPrototype
  | mapPrototype
  | numberPrototype
  | regexpPrototype
  | setPrototype
  | stringPrototype
  | symbolPrototype
  | globalObject
  | arrayPrototype
  | evalErrorPrototype
  | rangeErrorPrototype
  | referenceErrorPrototype
  | syntaxErrorPrototype
  | typeErrorPrototype
  | uriErrorPrototype
  deriving DecidableEq, Inhabited

namespace Intrinsic

/-- All intrinsic objects, in the order of their places. -/
def all : List Intrinsic :=
  [.objectPrototype, .functionPrototype, .booleanPrototype, .datePrototype, .errorPrototype,
    .listIteratorPrototype, .mapPrototype, .numberPrototype, .regexpPrototype, .setPrototype,
    .stringPrototype, .symbolPrototype, .globalObject, .arrayPrototype, .evalErrorPrototype,
    .rangeErrorPrototype, .referenceErrorPrototype, .syntaxErrorPrototype, .typeErrorPrototype,
    .uriErrorPrototype]

def ref (i : Intrinsic) : Ref := ⟨all.idxOf i⟩

def name : Intrinsic → String
  | .objectPrototype => "%Object.prototype%"
  | .functionPrototype => "%Function.prototype%"
  | .booleanPrototype => "%Boolean.prototype%"
  | .datePrototype => "%Date.prototype%"
  | .errorPrototype => "%Error.prototype%"
  | .listIteratorPrototype => "%ListIteratorPrototype%"
  | .mapPrototype => "%Map.prototype%"
  | .numberPrototype => "%Number.prototype%"
  | .regexpPrototype => "%RegExp.prototype%"
  | .setPrototype => "%Set.prototype%"
  | .stringPrototype => "%String.prototype%"
  | .symbolPrototype => "%Symbol.prototype%"
  | .globalObject => "%global%"
  | .arrayPrototype => "%Array.prototype%"
  | .evalErrorPrototype => "%EvalError.prototype%"
  | .rangeErrorPrototype => "%RangeError.prototype%"
  | .referenceErrorPrototype => "%ReferenceError.prototype%"
  | .syntaxErrorPrototype => "%SyntaxError.prototype%"
  | .typeErrorPrototype => "%TypeError.prototype%"
  | .uriErrorPrototype => "%URIError.prototype%"

def ofName? (s : String) : Option Intrinsic := all.find? fun i => i.name == s

/-- The intrinsic object at this place. -/
def ofRef? (r : Ref) : Option Intrinsic := all[r.index]?

/-- The prototype of the error objects of a kind. -/
def ofErrorKind : ErrorKind → Intrinsic
  | .error => .errorPrototype
  | .evalError => .evalErrorPrototype
  | .rangeError => .rangeErrorPrototype
  | .referenceError => .referenceErrorPrototype
  | .syntaxError => .syntaxErrorPrototype
  | .typeError => .typeErrorPrototype
  | .uriError => .uriErrorPrototype

/-- The prototype of the wrappers of a primitive value. -/
def ofPrimitive : Primitive → Intrinsic
  | .bool _ => .booleanPrototype
  | .number _ => .numberPrototype
  | .text _ => .stringPrototype
  | .symbol _ => .symbolPrototype

/-- The prototype that objects of a named class get by default. -/
def ofClass? (s : String) : Option Intrinsic :=
  match s with
  | "Array" => some .arrayPrototype
  | "Boolean" => some .booleanPrototype
  | "Date" => some .datePrototype
  | "Function" => some .functionPrototype
  | "Map" => some .mapPrototype
  | "Number" => some .numberPrototype
  | "Object" => some .objectPrototype
  | "RegExp" => some .regexpPrototype
  | "Set" => some .setPrototype
  | "String" => some .stringPrototype
  | "Symbol" => some .symbolPrototype
  | _ => none

end Intrinsic

end ObjectModel
