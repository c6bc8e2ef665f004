import ObjectModel.Intrinsic
import ObjectModel.Property

/-!
# Values as they are shown

An answer shows a value by its content; objects and symbols that have no name of their own are
shown by a number, given in the order in which they are first shown.  `Plain` holds the results
that are not language values.
-/

namespace ObjectModel

/-- The class under which an object is shown: the first that applies. -/
inductive Shape where
  | proxy
  | array
  | function
  | object
  deriving DecidableEq

inductive View where
  | undefined
  | null
  | bool (b : Bool)
  | number (n : Number)
  | text (t : Text)
  | namedSymbol (name : String)
  | symbol (number : Nat) (description : Option Text)
  | namedObject (name : String)
  | object (number : Nat) (shape : Shape)

inductive KeyView where
  | index (i : Nat)
  | view (v : View)

/-- A descriptor with the attributes it mentions. -/
structure DescriptorView where
  value : Option View
  writable : Option Bool
  get : Option View
  set : Option View
  enumerable : Option Bool
  configurable : Option Bool

/-- One call of a script function. -/
structure LogEntry where
  label : String
  receiver : View
  arguments : List View
  newTarget : Option View

/-- The result of one action on a property table. -/
inductive TableView where
  | nothing
  | bool (b : Bool)
  | descriptor (d : DescriptorView)
  | size (n : Nat) (isEmpty : Bool)
  | keys (ks : List KeyView)
  | indexes (is : List Nat)

/-- A result that is not a language value. -/
inductive Plain where
  | text (t : Text)
  | names (ns : List String)
  | keys (ks : List KeyView)
  | values (vs : List View)
  | descriptor (d : DescriptorView)
  | key (key : KeyView) (display : Text) (isIndex isSymbol : Bool)
  | keyOfText (key : KeyView) (same : Bool)
  | classification (array callable constructible : Bool) (extensible : Option Bool)
      (nullish null text : Bool)
  | textFacts (length : Nat) (empty : Bool) (unit : Option UInt16) (indexOf : Option Nat)
      (tail : View) (lossy : Text)
  | dump (proto : View) (extensible : Bool) (properties : List (KeyView × Option DescriptorView))
  | descriptorFacts (accessor data generic full fields : Bool) (completed : DescriptorView)
  | table (results : List TableView)
  | place (index : Nat) (label : String) (order : Ordering) (equal : Bool) (last : Option Nat)
  | done
  | sourceContext (depth : Nat) (idle : Bool)
  | realm (extended withoutExtensions printInternals : Bool) (global : View)

/-- What an operation gives. -/
inductive Result where
  | value (v : Value)
  | plain (p : Plain)

/-- A result that is not a value counts as undefined. -/
def Result.toValue : Result → Value
  | .value v => v
  | .plain _ => .undefined

end ObjectModel
