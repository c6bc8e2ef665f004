import ObjectModel.Intrinsic
import ObjectModel.Property

/-!
# Expressions

The language in which callers and script functions drive the object model.  An expression is a
value, a new array of expressions, a name, or an operation on operands.  Operations come in
families, generic in what stands for an operand, and are evaluated in the order of the
constructor's arguments; inside an expression, an operand is the number of a subexpression, and a
number that none has stands for undefined.
-/

namespace ObjectModel

/-- A descriptor whose contents are still operands. -/
structure DescriptorForm (ε : Type) where
  value : Option ε
  writable : Option Bool
  get : Option ε
  set : Option ε
  enumerable : Option Bool
  configurable : Option Bool

/-- The order of the methods that convert an object to a primitive. -/
inductive Hint where
  | text
  | number
  deriving DecidableEq

/-- Control of evaluation. -/
inductive Control (ε : Type) where
  | give (e : ε)
  | sequence (steps : List ε)
  | choose (condition yes no : ε)
  /-- The case named by a text, or the last operand. -/
  | select (on : ε) (cases : List (String × ε)) (otherwise : ε)
  /-- Evaluates `recovery` if `body` throws. -/
  | attempt (body recovery : ε)
  /-- Throws a new error, or undefined if there is no such kind. -/
  | raise (kind : Option ErrorKind) (message : Text)
  /-- Throws the value caught last. -/
  | rethrow
  | unknown (name : String)

/-- Operations on two values. -/
inductive Pairing where
  | looksEqual
  | add
  | sameValue
  | sameValueZero
  deriving DecidableEq

/-- The internal slots of an object made from a class prototype. -/
inductive Exotic where
  | ordinary
  | array
  | map
  | set
  | wrapper
  deriving DecidableEq

/-- A script function before its prototype is known.  `verb` stands before the name of an
accessor function. -/
structure FunctionForm (ε : Type) where
  name : Text
  verb : Option String
  isConstructor : Bool
  source : Option Text
  length : Nat
  body : List ε
  label : String
  logged : Bool

/-- Making of values. -/
inductive Creation (ε : Type) where
  /-- Without a prototype operand the object inherits from the object prototype. -/
  | object (proto : Option ε) (properties : List (ε × ε))
  | exotic (proto : Intrinsic) (slots : Exotic) (value : ε)
  | intrinsic (i : Intrinsic)
  | array (length proto : ε) (items : List (ε × ε))
  /-- Wraps a value `depth` times, in arrays or in objects. -/
  | nest (value key depth : ε) (inArrays : Bool)
  | wrap (value : ε)
  | unwrap (value : ε)
  | date (time : ε)
  | regexp (pattern flags : Text)
  | error (kind : ErrorKind) (message : Text)
  | symbol (description : Option Text)
  | function (proto : ε) (form : FunctionForm ε)
  /-- An object populated without any checks. -/
  | populated (proto : ε) (properties : List (ε × DescriptorForm ε)) (extensible : Option Bool)
      (probe : Bool)
  /-- The builtin that returns its first argument, with further properties. -/
  | probe (proto : ε) (properties : List (ε × ε))

/-- Conversions of one value. -/
inductive Conversion where
  | primitive (hint : Option Hint)
  | boolean
  | number
  | integer
  | word
  | length
  | text
  | object
  | display
  | key
  | classify
  deriving DecidableEq

/-- Operations on texts. -/
inductive TextAction (ε : Type) where
  | inspect (value : ε) (position : Nat) (search : UInt16)
  | concat (parts : List ε)
  | quote (value : ε)
  | quoteWith (value : ε) (mark : UInt16)
  | key (name : String)

/-- Operations on objects and their properties. -/
inductive Access (ε : Type) where
  | get (o key : ε) (receiver : Option ε)
  | getV (value key : ε)
  | getMethod (value key : ε)
  | set (o key value : ε) (receiver : Option ε) (throws : Bool)
  | createDataProperty (o key value : ε) (throws : Bool)
  | define (o key : ε) (descriptor : DescriptorForm ε) (throws : Bool)
  | delete (o key : ε) (throws : Bool)
  | has (o key : ε)
  | hasOwn (o key : ε)
  | getOwnProperty (o key : ε)
  | ownKeys (o : ε)
  | enumerableOwnKeys (o : ε)
  | enumerate (o : ε)
  | getPrototypeOf (o : ε)
  | setPrototypeOf (o proto : ε)
  | preventExtensions (o : ε)
  | dump (o : ε)
  /-- A raw call skips the check that the callee is callable. -/
  | call (f receiver : ε) (arguments : List ε) (raw : Bool)
  | construct (f : ε) (arguments : List ε) (newTarget : ε) (raw : Bool)
  | invoke (receiver key : ε) (arguments : List ε)
  | length (o : ε)
  | listFromArrayLike (value : ε)

/-- A step on a property table. -/
inductive TableAction (ε : Type) where
  | insert (descriptor : DescriptorForm ε)
  | update (value : ε)
  | remove
  | get
  | contains
  | size
  | keys
  | indexesFrom (start : Nat)
  | skip

/-- Operations on descriptors, property tables and places. -/
inductive Description (ε : Type) where
  | toDescriptor (value : ε)
  | fromDescriptor (descriptor : Option (DescriptorForm ε))
  | inspect (descriptor : DescriptorForm ε)
  | method (f : ε)
  /-- Runs actions on a new table; the key of each is evaluated first. -/
  | table (actions : List (Option ε × TableAction ε))
  | places (a b : Nat)

/-- Operations on maps and sets. -/
inductive Collecting (ε : Type) where
  | map (entries : List (ε × ε))
  | mapSet (o key value : ε)
  | mapGet (o key : ε)
  | mapHas (o key : ε)
  | mapDelete (o key : ε)
  | set (items : List ε)
  | setAdd (o value : ε)
  | setHas (o value : ε)
  | setDelete (o value : ε)

/-- An iteration source whose parts are still operands. -/
inductive SourceForm (ε : Type) where
  | list (items : List ε)
  | arrayValues (o : ε)
  | arrayKeys (length : ε)
  | arrayEntries (o length : ε)
  | codeUnits (value : ε)
  | objectKeys (o : ε) (keys : List ε)
  | objectEntries (o : ε) (keys : List ε)
  | mapEntries (o : ε)
  | setValues (o : ε)

/-- Operations of the iterator protocol. -/
inductive Iterating (ε : Type) where
  | getIterator (value : ε)
  | next (o : ε)
  | complete (o : ε)
  | value (o : ε)
  | step (o : ε)
  | stepValue (o : ε)
  | drain (o : ε)
  | drainList (o : ε)
  | result (value : ε) (done : Bool)
  | advance (o : ε)
  | iterator (source : SourceForm ε)

/-- The extensions: source text, handler proxies, the older iterator protocol. -/
inductive Extension (ε : Type) where
  | uneval (value : ε)
  | sourceContext
  | proxyCreate (handler proto : ε)
  | proxyCreateFunction (handler call : ε) (construct : Option ε)
  | adapt (handler : ε)
  | handlerOperations (handler : ε)
  /-- A proxy whose traps are functions, given by name. -/
  | proxy (target : ε) (traps : List (String × ε))
  | trapTable (traps : List (String × ε))
  | iterationObject (value : ε) (keysOnly : Bool)
  | isIterationObject (value : ε)
  | install
  | realm

inductive Operation (ε : Type) where
  | control (action : Control ε)
  | pairing (action : Pairing) (a b : ε)
  | create (action : Creation ε)
  | convert (action : Conversion) (value : ε)
  | text (action : TextAction ε)
  | access (action : Access ε)
  | describe (action : Description ε)
  | collect (action : Collecting ε)
  | iterate (action : Iterating ε)
  | extend (action : Extension ε)

/-- An expression; an operation may store its value in a variable. -/
inductive Expr where
  | value (v : Value)
  | array (items : List Expr)
  | name (n : String)
  | operation (op : Operation Nat) (operands : List Expr) (storeAs : Option String)

instance : Inhabited Expr := ⟨.value .undefined⟩

/-- The expression that an operand stands for. -/
def Expr.operand (operands : List Expr) (i : Nat) : Expr := operands.getD i (.value .undefined)

end ObjectModel
