import ObjectModel.Trap

/-!
# Causes of errors

Everything the object model itself refuses, with the kind of error object it throws and the
message of that object.
-/

namespace ObjectModel

inductive ErrorKind where
  | error
  | evalError
  | rangeError
  | referenceError
  | syntaxError
  | typeError
  | uriError
  deriving DecidableEq, Inhabited

namespace ErrorKind

def name : ErrorKind → String
  | .error => "Error"
  | .evalError => "EvalError"
  | .rangeError => "RangeError"
  | .referenceError => "ReferenceError"
  | .syntaxError => "SyntaxError"
  | .typeError => "TypeError"
  | .uriError => "URIError"

def all : List ErrorKind :=
  [.error, .evalError, .rangeError, .referenceError, .syntaxError, .typeError, .uriError]

def ofName? (s : String) : Option ErrorKind := all.find? fun k => k.name == s

end ErrorKind

/-- Half of an accessor property. -/
inductive AccessorHalf where
  | getter
  | setter
  deriving DecidableEq

def AccessorHalf.name : AccessorHalf → String
  | .getter => "getter"
  | .setter => "setter"

/-- A builtin method that was called on a value it is not for. -/
inductive Receiver where
  | errorToString
  | regexpSource
  | regexpFlags
  | regexpToString
  | hostNext
  | functionToString
  | stringQuote
  | objectToSource
  | arrayToSource
  | functionToSource
  | regexpToSource
  | errorToSource
  | iterationNext
  | stringIterator
  | mapIterator
  | setIterator

def Receiver.message : Receiver → String
  | .errorToString => "'this' is not an object"
  | .regexpSource => "RegExp.prototype.source getter called on non-RegExp"
  | .regexpFlags => "RegExp.prototype.flags getter called on non-object"
  | .regexpToString => "RegExp.prototype.toString called on non-object"
  | .hostNext => "next called on an incompatible receiver"
  | .functionToString => "Function.prototype.toString called on incompatible receiver"
  | .stringQuote => "String.prototype.quote called on null or undefined"
  | .objectToSource => "Object.prototype.toSource called on null or undefined"
  | .arrayToSource => "not an array"
  | .functionToSource => "Function.prototype.toSource called on incompatible receiver"
  | .regexpToSource => "RegExp.prototype.toSource called on incompatible receiver"
  | .errorToSource => "Error.prototype.toSource called on non-object"
  | .iterationNext => "Iterator.prototype.next called on an incompatible receiver"
  | .stringIterator => "String.prototype.iterator called on null or undefined"
  | .mapIterator => "Map.prototype.iterator called on incompatible receiver"
  | .setIterator => "Set.prototype.iterator called on incompatible receiver"

/-- The kind of wrapped or collected value a method needs. -/
inductive Expected where
  | bool
  | number
  | text
  | symbol
  | date
  | map
  | set

def Expected.message : Expected → String
  | .bool => "Not a Boolean"
  | .number => "Not a Number"
  | .text => "Not a String"
  | .symbol => "this is not a symbol"
  | .date => "this is not a Date object."
  | .map => "Object is not a Map"
  | .set => "Object is not a Set"

inductive Fault where
  | descriptorNotObject
  | descriptorOfBothKinds
  | accessorNotCallable (half : AccessorHalf)
  | notIterable
  | iteratorResultNotObject
  | propertyNotSet (key : Text)
  | propertyNotCreated
  | propertyNotDefined (key : Text)
  | propertyNotDeleted
  | notCallable
  | notConstructor
  | notFunction
  | constructorGavePrimitive
  | listFromPrimitive
  | arrayLength
  | noPrimitiveValue
  | symbolAsNumber
  | symbolAsText
  | nullishAsObject
  | expected (what : Expected)
  | receiver (method : Receiver)
  | regexpFlags (flags : Text)
  | accessorFunction
  | operationMissing (op : HandlerOperation)
  | trapUnanswerable (trap : Trap)
  | iterateGavePrimitive
  | prototypeFixed
  | handlerNotObject
  | prototypeNotObject
  | callTrapNotCallable
  | constructTrapNotCallable
  | operandNotObject (field : String)
  | operandNotPrimitive
  | trapGavePrimitive
  | unknownOperation (name : String)
  | raised (kind : ErrorKind) (message : Text)

namespace Fault

def kind : Fault → ErrorKind
  | .arrayLength => .rangeError
  | .regexpFlags _ => .syntaxError
  | .raised kind _ => kind
  | _ => .typeError

def message : Fault → Text
  | .descriptorNotObject => "Property descriptor must be an object"
  | .descriptorOfBothKinds =>
    "Invalid property descriptor. Cannot both specify accessors and a value or writable attribute"
  | .accessorNotCallable half => half.name ++ " is not callable"
  | .notIterable => "Value is not iterable"
  | .iteratorResultNotObject => "Iterator result is not an object"
  | .propertyNotSet key =>
    Text.ofString "Could not set property '" ++ key ++ Text.ofString "'."
  | .propertyNotCreated => "Could not create property"
  | .propertyNotDefined key =>
    Text.ofString "Failed to define property '" ++ key ++ Text.ofString "' on object"
  | .propertyNotDeleted => "Failed to delete property"
  | .notCallable => "Not a callable object"
  | .notConstructor => "Not a constructor"
  | .notFunction => "Not a function"
  | .constructorGavePrimitive => "Constructor did not return an object"
  | .listFromPrimitive => "CreateListFromArrayLike called on non-object"
  | .arrayLength => "Invalid array length"
  | .noPrimitiveValue => "Cannot convert object to primitive value"
  | .symbolAsNumber => "Cannot convert a Symbol value to a number"
  | .symbolAsText => "Cannot convert a Symbol value to a string"
  | .nullishAsObject => "Argument cannot be converted into an object"
  | .expected what => what.message
  | .receiver method => method.message
  | .regexpFlags flags =>
    Text.ofString "Invalid regular expression flags '" ++ flags ++ Text.ofString "'"
  | .accessorFunction => "accessor function is not callable"
  | .operationMissing op => "Proxy handler does not define '" ++ op.name ++ "'"
  | .trapUnanswerable trap => "Proxy handler cannot answer '" ++ trap.name ++ "'"
  | .iterateGavePrimitive => "Proxy handler 'iterate' did not return an object"
  | .prototypeFixed => "Cannot set the prototype of a legacy proxy"
  | .handlerNotObject => "Proxy handler must be an object"
  | .prototypeNotObject => "Proxy prototype must be an object or null"
  | .callTrapNotCallable => "call trap is not callable"
  | .constructTrapNotCallable => "construct trap is not callable"
  | .operandNotObject field => "driver: '" ++ field ++ "' is not an object"
  | .operandNotPrimitive => "driver: not a primitive"
  | .trapGavePrimitive => "driver: trap result is not an object"
  | .unknownOperation name => "driver: unknown operation '" ++ name ++ "'"
  | .raised _ message => message

end Fault

end ObjectModel
