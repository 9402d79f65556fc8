import GraphQL.Schema
import GraphQL.Name
import GraphQL.Text.Excerpt
import GraphQL.Value.Json

/-!
What can go wrong with a request, and how it is shown in the response.

A field error is a message with optional extra data. An execution error is a field error at a field:
its place in the request and the response keys that lead to it. A request error keeps a request from
being executed at all.
-/

namespace GraphQL

/-- The failure of a field; extra data that is null is left out. -/
structure FieldError where
  message : String
  extensions : Value

def FieldError.ofMessage (message : String) : FieldError where
  message := message
  extensions := .null

structure ExecutionError where
  location : Position
  path : List String
  error : FieldError

namespace ExecutionError

def atOrigin (error : FieldError) : ExecutionError where
  location := .origin
  path := []
  error := error

/-- A count as an integer of 32 bits, the greatest one if it has more. -/
def clamped (n : Nat) : Value := .int (Int32.ofInt (min (n : Int) greatestInt32))

def render (error : ExecutionError) : Value :=
  .object
    ([("message", .string error.error.message),
      ("locations", .list [.object
        [("line", clamped error.location.line), ("column", clamped error.location.column)]])] ++
      (if error.path.isEmpty then [] else [("path", .list (error.path.map .string))]) ++
      (if error.error.extensions.isNull then [] else [("extensions", error.error.extensions)]))

/-- The name that starts at a place of the source, or one character if none does. -/
def nameSpan (source : String) (start : Position) : Span :=
  let width :=
    match splitBytes? start.index source.toList with
    | none => 1
    | some (_, rest) => max 1 (rest.takeWhile isNameContinue).length
  ⟨start, ⟨start.index + width, start.line, start.column + width⟩⟩

/-- The entry of the response, with the lines around the field appended to the message. -/
def renderVerbose (error : ExecutionError) (source : String) : Value :=
  let shown := (nameSpan source error.location).excerpt source
  render { error with
    error := { error.error with message := error.error.message ++ "\n" ++ shown } }

def locationJson (location : Position) : Json :=
  .object [("line", .integer location.line), ("column", .integer location.column)]

/-- The error as JSON, in the order in which it is rendered. -/
def toJson (error : ExecutionError) : Json :=
  .object
    ([("message", .string error.error.message),
      ("locations", .array [locationJson error.location])] ++
      (if error.path.isEmpty then [] else [("path", .array (error.path.map .string))]) ++
      (if error.error.extensions.isNull then []
        else [("extensions", error.error.extensions.toJson)]))

end ExecutionError

inductive RequestError where
  | parse (error : Located ParseError)
  | schema (error : SchemaError)
  | noOperation
  | severalOperations
  | unknownOperation (name : String)
  | mutationsNotSupported

namespace RequestError

def message : RequestError → String
  | .parse error => locatedMessage error
  | .schema error => error.message
  | .noOperation => "GraphQL Runtime Error: Must provide an operation"
  | .severalOperations =>
      "GraphQL Runtime Error: Must provide operation name if query contains multiple operations"
  | .unknownOperation name =>
      "GraphQL Runtime Error: Operation with name " ++ doubleQuoted name ++
        " not found in document"
  | .mutationsNotSupported => "GraphQL Runtime Error: Schema is not configured for mutations"

/-- What lies behind the error, outermost first; a source that cannot be read is its own cause. -/
def causes : RequestError → List String
  | .parse error => [locatedMessage error]
  | .schema (.parse error span) => List.replicate 2 (locatedMessage ⟨error, span⟩)
  | .schema error => [error.message]
  | _ => []

/-- The error as a list of one JSON entry; only errors of reading have a place. -/
def toJson : RequestError → Json
  | .parse error =>
      .array [.object
        [("message", .string error.node.message),
          ("locations", .array [ExecutionError.locationJson error.span.start])]]
  | other => .array [.object [("message", .string other.message)]]

/-- The response to a request that is not executed. -/
def response (error : RequestError) : Value :=
  .object [("errors", .list [.object [("message", .string error.message)]])]

end RequestError

/-- Why a completed field is null although its resolver did not fail. -/
inductive CompletionError where
  | nullForNonNull (typeName fieldName : String)
  | notAList
  | notAnOutputType (name : String)
  | unknownType (name : String)
  | undeterminedType
  | impossibleType (objectName : String) (kind : String) (abstractName : String)

def CompletionError.message : CompletionError → String
  | .nullForNonNull typeName fieldName =>
      "Cannot return null for non-nullable field " ++ typeName ++ "." ++ fieldName
  | .notAList => "Expected a list but did not find one"
  | .notAnOutputType name => "Type " ++ name ++ " is not an output type"
  | .unknownType name => "Unknown type " ++ name
  | .undeterminedType => "The type of the value could not be determined"
  | .impossibleType objectName kind abstractName =>
      "Runtime object type " ++ doubleQuoted objectName ++ " is not a possible type for " ++
        kind ++ " type " ++ doubleQuoted abstractName

/-- Why an input does not fit its type. -/
inductive CoercionError where
  | nullFound (type : TypeRef)
  | notAnObject (name : String)
  | unknownField
  | notConvertible (name : String)
  | notAnEnumValue (value name : String)
  | notAnInputType (name : String)
  | unknownType (name : String)
  | refused (message : String)
  | inElement (index : Nat) (cause : CoercionError)
  | inField (name : String) (cause : CoercionError)

def CoercionError.message : CoercionError → String
  | .nullFound type => "Expected " ++ doubleQuoted type.text ++ ", found null"
  | .notAnObject name => "Expected " ++ doubleQuoted name ++ ", found not an object"
  | .unknownField => "Unknown field"
  | .notConvertible name => "Failed to coerce value to " ++ name
  | .notAnEnumValue value name =>
      "Invalid value " ++ doubleQuoted value ++ " for enum " ++ doubleQuoted name
  | .notAnInputType name => "Type " ++ name ++ " is not an input type"
  | .unknownType name => "Unknown type " ++ name
  | .refused message => message
  | .inElement index cause => "In element #" ++ toString index ++ ": " ++ cause.message
  | .inField name cause => "In field " ++ doubleQuoted name ++ ": " ++ cause.message

/-- Why an argument or variable has no value that may be used. -/
inductive InputError where
  | invalidArgument (name : String) (cause : CoercionError)
  | missingArgument (name : String) (type : TypeRef)
  | invalidVariable (name : String) (cause : CoercionError)
  | missingVariable (name : String) (type : TypeRef)
  | notAnInputVariable (name : String) (type : TypeRef)
  | unknownVariableType (typeName : String)

def InputError.message : InputError → String
  | .invalidArgument name cause =>
      "Argument " ++ doubleQuoted name ++ " got invalid value \n" ++ cause.message
  | .missingArgument name type =>
      "Argument " ++ doubleQuoted name ++ " of required type " ++ doubleQuoted type.text ++
        " was not provided"
  | .invalidVariable name cause =>
      "Variable " ++ doubleQuoted ("$" ++ name) ++ " got invalid value \n" ++ cause.message
  | .missingVariable name type =>
      "Variable " ++ doubleQuoted ("$" ++ name) ++ " of required type " ++
        doubleQuoted type.text ++ " was not provided"
  | .notAnInputVariable name type =>
      "Variable " ++ doubleQuoted ("$" ++ name) ++ " expected value of type " ++
        doubleQuoted type.text ++ " which cannot be used as an input type"
  | .unknownVariableType typeName => "Unknown type " ++ typeName

end GraphQL
