import GraphQL.Token

/-!
Why a source is no document, and the wording of each cause.
-/

namespace GraphQL

/-- The kinds of names that must not repeat. -/
inductive NameKind where
  | operation
  | fragment
  | type
  | field
  | argument
  | variable
  | inputField
  | enumValue
  deriving DecidableEq, Repr

def NameKind.text : NameKind → String
  | .operation => "operation"
  | .fragment => "fragment"
  | .type => "type"
  | .field => "field"
  | .argument => "argument"
  | .variable => "variable"
  | .inputField => "input field"
  | .enumValue => "enum value"

inductive ParseError where
  | unexpectedToken (found : String)
  | expectedToken (expected : List String) (found : String)
  | unexpectedEnd
  | lexical (error : LexError)
  | integerRange
  | invalidFloat
  | duplicate (kind : NameKind) (name : String)
  | fragmentNamedOn
  | invalidEnumValue (name : String)
  deriving DecidableEq, Repr

def doubleQuoted (text : String) : String := "\"" ++ text ++ "\""

def ParseError.message : ParseError → String
  | .unexpectedToken found => "Unexpected " ++ doubleQuoted found
  | .expectedToken [single] found =>
      "Expected " ++ doubleQuoted single ++ ", found " ++ doubleQuoted found
  | .expectedToken expected found =>
      "Expected one of " ++ String.intercalate ", " (expected.map doubleQuoted) ++
        ", found " ++ doubleQuoted found
  | .unexpectedEnd => "Unexpected end of input"
  | .lexical error => error.message
  | .integerRange => "Int literal does not fit into a 64-bit signed integer"
  | .invalidFloat => "Invalid Float literal"
  | .duplicate kind name => "There can be only one " ++ kind.text ++ " named " ++ doubleQuoted name
  | .fragmentNamedOn => "Fragment cannot be named \"on\""
  | .invalidEnumValue name => "Enum value cannot be " ++ doubleQuoted name

end GraphQL
