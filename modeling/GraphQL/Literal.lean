import GraphQL.Number.Decimal
import GraphQL.Text.Position

/-!
Value literals, as they are written in requests and in schema defaults.

Lists and objects keep the places of their parts. Integers and floats have 32 bits; an object keeps
its fields in the order written. The printed text of a literal without floats reads back as the
literal.
-/

namespace GraphQL

inductive Literal where
  | null
  | int (value : Int32)
  | float (value : Single)
  | string (text : String)
  | bool (value : Bool)
  | enum (name : String)
  | variable (name : String)
  | list (items : List (Located Literal))
  | object (fields : List (Located String × Located Literal))

namespace Literal

/-- A list whose parts were not read from a source. -/
def ofList (items : List Literal) : Literal :=
  .list (items.map .unplaced)

/-- Sets a field: in place if the name is there, else at the end. -/
def setField (name : String) (value : Literal) :
    List (Located String × Located Literal) → List (Located String × Located Literal)
  | [] => [(.unplaced name, .unplaced value)]
  | field :: rest =>
      if field.1.node = name then (.unplaced name, .unplaced value) :: rest
      else field :: setField name value rest

/-- An object whose parts were not read from a source; of a repeated name the last value stays. -/
def ofFields (fields : List (String × Literal)) : Literal :=
  .object (fields.foldl (fun object field => setField field.1 field.2 object) [])

def isNull : Literal → Bool
  | .null => true
  | _ => false

def isVariable : Literal → Bool
  | .variable _ => true
  | _ => false

def asEnum? : Literal → Option String
  | .enum name => some name
  | _ => none

def asString? : Literal → Option String
  | .string text => some text
  | _ => none

/-- The value of a field of an object literal. -/
def field? (name : String) : Literal → Option (Located Literal)
  | .object fields => (fields.find? fun field => field.1.node == name).map (·.2)
  | _ => none

/-- One character as it stands in a printed string. -/
def printChar (c : Char) : List Char :=
  if c = '"' then ['\\', '"']
  else if c = '\\' then ['\\', '\\']
  else if c = '\n' then ['\\', 'n']
  else if c = '\r' then ['\\', 'r']
  else if c = '\t' then ['\\', 't']
  else if c < ' ' then ['\\', 'u'] ++ hexQuad c.toNat
  else [c]

def printString (text : String) : String :=
  String.ofList ('"' :: text.toList.flatMap printChar ++ ['"'])

mutual

def print : Literal → String
  | .null => "null"
  | .int value => toString value.toInt
  | .float value => DecimalStyle.plain.write value
  | .string text => printString text
  | .bool true => "true"
  | .bool false => "false"
  | .enum name => name
  | .variable name => "$" ++ name
  | .list items => "[" ++ String.intercalate ", " (printItems items) ++ "]"
  | .object fields => "\x7b" ++ String.intercalate ", " (printFields fields) ++ "\x7d"

def printItems : List (Located Literal) → List String
  | [] => []
  | ⟨item, _⟩ :: rest => item.print :: printItems rest

def printFields : List (Located String × Located Literal) → List String
  | [] => []
  | (name, ⟨value, _⟩) :: rest => (name.node ++ ": " ++ value.print) :: printFields rest

end

end Literal

end GraphQL
