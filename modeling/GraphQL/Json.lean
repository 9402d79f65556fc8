import GraphQL.Number.Decimal

/-!
JSON trees and their text.

Whole numbers and floating-point numbers are kept apart. Objects keep the order and the repetitions
of what was read; sorting orders the keys and keeps the last value of each. Compact text has no
blanks; indented text puts every item on a line of its own, two blanks further in.
-/

namespace GraphQL

inductive Json where
  | null
  | bool (value : Bool)
  | integer (value : Int)
  | float (value : Double)
  | string (text : String)
  | array (items : List Json)
  | object (fields : List (String × Json))

namespace Json

/-- An exponent is written from ten to the sixteenth up and below ten to the minus fifth. -/
def numberStyle : DecimalStyle where
  positional := some (-5, 15)
  wholeEnding := ".0"
  tieUpward := false

/-- One character as it stands in a string. -/
def escapeChar (c : Char) : List Char :=
  if c = '"' then ['\\', '"']
  else if c = '\\' then ['\\', '\\']
  else if c = '\x08' then ['\\', 'b']
  else if c = '\t' then ['\\', 't']
  else if c = '\n' then ['\\', 'n']
  else if c = '\x0c' then ['\\', 'f']
  else if c = '\r' then ['\\', 'r']
  else if c < ' ' then ['\\', 'u'] ++ hexQuadLower c.toNat
  else [c]

def quote (text : String) : String :=
  String.ofList ('"' :: text.toList.flatMap escapeChar ++ ['"'])

mutual

/-- The text without blanks. -/
def compact : Json → String
  | .null => "null"
  | .bool true => "true"
  | .bool false => "false"
  | .integer value => toString value
  | .float value => numberStyle.write value
  | .string text => quote text
  | .array items => "[" ++ String.intercalate "," (compactItems items) ++ "]"
  | .object fields => "\x7b" ++ String.intercalate "," (compactFields fields) ++ "\x7d"

def compactItems : List Json → List String
  | [] => []
  | item :: rest => item.compact :: compactItems rest

def compactFields : List (String × Json) → List String
  | [] => []
  | (key, value) :: rest => (quote key ++ ":" ++ value.compact) :: compactFields rest

end

/-- A line break followed by two blanks for each level. -/
def newLine (level : Nat) : String :=
  String.ofList ('\n' :: List.replicate (2 * level) ' ')

/-- Texts one level further in, each on a line of its own; nothing at all if there are none. -/
def enclosedLines (level : Nat) (texts : List String) : String :=
  if texts.isEmpty then ""
  else newLine (level + 1) ++ String.intercalate ("," ++ newLine (level + 1)) texts ++ newLine level

mutual

/-- The text with every item on a line of its own. -/
def indented (level : Nat) : Json → String
  | .array items => "[" ++ enclosedLines level (indentedItems (level + 1) items) ++ "]"
  | .object fields => "\x7b" ++ enclosedLines level (indentedFields (level + 1) fields) ++ "\x7d"
  | other => other.compact

def indentedItems (level : Nat) : List Json → List String
  | [] => []
  | item :: rest => item.indented level :: indentedItems level rest

def indentedFields (level : Nat) : List (String × Json) → List String
  | [] => []
  | (key, value) :: rest =>
      (quote key ++ ": " ++ value.indented level) :: indentedFields level rest

end

def pretty (json : Json) : String := json.indented 0

/-- Sets a key among ascending keys. -/
def setSorted (key : String) (value : Json) : List (String × Json) → List (String × Json)
  | [] => [(key, value)]
  | field :: rest =>
      if key = field.1 then (key, value) :: rest
      else if key < field.1 then (key, value) :: field :: rest
      else field :: setSorted key value rest

mutual

/-- Orders the keys of all objects; of a repeated key the last value stays. -/
def sorted : Json → Json
  | .array items => .array (sortedItems items)
  | .object fields => .object (sortedFields fields [])
  | other => other

def sortedItems : List Json → List Json
  | [] => []
  | item :: rest => item.sorted :: sortedItems rest

/-- Sets the fields in turn. -/
def sortedFields : List (String × Json) → List (String × Json) → List (String × Json)
  | [], result => result
  | (key, value) :: rest, result => sortedFields rest (setSorted key value.sorted result)

end

end Json

end GraphQL
