import GraphQL.Json
import GraphQL.Value

/-!
Values as JSON.

Numbers that are not finite and host records are written as null; the other floats are widened to 64
bits. Two ways lead back. Reading off a text takes whole numbers beyond 32 bits straight to a float
and merges fields of the same key; converting a tree takes them through 64-bit floats.
-/

namespace GraphQL.Value

mutual

def toJson : Value → Json
  | .null => .null
  | .bool value => .bool value
  | .int value => .integer value.toInt
  | .float value =>
      if value.isFinite then .float (value.convert .double) else .null
  | .string text => .string text
  | .list items => .array (itemsToJson items)
  | .object fields => .object (fieldsToJson fields)
  | .record _ _ _ => .null

def itemsToJson : List Value → List Json
  | [] => []
  | item :: rest => item.toJson :: itemsToJson rest

def fieldsToJson : List (String × Value) → List (String × Json)
  | [] => []
  | (key, value) :: rest => (key, value.toJson) :: fieldsToJson rest

end

/-- The JSON tree of a value, keys in order of their code points. -/
def toSortedJson (value : Value) : Json := value.toJson.sorted

/-- A whole number: an integer if it has 32 bits, else the nearest float. -/
def ofWhole (n : Int) : Value :=
  if fitsInt32 n then .int (Int32.ofInt n) else .float (Binary.ofInt .single n)

/-- A whole number: an integer if it has 32 bits, else a float by way of 64 bits. -/
def ofWholeWide (n : Int) : Value :=
  if fitsInt32 n then .int (Int32.ofInt n)
  else .float ((Binary.ofInt .double n).convert .single)

mutual

/-- The value of a JSON text, given its tree as read; fields are added one by one. -/
def readJson : Json → Value
  | .null => .null
  | .bool value => .bool value
  | .integer value => ofWhole value
  | .float value => .float (value.convert .single)
  | .string text => .string text
  | .array items => .list (readItems items)
  | .object fields => .object (Object.ofList (readFields fields))

def readItems : List Json → List Value
  | [] => []
  | item :: rest => readJson item :: readItems rest

def readFields : List (String × Json) → List (String × Value)
  | [] => []
  | (key, value) :: rest => (key, readJson value) :: readFields rest

end

mutual

/-- The value of a JSON tree whose objects are sorted. -/
def ofSortedJson : Json → Value
  | .null => .null
  | .bool value => .bool value
  | .integer value => ofWholeWide value
  | .float value => .float (value.convert .single)
  | .string text => .string text
  | .array items => .list (ofSortedItems items)
  | .object fields => .object (Object.ofList (ofSortedFields fields))

def ofSortedItems : List Json → List Value
  | [] => []
  | item :: rest => ofSortedJson item :: ofSortedItems rest

def ofSortedFields : List (String × Json) → List (String × Value)
  | [] => []
  | (key, value) :: rest => (key, ofSortedJson value) :: ofSortedFields rest

end

def ofJson (json : Json) : Value := ofSortedJson json.sorted

/-- The value that is left when a value goes through its JSON tree. -/
def serialized (value : Value) : Value := ofJson value.toJson

end GraphQL.Value
