import GraphQL.Number.Decimal
import GraphQL.Text.Quoted

/-!
Values that flow through resolvers and into responses, and the ordered maps they contain.

An object keeps its fields in the order of their first insertion. Adding an object where an object
stands merges the two; any other addition replaces in place or appends. A host record is looked into
by field name only and is equal to itself alone, which its identity decides.
-/

namespace GraphQL

inductive Value where
  | null
  | bool (value : Bool)
  | int (value : Int32)
  | float (value : Single)
  | string (text : String)
  | list (items : List Value)
  | object (fields : List (String × Value))
  | record (identity : Nat) (label : String) (field : String → Option Value)

/-- Fields in insertion order; the operations below keep the keys distinct. -/
abbrev Object := List (String × Value)

namespace Object

/-- Replaces the value of a key in place, or appends the key. -/
def put (key : String) (value : Value) : Object → Object
  | [] => [(key, value)]
  | field :: rest =>
      if field.1 = key then (key, value) :: rest else field :: put key value rest

def get? (object : Object) (key : String) : Option Value := object.lookup key

def contains (object : Object) (key : String) : Bool := (object.get? key).isSome

def keys (object : Object) : List String := object.map (·.1)

mutual

/-- Adds a value under a key, merging it into an object that stands there if it is one itself. -/
def insert : Value → String → Object → Object
  | .object fields, key, object =>
      match object.get? key with
      | some (.object existing) => object.put key (.object (insertAll fields existing))
      | _ => object.put key (.object fields)
  | value, key, object => object.put key value

def insertAll : List (String × Value) → Object → Object
  | [], object => object
  | (key, value) :: rest, object => insertAll rest (insert value key object)

end

def add (object : Object) (key : String) (value : Value) : Object := insert value key object

/-- The value that an addition pushes out; a merge pushes nothing out. -/
def replaced? (object : Object) (key : String) (value : Value) : Option Value :=
  match value, object.get? key with
  | .object _, some (.object _) => none
  | _, previous => previous

def ofList (pairs : List (String × Value)) : Object := insertAll pairs []

/-- Takes a key out; the order of the others stays. -/
def remove (object : Object) (key : String) : Object := object.eraseP fun field => field.1 == key

def fill (object : Object) (value : Value) : Object := object.map fun field => (field.1, value)

end Object

namespace Value

def isNull : Value → Bool
  | .null => true
  | _ => false

def asBool? : Value → Option Bool
  | .bool value => some value
  | _ => none

def asInt? : Value → Option Int32
  | .int value => some value
  | _ => none

def asFloat? : Value → Option Single
  | .float value => some value
  | _ => none

def asString? : Value → Option String
  | .string text => some text
  | _ => none

def asList? : Value → Option (List Value)
  | .list items => some items
  | _ => none

def asObject? : Value → Option Object
  | .object fields => some fields
  | _ => none

def field? (value : Value) (name : String) : Option Value :=
  match value with
  | .object fields => Object.get? fields name
  | .record _ _ field => field name
  | _ => none

mutual

/-- Equality as programs see it: numeric on floats, without regard to the order of fields. -/
def equal : Value → Value → Bool
  | .null, .null => true
  | .bool a, .bool b => a == b
  | .int a, .int b => a == b
  | .float a, .float b => a.numEq b
  | .string a, .string b => a == b
  | .list a, .list b => equalItems a b
  | .object a, .object b => a.length == b.length && equalFields a b
  | .record a _ _, .record b _ _ => a == b
  | _, _ => false

def equalItems : List Value → List Value → Bool
  | [], [] => true
  | a :: as, b :: bs => equal a b && equalItems as bs
  | _, _ => false

/-- Whether every field is found, equal, in the other object. -/
def equalFields : List (String × Value) → Object → Bool
  | [], _ => true
  | (key, value) :: rest, other =>
      (match Object.get? other key with
        | some found => equal value found
        | none => false) &&
        equalFields rest other

end

mutual

def text : Value → String
  | .null => "null"
  | .bool true => "true"
  | .bool false => "false"
  | .int value => toString value.toInt
  | .float value => DecimalStyle.plain.write value
  | .string text => quoted text
  | .list items => "[" ++ String.intercalate ", " (textItems items) ++ "]"
  | .object fields => "\x7b" ++ String.intercalate ", " (textFields fields) ++ "\x7d"
  | .record _ label _ => label

def textItems : List Value → List String
  | [] => []
  | item :: rest => item.text :: textItems rest

def textFields : List (String × Value) → List String
  | [] => []
  | (key, value) :: rest => ("\"" ++ key ++ "\": " ++ value.text) :: textFields rest

end

end Value

/-- The concrete type that a value names itself, in its field `__typename`. -/
def typenameField (value : Value) : Option String :=
  (value.field? "__typename").bind Value.asString?

end GraphQL
