import GraphQL.Value.Json

/-!
Values from a general data model, item by item.

The model has more kinds than values have. Absence and unit become null, characters become strings;
bytes, present options and wrapped items are refused, and so are map keys that are no text.
-/

namespace GraphQL

inductive Item where
  | unit
  | absent
  | bool (value : Bool)
  | integer (value : Int)
  | float (value : Double)
  | char (value : Char)
  | text (value : String)
  | bytes (content : String)
  | present (item : Item)
  | wrapped (item : Item)
  | sequence (items : List Item)
  | map (entries : List (Item × Item))

/-- An item of a kind that does not belong where it stands. -/
structure ItemError where
  found : String
  expected : String
  deriving DecidableEq, Repr

def ItemError.message (error : ItemError) : String :=
  "invalid type: " ++ error.found ++ ", expected " ++ error.expected

namespace Item

/-- How floats stand in messages: a finite one always shows a point. -/
def floatStyle : DecimalStyle where
  positional := none
  wholeEnding := ".0"
  tieUpward := true

def kindText : Item → String
  | .unit => "unit value"
  | .absent => "Option value"
  | .bool value => "boolean " ++ "`" ++ (if value then "true" else "false") ++ "`"
  | .integer value => "integer " ++ "`" ++ toString value ++ "`"
  | .float value => "floating point " ++ "`" ++ floatStyle.write value ++ "`"
  | .char value => "character " ++ "`" ++ value.toString ++ "`"
  | .text value => "string " ++ quoted value
  | .bytes _ => "byte array"
  | .present _ => "Option value"
  | .wrapped _ => "newtype struct"
  | .sequence _ => "sequence"
  | .map _ => "map"

def keyText : Item → Except ItemError String
  | .char value => .ok value.toString
  | .text value => .ok value
  | .bytes content => .ok content
  | other => .error ⟨other.kindText, "a string"⟩

mutual

def toValue : Item → Except ItemError Value
  | .unit => .ok .null
  | .absent => .ok .null
  | .bool value => .ok (.bool value)
  | .integer value => .ok (Value.ofWhole value)
  | .float value => .ok (.float (value.convert .single))
  | .char value => .ok (.string value.toString)
  | .text value => .ok (.string value)
  | .sequence items =>
      match toValues items with
      | .error error => .error error
      | .ok values => .ok (.list values)
  | .map entries =>
      match toFields entries with
      | .error error => .error error
      | .ok fields => .ok (.object (Object.ofList fields))
  | .bytes content => .error ⟨(Item.bytes content).kindText, "a valid input value"⟩
  | .present item => .error ⟨(Item.present item).kindText, "a valid input value"⟩
  | .wrapped item => .error ⟨(Item.wrapped item).kindText, "a valid input value"⟩

def toValues : List Item → Except ItemError (List Value)
  | [] => .ok []
  | item :: rest =>
      match item.toValue with
      | .error error => .error error
      | .ok value =>
          match toValues rest with
          | .error error => .error error
          | .ok values => .ok (value :: values)

/-- Keys are read before their values. -/
def toFields : List (Item × Item) → Except ItemError (List (String × Value))
  | [] => .ok []
  | (key, item) :: rest =>
      match key.keyText with
      | .error error => .error error
      | .ok name =>
          match item.toValue with
          | .error error => .error error
          | .ok value =>
              match toFields rest with
              | .error error => .error error
              | .ok fields => .ok ((name, value) :: fields)

end

end Item

end GraphQL
