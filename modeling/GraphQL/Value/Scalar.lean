import GraphQL.Value

/-!
The scalars that every schema has, and how values are made to fit them.

Numbers, booleans and strings are converted into each other; null, lists, objects and host records
fit none of the scalars. Whole numbers wrap around to 32 bits.
-/

namespace GraphQL

inductive BuiltinScalar where
  | int
  | float
  | string
  | id
  | boolean
  deriving DecidableEq, Repr

namespace BuiltinScalar

def name : BuiltinScalar → String
  | .int => "Int"
  | .float => "Float"
  | .string => "String"
  | .id => "ID"
  | .boolean => "Boolean"

def all : List BuiltinScalar := [.int, .float, .string, .id, .boolean]

def ofName? (name : String) : Option BuiltinScalar :=
  all.find? fun scalar => scalar.name == name

end BuiltinScalar

namespace Value

/-- Floats lose their fraction and strings are read as 64-bit integers. -/
def toInt? : Value → Option Int32
  | .int value => some value
  | .float value => some (Int32.ofInt value.truncate64)
  | .bool value => some (if value then 1 else 0)
  | .string text => (readInt64? text.toList).map Int32.ofInt
  | _ => none

/-- Strings are read with 64 bits before they are narrowed. -/
def toFloat? : Value → Option Single
  | .int value => some (Binary.ofInt .single value.toInt)
  | .float value => some value
  | .bool value => some (Binary.ofInt .single (if value then 1 else 0))
  | .string text => (Binary.read? .double text.toList).map (Binary.convert .single)
  | _ => none

def toText? : Value → Option String
  | .int value => some (toString value.toInt)
  | .float value => some (DecimalStyle.plain.write value)
  | .bool value => some (if value then "true" else "false")
  | .string text => some text
  | _ => none

/-- Zeros, the empty string and the string `false` are false. -/
def toBool? : Value → Option Bool
  | .int value => some (value != 0)
  | .float value => some (!value.isZero)
  | .bool value => some value
  | .string text => some !(text == "" || text == "false")
  | _ => none

/-- The name of an enum value: a string as it is, an integer in decimal. -/
def toEnumName? : Value → Option String
  | .string text => some text
  | .int value => some (toString value.toInt)
  | _ => none

end Value

/-- Makes a value fit a scalar, `none` if its kind does not allow it. -/
def BuiltinScalar.coerce : BuiltinScalar → Value → Option Value
  | .int, value => value.toInt?.map .int
  | .float, value => value.toFloat?.map .float
  | .string, value => value.toText?.map .string
  | .id, value => value.toText?.map .string
  | .boolean, value => value.toBool?.map .bool

end GraphQL
