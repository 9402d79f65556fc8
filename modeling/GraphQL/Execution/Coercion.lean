import GraphQL.Execution.Executor
import GraphQL.Value.Scalar

/-!
Making inputs fit their declared types.

Inputs come as values, from outside, or as literals, written in a request or a schema. Either is
described by the shape that type wrappers need to know; what is under the wrappers is a leaf, a
custom scalar or an input object. Fields left out of an input object take their defaults. Defaults
may lead to further defaults, so the nesting of defaults is bounded; a schema whose defaults do not
contain themselves nests at most as many as it declares.
-/

namespace GraphQL

abbrev Coercion (σ α : Type) := Action σ CoercionError α

abbrev LiteralCoercion (σ : Type) := Literal → TypeRef → Coercion σ Value

variable {σ : Type}

/-- A computation that reached its bound. -/
def unfinished {ε α : Type} : Action σ ε α := fun _ => none

/-- What type wrappers need to know of an input. -/
structure InputShape (σ : Type) where
  /-- The value at any nullable type, where that does not depend on the type. -/
  settled : Option Value
  /-- The elements at an element type, where the input is a list. -/
  elements : Option (TypeRef → Coercion σ (List Value))
  named : String → Coercion σ Value

/--
Goes through the wrappers of a type. Under a list an input that is no list stands for its only
element.
-/
def InputShape.coerce (isNullish : Value → Bool) (shape : InputShape σ) :
    TypeRef → Coercion σ Value
  | .named name =>
      match shape.settled with
      | some value => pure value
      | none => shape.named name
  | .list element =>
      match shape.settled with
      | some value => pure value
      | none =>
          match shape.elements with
          | some each => do
              let items ← each element
              pure (.list items)
          | none => do
              let item ← InputShape.coerce isNullish shape element
              pure (.list [item])
  | .nonNull inner => do
      let value ← InputShape.coerce isNullish shape inner
      if isNullish value then throw (.nullFound (.nonNull inner)) else pure value

/-- The value that a literal denotes, given the values of variables. -/
def variableValue (values : Object) (name : String) : Value :=
  (values.get? name).getD .null

namespace Literal

mutual

/-- The value of a literal as it is written; variables without a value are null. -/
def toValue (values : Object) : Literal → Value
  | .null => .null
  | .int value => .int value
  | .float value => .float value
  | .string text => .string text
  | .bool value => .bool value
  | .enum name => .string name
  | .variable name => variableValue values name
  | .list items => .list (toValues values items)
  | .object fields => .object (Object.ofList (toFields values fields))

def toValues (values : Object) : List (Located Literal) → List Value
  | [] => []
  | ⟨item, _⟩ :: rest => item.toValue values :: toValues values rest

def toFields (values : Object) :
    List (Located String × Located Literal) → List (String × Value)
  | [] => []
  | (name, ⟨value, _⟩) :: rest => (name.node, value.toValue values) :: toFields values rest

end

end Literal

namespace Executor

/-- Makes a value fit a built-in scalar or an enum. -/
def coerceLeaf (executor : Executor σ) (name : String) (value : Value) :
    Except CoercionError Value :=
  match executor.schema.type? name with
  | some (.scalar _) =>
      match (BuiltinScalar.ofName? name).bind (·.coerce value) with
      | some coerced => .ok coerced
      | none => .error (.notConvertible name)
  | some (.enum enum) =>
      match value.toEnumName? with
      | none => .error (.notConvertible name)
      | some text =>
          if enum.hasValue text then .ok (.string text) else .error (.notAnEnumValue text name)
  | some _ => .error (.notAnInputType name)
  | none => .error (.unknownType name)

/-- What is given, at a nullable type, or the default if that counts as absent. -/
def givenOrDefault (executor : Executor σ) (expand : LiteralCoercion σ) (type : TypeRef)
    (default : Option (Located Literal)) (given : Option (TypeRef → Coercion σ Value)) :
    Coercion σ Value := do
  let value ←
    match given with
    | some coerce => coerce type.nullable
    | none => pure .null
  match executor.isNullish value, default with
  | true, some literal => expand literal.node type.nullable
  | _, _ => pure value

/-- One field of an input object; nothing if it counts as absent. -/
def coerceField (executor : Executor σ) (expand : LiteralCoercion σ) (field : InputDefinition)
    (given : Option (TypeRef → Coercion σ Value)) : Coercion σ (Option Value) :=
  ExceptT.adapt (CoercionError.inField field.name.node) do
    let type := field.type.node
    let value ← executor.givenOrDefault expand type field.default given
    if executor.isNullish value then
      if type.isNonNull then throw (.nullFound type) else pure none
    else pure (some value)

/-- The fields of an input object in declared order, given how to find what is provided. -/
def coerceFields (executor : Executor σ) (expand : LiteralCoercion σ)
    (given : String → Option (TypeRef → Coercion σ Value)) :
    List (Located InputDefinition) → Coercion σ Object
  | [] => pure []
  | field :: rest => do
      let name := field.node.name.node
      let value ← executor.coerceField expand field.node (given name)
      let fields ← coerceFields executor expand given rest
      match value with
      | none => pure fields
      | some present => pure ((name, present) :: fields)

/-- An input object, given the names of its fields and how to find them. -/
def coerceInputObject (executor : Executor σ) (expand : LiteralCoercion σ)
    (input : InputObjectType) (names : List String)
    (given : String → Option (TypeRef → Coercion σ Value)) : Coercion σ Value :=
  match names.find? fun name => (findInput? name input.fields).isNone with
  | some unknown => throw (.inField unknown .unknownField)
  | none => do
      let fields ← executor.coerceFields expand given input.fields
      pure (.object fields)

/-- An input at a named type; `fields` are those of an object, `custom` reads a custom scalar. -/
def coerceNamed (executor : Executor σ) (expand : LiteralCoercion σ)
    (fields : Option (List String × (String → Option (TypeRef → Coercion σ Value))))
    (custom : ScalarHooks σ → Action σ FieldError Value) (plain : Value) (name : String) :
    Coercion σ Value :=
  match executor.schema.type? name with
  | some (.inputObject input) =>
      match fields with
      | none => throw (.notAnObject name)
      | some (names, given) => executor.coerceInputObject expand input names given
  | some (.scalar _) =>
      match BuiltinScalar.ofName? name with
      | some _ => liftExcept (executor.coerceLeaf name plain)
      | none =>
          match executor.scalar? name with
          | none => pure plain
          | some hooks => ExceptT.adapt (fun error => .refused error.message) (custom hooks)
  | _ => liftExcept (executor.coerceLeaf name plain)
where
  liftExcept (result : Except CoercionError Value) : Coercion σ Value :=
    match result with
    | .ok value => pure value
    | .error error => throw error

mutual

def coerceInputWith (executor : Executor σ) (expand : LiteralCoercion σ) :
    Value → TypeRef → Coercion σ Value
  | .list items, type =>
      InputShape.coerce executor.isNullish
        { settled := if executor.isNullish (.list items) then some .null else none
          elements := some (coerceElementsWith executor expand 0 items)
          named := executor.coerceNamed expand none
            (fun hooks => hooks.parseValue (.list items)) (.list items) }
        type
  | .object fields, type =>
      InputShape.coerce executor.isNullish
        { settled := if executor.isNullish (.object fields) then some .null else none
          elements := none
          named := executor.coerceNamed expand
            (some (Object.keys fields, coerceEntryWith executor expand fields))
            (fun hooks => hooks.parseValue (.object fields)) (.object fields) }
        type
  | value, type =>
      InputShape.coerce executor.isNullish
        { settled := if executor.isNullish value then some .null else none
          elements := none
          named := executor.coerceNamed expand none (fun hooks => hooks.parseValue value) value }
        type

/-- The elements of a list value, the first one having a number. -/
def coerceElementsWith (executor : Executor σ) (expand : LiteralCoercion σ) (index : Nat) :
    List Value → TypeRef → Coercion σ (List Value)
  | [], _ => pure []
  | item :: rest, type => do
      let first ← ExceptT.adapt (CoercionError.inElement index)
        (coerceInputWith executor expand item type)
      let others ← coerceElementsWith executor expand (index + 1) rest type
      pure (first :: others)

def coerceEntryWith (executor : Executor σ) (expand : LiteralCoercion σ) :
    List (String × Value) → String → Option (TypeRef → Coercion σ Value)
  | [], _ => none
  | (key, value) :: rest, name =>
      if name = key then some (coerceInputWith executor expand value)
      else coerceEntryWith executor expand rest name

end

mutual

def coerceLiteralWith (executor : Executor σ) (values : Object) (expand : LiteralCoercion σ) :
    Literal → TypeRef → Coercion σ Value
  | .variable name, type =>
      InputShape.coerce executor.isNullish
        { settled := some (variableValue values name), elements := none
          named := fun _ => pure .null }
        type
  | .null, type =>
      InputShape.coerce executor.isNullish
        { settled := some .null, elements := none, named := fun _ => pure .null } type
  | .list items, type =>
      InputShape.coerce executor.isNullish
        { settled := none
          elements := some (coerceLiteralElements executor values expand 0 items)
          named := executor.coerceNamed expand none
            (fun hooks => hooks.parseLiteral (.list items))
            ((Literal.list items).toValue values) }
        type
  | .object fields, type =>
      InputShape.coerce executor.isNullish
        { settled := none
          elements := none
          named := executor.coerceNamed expand
            (some (fields.map (·.1.node), coerceLiteralEntry executor values expand fields))
            (fun hooks => hooks.parseLiteral (.object fields))
            ((Literal.object fields).toValue values) }
        type
  | literal, type =>
      InputShape.coerce executor.isNullish
        { settled := none
          elements := none
          named := executor.coerceNamed expand none
            (fun hooks => hooks.parseLiteral literal) (literal.toValue values) }
        type

/-- The elements of a list literal, the first one having a number. -/
def coerceLiteralElements (executor : Executor σ) (values : Object)
    (expand : LiteralCoercion σ) (index : Nat) :
    List (Located Literal) → TypeRef → Coercion σ (List Value)
  | [], _ => pure []
  | ⟨item, _⟩ :: rest, type => do
      let first ← ExceptT.adapt (CoercionError.inElement index)
        (coerceLiteralWith executor values expand item type)
      let others ← coerceLiteralElements executor values expand (index + 1) rest type
      pure (first :: others)

def coerceLiteralEntry (executor : Executor σ) (values : Object)
    (expand : LiteralCoercion σ) :
    List (Located String × Located Literal) → String → Option (TypeRef → Coercion σ Value)
  | [], _ => none
  | (key, ⟨value, _⟩) :: rest, name =>
      if name = key.node then some (coerceLiteralWith executor values expand value)
      else coerceLiteralEntry executor values expand rest name

end

/-- Makes defaults fit their types, at most so many within each other. -/
def expandDefault (executor : Executor σ) (values : Object) : Nat → LiteralCoercion σ
  | 0, _, _ => unfinished
  | depth + 1, literal, type =>
      coerceLiteralWith executor values
        (fun inner innerType => expandDefault executor values depth inner innerType)
        literal type

end Executor

def TypeDefinition.inputDefaults : TypeDefinition → List (Located Literal)
  | .inputObject input => input.fields.filterMap fun field => field.node.default
  | _ => []

def Schema.defaultCount (schema : Schema) : Nat :=
  (schema.types.flatMap TypeDefinition.inputDefaults).length

namespace Executor

def coerceInput (executor : Executor σ) (values : Object) (value : Value) (type : TypeRef) :
    Coercion σ Value :=
  executor.coerceInputWith (executor.expandDefault values executor.schema.defaultCount)
    value type

def coerceLiteral (executor : Executor σ) (values : Object) : LiteralCoercion σ :=
  executor.expandDefault values (executor.schema.defaultCount + 1)

/-- One argument of a field; nothing if it counts as absent. -/
def coerceArgument (executor : Executor σ) (values : Object) (field : Field)
    (argument : InputDefinition) : Action σ InputError (Option Value) := do
  let name := argument.name.node
  let type := argument.type.node
  let given := (field.argument? name).map fun literal =>
    executor.coerceLiteral values literal.node
  let value ← ExceptT.adapt (InputError.invalidArgument name)
    (executor.givenOrDefault (executor.coerceLiteral values) type argument.default given)
  if executor.isNullish value then
    if type.isNonNull then throw (.missingArgument name type) else pure none
  else pure (some value)

def coerceArguments (executor : Executor σ) (values : Object) (field : Field) :
    List (Located InputDefinition) → Action σ InputError Object
  | [] => pure []
  | argument :: rest => do
      let value ← executor.coerceArgument values field argument.node
      let others ← coerceArguments executor values field rest
      match value with
      | none => pure others
      | some present => pure ((argument.node.name.node, present) :: others)

/-- One variable of an operation; nothing if it counts as absent. -/
def coerceVariable (executor : Executor σ) (inputs : Object) (declared : VariableDefinition) :
    Action σ InputError (Option Value) := do
  let name := declared.name.node
  let type := declared.type.node
  match executor.schema.type? type.innermost with
  | none => throw (.unknownVariableType type.innermost)
  | some definition =>
      if definition.isInput then
        let given := (inputs.get? name).map (executor.coerceInput [])
        let value ← ExceptT.adapt (InputError.invalidVariable name)
          (executor.givenOrDefault (executor.coerceLiteral []) type declared.default given)
        if executor.isNullish value then
          if type.isNonNull then throw (.missingVariable name type) else pure none
        else pure (some value)
      else throw (.notAnInputVariable name type)

end Executor

end GraphQL
