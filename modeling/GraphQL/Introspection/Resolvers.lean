import GraphQL.Execution.Executor

/-!
The resolvers that answer introspection.

A named type is reported with its kind, name and description; what it consists of is looked up by
that name when it is asked for. Wrappers have no name, so nothing is found for them.
-/

namespace GraphQL.Introspection

def optionalText : Option String → Value
  | none => .null
  | some text => .string text

/-- A named type, as it is reported. -/
def typeValue (type : TypeDefinition) : Value :=
  .object
    [("kind", .string type.kind.text), ("name", .string type.name),
      ("description", optionalText type.description)]

/-- The named type of a name, null if there is none. -/
def namedValue (schema : Schema) (name : String) : Value :=
  match schema.type? name with
  | none => .null
  | some type => typeValue type

def wrapperValue (kind : TypeKind) (inner : Value) : Value :=
  .object [("kind", .string kind.text), ("name", .null), ("ofType", inner)]

/-- A type reference, wrapper by wrapper. -/
def typeRefValue (schema : Schema) : TypeRef → Value
  | .named name => namedValue schema name
  | .list element => wrapperValue .list (typeRefValue schema element)
  | .nonNull inner => wrapperValue .nonNull (typeRefValue schema inner)

def inputValue (schema : Schema) (input : InputDefinition) : Value :=
  .object
    [("name", .string input.name.node), ("description", optionalText input.description),
      ("type", typeRefValue schema input.type.node),
      ("defaultValue", optionalText (input.default.map fun value => value.node.print))]

def fieldValue (schema : Schema) (field : FieldDefinition) : Value :=
  .object
    [("name", .string field.name.node), ("description", optionalText field.description),
      ("args", .list (field.arguments.map fun argument => inputValue schema argument.node)),
      ("type", typeRefValue schema field.type.node),
      ("isDeprecated", .bool field.deprecation.isDeprecated),
      ("deprecationReason", optionalText field.deprecation.reason?)]

def enumValueValue (value : EnumValueDefinition) : Value :=
  .object
    [("name", .string value.name.node), ("description", optionalText value.description),
      ("isDeprecated", .bool value.deprecation.isDeprecated),
      ("deprecationReason", optionalText value.deprecation.reason?)]

/-- A directive whose one argument is a required condition. -/
def directiveValue (schema : Schema) (name description : String) : Value :=
  .object
    [("name", .string name), ("description", .string description),
      ("args", .list [.object
        [("name", .string "if"), ("description", .string "The condition value"),
          ("type", typeRefValue schema (.nonNull (.named "Boolean"))),
          ("defaultValue", .null)]]),
      ("onOperation", .bool false), ("onFragment", .bool true), ("onField", .bool true)]

variable {σ : Type}

/-- The named type that the source value reports. -/
def sourceType? (context : FieldContext σ) : Option TypeDefinition :=
  ((context.source.field? "name").bind Value.asString?).bind context.schema.type?

def includeDeprecated (context : FieldContext σ) : Bool :=
  ((context.argument? "includeDeprecated").bind Value.asBool?).getD false

def typeByName (context : FieldContext σ) : Value :=
  match (context.argument? "name").bind Value.asString? with
  | none => .null
  | some name => namedValue context.schema name

def directives (context : FieldContext σ) : Value :=
  .list
    [directiveValue context.schema "skip"
        "Conditionally exclude a field or fragment during execution",
      directiveValue context.schema "include"
        "Conditionally include a field or fragment during execution"]

/-- Whether a field is reported: deprecated ones on request, the reserved ones of the root never. -/
def reportsField (schema : Schema) (type : TypeDefinition) (deprecatedToo : Bool)
    (field : FieldDefinition) : Bool :=
  (deprecatedToo || !field.deprecation.isDeprecated) &&
    !(type.name == schema.queryName && Name.isReserved field.name.node)

def fields (context : FieldContext σ) : Value :=
  match sourceType? context with
  | none => .null
  | some type =>
      match type.fields? with
      | none => .null
      | some list =>
          let reported := (list.map (·.node)).filter
            (reportsField context.schema type (includeDeprecated context))
          .list (reported.map (fieldValue context.schema))

/-- The types of those names that there are. -/
def typeValues (schema : Schema) (names : List String) : Value :=
  .list ((names.filterMap schema.type?).map typeValue)

def interfaces (context : FieldContext σ) : Value :=
  match sourceType? context with
  | some (.object object) => typeValues context.schema (object.interfaces.map (·.node))
  | _ => .null

def possibleTypes (context : FieldContext σ) : Value :=
  match sourceType? context with
  | none => .null
  | some type =>
      if type.isAbstract then
        typeValues context.schema (context.schema.possibleTypes type.name)
      else .null

def enumValues (context : FieldContext σ) : Value :=
  match sourceType? context with
  | some (.enum enum) =>
      let reported := (enum.values.map (·.node)).filter fun value =>
        includeDeprecated context || !value.deprecation.isDeprecated
      .list (reported.map enumValueValue)
  | _ => .null

def inputFields (context : FieldContext σ) : Value :=
  match sourceType? context with
  | some (.inputObject input) =>
      .list (input.fields.map fun field => inputValue context.schema field.node)
  | _ => .null

/-- The object types of a schema. -/
def objectTypes (schema : Schema) : List ObjectType :=
  schema.types.filterMap fun
    | .object object => some object
    | _ => none

/-- Every object knows the name of its own type. -/
def typenameResolvers (schema : Schema) : Resolvers σ :=
  (objectTypes schema).map fun object =>
    (object.name.node ++ "/__typename",
      .ofFunction fun context => .string context.objectType.name.node)

/-- The resolvers of the introspection types and of the two fields that lead to them. -/
def resolvers (schema : Schema) : Resolvers σ :=
  [(schema.queryName ++ "/__schema", .ofFunction fun _ => .object []),
    (schema.queryName ++ "/__type", .ofFunction typeByName),
    ("__Schema/types", .ofFunction fun context => .list (context.schema.types.map typeValue)),
    ("__Schema/queryType", .ofFunction fun context =>
      namedValue context.schema context.schema.queryName),
    ("__Schema/mutationType", .ofFunction fun context =>
      match context.schema.mutationName with
      | none => .null
      | some name => namedValue context.schema name),
    ("__Schema/subscriptionType", .ofFunction fun _ => .null),
    ("__Schema/directives", .ofFunction directives),
    ("__Type/fields", .ofFunction fields),
    ("__Type/interfaces", .ofFunction interfaces),
    ("__Type/possibleTypes", .ofFunction possibleTypes),
    ("__Type/enumValues", .ofFunction enumValues),
    ("__Type/inputFields", .ofFunction inputFields)] ++
    typenameResolvers schema

end GraphQL.Introspection
