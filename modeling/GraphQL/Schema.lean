import GraphQL.Document
import GraphQL.ParseError

/-!
Schemas: the types a server offers, with the object types that requests start from.

A schema is built from a source in steps, each of which may find it inconsistent. The causes and
their wording are listed here; the steps are in `GraphQL.Schema.Build`.
-/

namespace GraphQL

inductive SchemaError where
  | parse (error : ParseError) (span : Span)
  | missingQueryRoot (name : String)
  | missingMutationRoot (name : String)
  | unknownType (name : String) (referencedBy : String)
  | notAnInputType (name : String) (referencedBy : String)
  | invalidUnionMember (union : String) (member : String)
  | invalidInterface (object : String) (interface : String)
  | invalidResolverKey (key : String)

/-- A cause with its place, as users see it. -/
def locatedMessage (error : Located ParseError) : String :=
  error.node.message ++ ". At " ++ error.span.start.text

def SchemaError.message : SchemaError → String
  | .parse error span => locatedMessage ⟨error, span⟩
  | .missingQueryRoot name => "The QueryRoot " ++ doubleQuoted name ++ " could not be found"
  | .missingMutationRoot name => "The MutationRoot " ++ doubleQuoted name ++ " could not be found"
  | .unknownType name referencedBy => "Unknown type " ++ name ++ " referenced by " ++ referencedBy
  | .notAnInputType name referencedBy =>
      "Type " ++ name ++ " of " ++ referencedBy ++ " is not an input type"
  | .invalidUnionMember union member =>
      "Union " ++ doubleQuoted union ++ " member " ++ doubleQuoted member ++
        " is not an object type"
  | .invalidInterface object interface =>
      "Type " ++ doubleQuoted object ++ " cannot implement " ++ doubleQuoted interface ++
        ", which is not an interface type"
  | .invalidResolverKey key =>
      "Invalid resolver key " ++ doubleQuoted key ++ ", expected \"TypeName/fieldName\""

structure Schema where
  document : Document
  queryName : String
  mutationName : Option String

namespace Schema

def type? (schema : Schema) (name : String) : Option TypeDefinition :=
  schema.document.type? name

/-- All types, those of the introspection system last. -/
def types (schema : Schema) : List TypeDefinition := schema.document.types

/-- The object type that queries start from. -/
def queryType? (schema : Schema) : Option ObjectType :=
  schema.document.object? schema.queryName

/-- The object type that mutations start from, if the schema has any. -/
def mutationType? (schema : Schema) : Option ObjectType :=
  schema.mutationName.bind schema.document.object?

def field? (schema : Schema) (typeName fieldName : String) : Option FieldDefinition :=
  match schema.type? typeName with
  | none => none
  | some type => type.fields?.bind (findField? fieldName)

def possibleTypes (schema : Schema) (abstractName : String) : List String :=
  schema.document.possibleTypes abstractName

def isPossibleType (schema : Schema) (abstractName objectName : String) : Bool :=
  schema.document.isPossibleType abstractName objectName

end Schema

end GraphQL
