import GraphQL.Literal
import GraphQL.TypeRef

/-!
Type definitions of the schema language.

Fields, arguments, input fields and enum values keep the order in which they were written. A
description is the text of the comment lines in front of a definition.
-/

namespace GraphQL

/-- Whether a field or enum value is deprecated, and the reason if one was given. -/
inductive Deprecation where
  | current
  | deprecated (reason : Option String)
  deriving DecidableEq, Repr

namespace Deprecation

def isDeprecated : Deprecation → Bool
  | .current => false
  | .deprecated _ => true

def reason? : Deprecation → Option String
  | .current => none
  | .deprecated reason => reason

end Deprecation

/-- An argument of a field or a field of an input object. -/
structure InputDefinition where
  name : Located String
  description : Option String
  type : Located TypeRef
  default : Option (Located Literal)

structure FieldDefinition where
  name : Located String
  description : Option String
  arguments : List (Located InputDefinition)
  type : Located TypeRef
  deprecation : Deprecation

structure EnumValueDefinition where
  name : Located String
  description : Option String
  deprecation : Deprecation

structure ScalarType where
  name : Located String
  description : Option String

structure ObjectType where
  name : Located String
  description : Option String
  interfaces : List (Located String)
  fields : List (Located FieldDefinition)

structure InterfaceType where
  name : Located String
  description : Option String
  fields : List (Located FieldDefinition)

structure UnionType where
  name : Located String
  description : Option String
  members : List (Located String)

structure EnumType where
  name : Located String
  description : Option String
  values : List (Located EnumValueDefinition)

structure InputObjectType where
  name : Located String
  description : Option String
  fields : List (Located InputDefinition)

inductive TypeDefinition where
  | scalar (definition : ScalarType)
  | object (definition : ObjectType)
  | interface (definition : InterfaceType)
  | union (definition : UnionType)
  | enum (definition : EnumType)
  | inputObject (definition : InputObjectType)

/-- The kinds of types that introspection tells apart. -/
inductive TypeKind where
  | scalar
  | object
  | interface
  | union
  | enum
  | inputObject
  | list
  | nonNull
  deriving DecidableEq, Repr

namespace TypeKind

def text : TypeKind → String
  | .scalar => "SCALAR"
  | .object => "OBJECT"
  | .interface => "INTERFACE"
  | .union => "UNION"
  | .enum => "ENUM"
  | .inputObject => "INPUT_OBJECT"
  | .list => "LIST"
  | .nonNull => "NON_NULL"

def all : List TypeKind :=
  [.scalar, .object, .interface, .union, .enum, .inputObject, .list, .nonNull]

def ofText? (text : String) : Option TypeKind :=
  all.find? fun kind => kind.text == text

end TypeKind

def findField? (name : String) (fields : List (Located FieldDefinition)) :
    Option FieldDefinition :=
  (fields.find? fun field => field.node.name.node == name).map (·.node)

def findInput? (name : String) (inputs : List (Located InputDefinition)) :
    Option InputDefinition :=
  (inputs.find? fun input => input.node.name.node == name).map (·.node)

def ObjectType.implements (object : ObjectType) (interface : String) : Bool :=
  object.interfaces.any fun name => name.node == interface

def ObjectType.field? (object : ObjectType) (name : String) : Option FieldDefinition :=
  findField? name object.fields

def EnumType.hasValue (enum : EnumType) (name : String) : Bool :=
  enum.values.any fun value => value.node.name.node == name

namespace TypeDefinition

def locatedName : TypeDefinition → Located String
  | .scalar definition => definition.name
  | .object definition => definition.name
  | .interface definition => definition.name
  | .union definition => definition.name
  | .enum definition => definition.name
  | .inputObject definition => definition.name

def name (definition : TypeDefinition) : String := definition.locatedName.node

def description : TypeDefinition → Option String
  | .scalar definition => definition.description
  | .object definition => definition.description
  | .interface definition => definition.description
  | .union definition => definition.description
  | .enum definition => definition.description
  | .inputObject definition => definition.description

def kind : TypeDefinition → TypeKind
  | .scalar _ => .scalar
  | .object _ => .object
  | .interface _ => .interface
  | .union _ => .union
  | .enum _ => .enum
  | .inputObject _ => .inputObject

/-- The fields of an object or interface type; other types have none. -/
def fields? : TypeDefinition → Option (List (Located FieldDefinition))
  | .object definition => some definition.fields
  | .interface definition => some definition.fields
  | _ => none

/-- Interfaces and unions stand for several object types. -/
def isAbstract : TypeDefinition → Bool
  | .interface _ => true
  | .union _ => true
  | _ => false

/-- Whether arguments, input fields and variables may have the type. -/
def isInput : TypeDefinition → Bool
  | .scalar _ => true
  | .enum _ => true
  | .inputObject _ => true
  | _ => false

end TypeDefinition

end GraphQL
