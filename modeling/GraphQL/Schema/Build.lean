import GraphQL.Introspection.Texts
import GraphQL.Reading.Document
import GraphQL.Schema

/-!
Building a schema from its source.

The source is read together with the introspection types. Extensions are merged into their object
types, every type that is referred to is looked up, the roots are found, and the query root gains
the two fields that introspection starts from.
-/

namespace GraphQL

/-- Changes the first object type of a name; `none` if there is none. -/
def updateObject? (name : String) (change : ObjectType → Except SchemaError ObjectType) :
    List Definition → Option (Except SchemaError (List Definition))
  | [] => none
  | definition :: rest =>
      match definition with
      | .type ⟨.object object, span⟩ =>
          if object.name.node = name then
            some ((change object).map fun changed => .type ⟨.object changed, span⟩ :: rest)
          else (updateObject? name change rest).map (Except.map (definition :: ·))
      | _ => (updateObject? name change rest).map (Except.map (definition :: ·))

namespace ObjectType

/-- Appends interfaces that are not declared yet. -/
def addInterfaces (object : ObjectType) (interfaces : List (Located String)) : ObjectType :=
  interfaces.foldl
    (fun object interface =>
      if object.implements interface.node then object
      else { object with interfaces := object.interfaces ++ [interface] })
    object

/-- Appends fields one by one; a name that is taken is refused where the new field stands. -/
def addFields (object : ObjectType) :
    List (Located FieldDefinition) → Except SchemaError ObjectType
  | [] => .ok object
  | field :: rest =>
      let name := field.node.name
      match object.field? name.node with
      | some _ => .error (.parse (.duplicate .field name.node) name.span)
      | none => addFields { object with fields := object.fields ++ [field] } rest

def extend (object extension : ObjectType) : Except SchemaError ObjectType :=
  (object.addInterfaces extension.interfaces).addFields extension.fields

end ObjectType

namespace Document

def mergeExtension (document : Document) (extension : ObjectType) :
    Except SchemaError Document :=
  match updateObject? extension.name.node (·.extend extension) document.definitions with
  | none => .error (.unknownType extension.name.node "extend type")
  | some (.error error) => .error error
  | some (.ok definitions) => .ok { document with definitions := definitions }

def mergeExtensions (document : Document) : List (Located ObjectType) →
    Except SchemaError Document
  | [] => .ok document
  | extension :: rest =>
      match document.mergeExtension extension.node with
      | .error error => .error error
      | .ok merged => merged.mergeExtensions rest

/-- Applies a check to every member of a list, stopping at the first failure. -/
def checkEach {α : Type} (check : α → Except SchemaError Unit) : List α → Except SchemaError Unit
  | [] => .ok ()
  | x :: rest =>
      match check x with
      | .error error => .error error
      | .ok () => checkEach check rest

/-- The innermost type of an argument or input field exists and is an input type. -/
def checkInput (document : Document) (owner : String) (input : Located InputDefinition) :
    Except SchemaError Unit :=
  let name := input.node.type.node.innermost
  let referencedBy := owner ++ "(" ++ input.node.name.node ++ ")"
  match document.type? name with
  | none => .error (.unknownType name referencedBy)
  | some type => if type.isInput then .ok () else .error (.notAnInputType name referencedBy)

/-- The types of a field and of its arguments exist. -/
def checkField (document : Document) (typeName : String) (field : Located FieldDefinition) :
    Except SchemaError Unit :=
  let owner := typeName ++ "." ++ field.node.name.node
  let name := field.node.type.node.innermost
  match document.type? name with
  | none => .error (.unknownType name owner)
  | some _ => checkEach (document.checkInput owner) field.node.arguments

/-- What an object type implements is an interface. -/
def checkInterface (document : Document) (object : String) (interface : Located String) :
    Except SchemaError Unit :=
  match document.type? interface.node with
  | some (.interface _) => .ok ()
  | some _ => .error (.invalidInterface object interface.node)
  | none => .error (.unknownType interface.node object)

/-- A member of a union is an object type. -/
def checkMember (document : Document) (union : String) (member : Located String) :
    Except SchemaError Unit :=
  match document.type? member.node with
  | some (.object _) => .ok ()
  | some _ => .error (.invalidUnionMember union member.node)
  | none => .error (.unknownType member.node union)

/-- The references in one type definition, fields first. -/
def checkType (document : Document) (type : TypeDefinition) : Except SchemaError Unit :=
  match checkEach (document.checkField type.name) (type.fields?.getD []) with
  | .error error => .error error
  | .ok () =>
      match type with
      | .object object => checkEach (document.checkInterface type.name) object.interfaces
      | .union union => checkEach (document.checkMember type.name) union.members
      | .inputObject input => checkEach (document.checkInput type.name) input.fields
      | _ => .ok ()

def checkReferences (document : Document) : Except SchemaError Unit :=
  checkEach document.checkType document.types

end Document

namespace Introspection

/-- The field that asks for the schema. -/
def schemaField : FieldDefinition where
  name := .unplaced "__schema"
  description := some "The GraphQL schema"
  arguments := []
  type := .unplaced (.nonNull (.named "__Schema"))
  deprecation := .current

/-- The field that asks for one type. -/
def typeField : FieldDefinition where
  name := .unplaced "__type"
  description := some "GraphQL Type introspection information"
  arguments :=
    [.unplaced
      { name := .unplaced "name"
        description := some "The name of the Type being inspected"
        type := .unplaced (.nonNull (.named "String"))
        default := none }]
  type := .unplaced (.named "__Type")
  deprecation := .current

/-- Appends a field of introspection; a field of that name is refused where it stands. -/
def addEntry (object : ObjectType) (field : FieldDefinition) : Except SchemaError ObjectType :=
  match object.field? field.name.node with
  | some taken => .error (.parse (.duplicate .field field.name.node) taken.name.span)
  | none => .ok { object with fields := object.fields ++ [.unplaced field] }

/-- Appends both fields that introspection starts from. -/
def addEntries (object : ObjectType) : Except SchemaError ObjectType :=
  match addEntry object schemaField with
  | .error error => .error error
  | .ok extended => addEntry extended typeField

end Introspection

namespace Schema

/-- The roots are object types of the document. -/
def checkRoots (document : Document) (queryName : String) (mutationName : Option String) :
    Except SchemaError Unit :=
  match document.object? queryName, mutationName with
  | none, _ => .error (.missingQueryRoot queryName)
  | some _, none => .ok ()
  | some _, some name =>
      match document.object? name with
      | none => .error (.missingMutationRoot name)
      | some _ => .ok ()

/-- The schema of a document that holds the introspection types. -/
def ofDocument (document : Document) (queryName : String) (mutationName : Option String) :
    Except SchemaError Schema := do
  let merged ← document.mergeExtensions document.extensions
  merged.checkReferences
  checkRoots merged queryName mutationName
  match updateObject? queryName Introspection.addEntries merged.definitions with
  | none => .error (.missingQueryRoot queryName)
  | some (.error error) => .error error
  | some (.ok definitions) =>
      .ok ⟨{ merged with definitions := definitions }, queryName, mutationName⟩

/-- A schema text with the introspection types behind it. -/
def fullText (text : List Char) : List Char := text ++ '\n' :: Introspection.typesText

/-- Builds a schema from its text; the roots are given by the names of their object types. -/
def ofText (text : List Char) (queryName : String) (mutationName : Option String) :
    Except SchemaError Schema :=
  match Document.ofText (fullText text) with
  | .error error => .error (.parse error.node error.span)
  | .ok document => ofDocument document queryName mutationName

def ofSource (source queryName : String) (mutationName : Option String) :
    Except SchemaError Schema :=
  ofText source.toList queryName mutationName

end Schema

end GraphQL
