import GraphQL.Selection
import GraphQL.TypeDefinition

/-!
Documents: the definitions of one source, of the query language, the schema language or both.

Operations, fragments and types have name spaces of their own. Look-ups take the first definition of
a name; in a document that was read there is no other. The possible types of a name are the objects
that declare it as interface and the members of the union of that name.
-/

namespace GraphQL

inductive Definition where
  | operation (operation : Located Operation)
  | fragment (fragment : Located Fragment)
  | type (type : Located TypeDefinition)
  /-- Fields and interfaces to be added to the object type of the same name. -/
  | extension (object : Located ObjectType)

structure Document where
  definitions : List Definition
  span : Span

namespace Definition

def operation? : Definition → Option (Located Operation)
  | .operation located => some located
  | _ => none

def fragment? : Definition → Option (Located Fragment)
  | .fragment located => some located
  | _ => none

def type? : Definition → Option TypeDefinition
  | .type located => some located.node
  | _ => none

def extension? : Definition → Option (Located ObjectType)
  | .extension located => some located
  | _ => none

end Definition

/-- Adds the names that are not yet in the list, in order. -/
def appendNew (names : List String) (more : List String) : List String :=
  more.foldl (fun list name => if name ∈ list then list else list ++ [name]) names

namespace Document

def operations (document : Document) : List (Located Operation) :=
  document.definitions.filterMap Definition.operation?

def fragments (document : Document) : List (Located Fragment) :=
  document.definitions.filterMap Definition.fragment?

def types (document : Document) : List TypeDefinition :=
  document.definitions.filterMap Definition.type?

def extensions (document : Document) : List (Located ObjectType) :=
  document.definitions.filterMap Definition.extension?

def operation? (document : Document) (name : String) : Option (Located Operation) :=
  document.operations.find? fun operation => (operation.node.name.map (·.node)) == some name

def fragment? (document : Document) (name : String) : Option (Located Fragment) :=
  document.fragments.find? fun fragment => fragment.node.name.node == name

def type? (document : Document) (name : String) : Option TypeDefinition :=
  document.types.find? fun type => type.name == name

def object? (document : Document) (name : String) : Option ObjectType :=
  match document.type? name with
  | some (.object object) => some object
  | _ => none

/-- What one type definition adds to the possible types of a name. -/
def possibleIn (name : String) : TypeDefinition → List String
  | .object object => if object.implements name then [object.name.node] else []
  | .union union => if union.name.node = name then union.members.map (·.node) else []
  | _ => []

/-- The names of the object types that an interface or union stands for. -/
def possibleTypes (document : Document) (name : String) : List String :=
  document.types.foldl (fun names type => appendNew names (possibleIn name type)) []

def isPossibleType (document : Document) (abstractName objectName : String) : Bool :=
  decide (objectName ∈ document.possibleTypes abstractName)

end Document

end GraphQL
