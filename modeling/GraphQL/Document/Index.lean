import GraphQL.Reading.Document

/-!
Indices of names.

An index is filled in one pass over the definitions of a document. It holds the position of each
definition that has a name, in the name space of its kind, and definitions are looked up through it.
-/

namespace GraphQL

/-- How operations, fragments and types are found by their names. -/
structure LookUps where
  operation? : String → Option (Located Operation)
  fragment? : String → Option (Located Fragment)
  type? : String → Option TypeDefinition

/-- The type of a name, if it is of the kind. -/
def LookUps.typeOfKind? (lookUps : LookUps) (kind : TypeKind) (name : String) :
    Option TypeDefinition :=
  (lookUps.type? name).filter fun type => type.kind == kind

/-- Look-ups in a document itself. -/
def Document.lookUps (document : Document) : LookUps where
  operation? := document.operation?
  fragment? := document.fragment?
  type? := document.type?

/-- The name space and the name in which a definition is found. -/
def Definition.key? (definition : Definition) : Option (NameKind × String) :=
  definition.declared?.map fun declared => (declared.1, declared.2.node)

/-- Positions of definitions in their document. -/
abbrev NameIndex := List ((NameKind × String) × Nat)

namespace NameIndex

/-- Files definitions, the first of them at a position; a name that is taken is refused. -/
def fill (index : NameIndex) (position : Nat) :
    List Definition → Except (Located ParseError) NameIndex
  | [] => .ok index
  | definition :: rest =>
      match definition.declared? with
      | none => index.fill (position + 1) rest
      | some (kind, name) =>
          match index.lookup (kind, name.node) with
          | some _ => .error ⟨.duplicate kind name.node, name.span⟩
          | none => fill (((kind, name.node), position) :: index) (position + 1) rest

def ofDefinitions (definitions : List Definition) : Except (Located ParseError) NameIndex :=
  fill [] 0 definitions

/-- The definition at the position that a name was filed with. -/
def definition? (index : NameIndex) (definitions : List Definition) (kind : NameKind)
    (name : String) : Option Definition :=
  (index.lookup (kind, name)).bind fun position => definitions[position]?

/-- Look-ups through an index, which was perhaps filled before the definitions were changed. -/
def lookUps (index : NameIndex) (definitions : List Definition) : LookUps where
  operation? name := (index.definition? definitions .operation name).bind Definition.operation?
  fragment? name := (index.definition? definitions .fragment name).bind Definition.fragment?
  type? name := (index.definition? definitions .type name).bind Definition.type?

end NameIndex

end GraphQL
