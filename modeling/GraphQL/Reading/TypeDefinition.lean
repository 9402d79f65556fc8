import GraphQL.Reading.Selection
import GraphQL.TypeDefinition

/-!
Reading the schema language.

A definition ends where its last part ends. The description in front of a field, argument, input
field or enum value is taken before its name; that of a type is handed in.
-/

namespace GraphQL.Reader

/-- The deprecation that the first directive of that name tells. -/
def deprecation (list : Directives) : Deprecation :=
  match (list.getD []).find? fun mark => mark.node.name.node == "deprecated" with
  | none => .current
  | some mark =>
      .deprecated ((mark.node.argument? "reason").bind fun reason => reason.node.asString?)

/-- An argument of a field definition or a field of an input object. -/
def inputDefinition : Reader (Located InputDefinition) := do
  let description ← takeDescription
  let inputName ← name
  let _ ← expect (.punctuator .colon)
  let type ← typeRef
  let value ← defaultValue
  let marks ← directives
  let valueStop :=
    match value with
    | some located => located.span.stop
    | none => type.span.stop
  pure (.between inputName.span.start (directivesStop marks valueStop)
    ⟨inputName, description, type, value⟩)

/-- Input definitions between two tokens. -/
def inputDefinitions (opening closing : Punctuator) (kind : NameKind) :
    Reader (Located (List (Located InputDefinition))) := do
  let list ← delimitedNonempty (.punctuator opening) inputDefinition (.punctuator closing)
  rejectRepeats kind (list.node.map (·.node.name))
  pure list

def fieldDefinition : Reader (Located FieldDefinition) := do
  let description ← takeDescription
  let fieldName ← name
  let inputs ←
    if ← sees (.punctuator .parenOpen) then do
      let list ← inputDefinitions .parenOpen .parenClose .argument
      pure list.node
    else pure []
  let _ ← expect (.punctuator .colon)
  let type ← typeRef
  let marks ← directives
  pure (.between fieldName.span.start (directivesStop marks type.span.stop)
    ⟨fieldName, description, inputs, type, deprecation marks⟩)

def fieldDefinitions : Reader (Located (List (Located FieldDefinition))) := do
  let list ← delimitedNonempty (.punctuator .braceOpen) fieldDefinition (.punctuator .braceClose)
  rejectRepeats .field (list.node.map (·.node.name))
  pure list

/-- Interface names up to an opening brace, at least one and at most so many. -/
def interfaceNames : Nat → Reader (List (Located String))
  | 0 => do
      let found ← peek
      fail found.span .unexpectedEnd
  | count + 1 => do
      let first ← name
      if ← sees (.punctuator .braceOpen) then pure [first]
      else
        let rest ← interfaceNames count
        pure (first :: rest)

def objectType (description : Option String) : Reader (Located ObjectType) := do
  let keyword ← expect (.keyword .type)
  let typeName ← name
  let interfaces ←
    match ← skip? (.keyword .implements) with
    | some _ => do interfaceNames (← get).length
    | none => pure []
  let fields ← fieldDefinitions
  pure (.between keyword.span.start fields.span.stop
    ⟨typeName, description, interfaces, fields.node⟩)

def interfaceType (description : Option String) : Reader (Located InterfaceType) := do
  let keyword ← expect (.keyword .interface)
  let typeName ← name
  let fields ← fieldDefinitions
  pure (.between keyword.span.start fields.span.stop ⟨typeName, description, fields.node⟩)

/-- Union members behind the first one, each after a bar, at most so many. -/
def moreMembers : Nat → Reader (List (Located String))
  | 0 => pure []
  | count + 1 => do
      match ← skip? (.punctuator .pipe) with
      | none => pure []
      | some _ => do
          let first ← name
          let rest ← moreMembers count
          pure (first :: rest)

def unionType (description : Option String) : Reader (Located UnionType) := do
  let keyword ← expect (.keyword .union)
  let typeName ← name
  let _ ← expect (.punctuator .equals)
  let _ ← skip? (.punctuator .pipe)
  let first ← name
  let rest ← moreMembers (← get).length
  let stop := (rest.getLast?.getD first).span.stop
  pure (.between keyword.span.start stop ⟨typeName, description, first :: rest⟩)

def scalarType (description : Option String) : Reader (Located ScalarType) := do
  let keyword ← expect (.keyword .scalar)
  let typeName ← name
  pure (.between keyword.span.start typeName.span.stop ⟨typeName, description⟩)

def enumValue : Reader (Located EnumValueDefinition) := do
  let description ← takeDescription
  let found ← peek
  match found.node with
  | .bool _ => reject fun token => .invalidEnumValue token.text
  | .null => reject fun token => .invalidEnumValue token.text
  | _ => do
      let valueName ← name
      let marks ← directives
      pure (.between valueName.span.start (directivesStop marks valueName.span.stop)
        ⟨valueName, description, deprecation marks⟩)

def enumType (description : Option String) : Reader (Located EnumType) := do
  let keyword ← expect (.keyword .enum)
  let typeName ← name
  let values ← delimitedNonempty (.punctuator .braceOpen) enumValue (.punctuator .braceClose)
  rejectRepeats .enumValue (values.node.map (·.node.name))
  pure (.between keyword.span.start values.span.stop ⟨typeName, description, values.node⟩)

def inputObjectType (description : Option String) : Reader (Located InputObjectType) := do
  let keyword ← expect (.keyword .input)
  let typeName ← name
  let fields ← inputDefinitions .braceOpen .braceClose .inputField
  pure (.between keyword.span.start fields.span.stop ⟨typeName, description, fields.node⟩)

def typeExtension (description : Option String) : Reader (Located ObjectType) := do
  let keyword ← expect (.keyword .extend)
  let object ← objectType description
  pure (.between keyword.span.start object.span.stop object.node)

end GraphQL.Reader
