import GraphQL.Proofs.Printing

/-!
What documents look like when they are well-formed, and the lists in them that name things.

Lists that are there hold something, and what they name is named once, in the order of the source,
so that looking a name up finds what was written under it. Defaults are constants. Nothing is said of
the places of other parts, nor of names that are found in the whole document.
-/

namespace GraphQL

/-- Names that differ, in the order of the source. -/
structure NamesInOrder (names : List (Located String)) : Prop where
  different : DistinctNames names
  ordered : names.Pairwise fun first second => first.span.stop.index < second.span.stop.index

/-- Entries of a list that are looked up by name: each is found, and they are in order. -/
structure Keyed {α : Type} (key : α → Located String) (entries : List α) : Prop where
  names : NamesInOrder (entries.map key)
  found : ∀ entry ∈ entries,
    (entries.find? fun other => (key other).node == (key entry).node) = some entry

/-- Where names differ, the first entry of a name is the only one. -/
theorem find_of_distinct {α : Type} {key : α → Located String} {entries : List α}
    (distinct : ((entries.map key).map (·.node)).Nodup) :
    ∀ entry ∈ entries,
      (entries.find? fun other => (key other).node == (key entry).node) = some entry := by
  induction entries with
  | nil => exact List.forall_mem_nil _
  | cons first rest ih =>
      simp only [List.map_cons, List.nodup_cons] at distinct
      obtain ⟨apart, others⟩ := distinct
      refine List.forall_mem_cons.mpr ⟨by simp, fun entry member => ?_⟩
      have other : (key first).node ≠ (key entry).node := by
        intro same
        exact apart (same ▸ List.mem_map_of_mem (List.mem_map_of_mem member))
      rw [List.find?_cons_of_neg (by simpa using other)]
      exact ih others entry member

theorem NamesInOrder.keyed {α : Type} {key : α → Located String} {entries : List α}
    (names : NamesInOrder (entries.map key)) : Keyed key entries where
  names := names
  found := find_of_distinct names.different.distinct

/-- Literals in which objects name each field once; constant ones hold no variables. -/
inductive Literal.WellFormed (isConstant : Bool) : Literal → Prop where
  | null : WellFormed isConstant .null
  | int (value : Int32) : WellFormed isConstant (.int value)
  | float (value : Single) : WellFormed isConstant (.float value)
  | string (text : String) : WellFormed isConstant (.string text)
  | bool (value : Bool) : WellFormed isConstant (.bool value)
  | enum {name : String} (allowed : IsEnumName name) : WellFormed isConstant (.enum name)
  | variable {name : String} (free : isConstant = false) (valid : Name.isValid name = true) :
      WellFormed isConstant (.variable name)
  | list {items} (each : ∀ item ∈ items, WellFormed isConstant item.node) :
      WellFormed isConstant (.list items)
  | object {fields} (keyed : Keyed Prod.fst fields)
      (each : ∀ field ∈ fields, WellFormed isConstant field.2.node) :
      WellFormed isConstant (.object fields)

structure ArgumentsWellFormed (arguments : Option (Located (List Argument))) : Prop where
  filled : ∀ list ∈ arguments, list.node ≠ []
  keyed : ∀ list ∈ arguments, Keyed Argument.name list.node
  values : ∀ list ∈ arguments, ∀ argument ∈ list.node, argument.value.node.WellFormed false

structure Directive.WellFormed (directive : Directive) : Prop where
  name : directive.name.Valid
  arguments : ArgumentsWellFormed directive.arguments

structure Directives.WellFormed (directives : Directives) : Prop where
  filled : directives ≠ some []
  each : ∀ directive ∈ directives.getD [], directive.node.WellFormed

inductive Selection.WellFormed : Selection → Prop where
  | field {located : Located Field} (aliasName : ∀ name ∈ located.node.aliasName, name.Valid)
      (name : located.node.name.Valid) (arguments : ArgumentsWellFormed located.node.arguments)
      (directives : located.node.directives.WellFormed)
      (filled : located.node.selections ≠ some [])
      (each : ∀ list ∈ located.node.selections, ∀ selection ∈ list, WellFormed selection) :
      WellFormed (.field located)
  | spread {located : Located FragmentSpread} (name : located.node.name.Valid)
      (directives : located.node.directives.WellFormed) : WellFormed (.spread located)
  | inline {located : Located InlineFragment}
      (condition : ∀ name ∈ located.node.typeCondition, name.Valid)
      (directives : located.node.directives.WellFormed) (filled : located.node.selections ≠ [])
      (each : ∀ selection ∈ located.node.selections, WellFormed selection) :
      WellFormed (.inline located)

structure SelectionsWellFormed (selections : List Selection) : Prop where
  filled : selections ≠ []
  each : ∀ selection ∈ selections, selection.WellFormed

structure VariableDefinition.WellFormed (definition : VariableDefinition) : Prop where
  type : definition.type.node.Writable
  default : ∀ literal ∈ definition.default, literal.node.WellFormed true

structure VariablesWellFormed (definitions : Option (Located (List VariableDefinition))) :
    Prop where
  filled : ∀ list ∈ definitions, list.node ≠ []
  keyed : ∀ list ∈ definitions, Keyed VariableDefinition.name list.node
  each : ∀ list ∈ definitions, ∀ definition ∈ list.node, definition.WellFormed

structure Operation.WellFormed (operation : Operation) : Prop where
  name : ∀ name ∈ operation.name, name.Valid
  definitions : VariablesWellFormed operation.variableDefinitions
  directives : operation.directives.WellFormed
  selections : SelectionsWellFormed operation.selections

structure Fragment.WellFormed (fragment : Fragment) : Prop where
  name : fragment.name.Valid
  named : fragment.name.node ≠ "on"
  typeCondition : fragment.typeCondition.Valid
  directives : fragment.directives.WellFormed
  selections : SelectionsWellFormed fragment.selections

structure InputDefinition.WellFormed (input : InputDefinition) : Prop where
  type : input.type.node.Writable
  default : ∀ literal ∈ input.default, literal.node.WellFormed true

/-- The name of an argument or input field that is declared. -/
abbrev inputKey (input : Located InputDefinition) : Located String := input.node.name

abbrev fieldKey (field : Located FieldDefinition) : Located String := field.node.name

abbrev enumKey (value : Located EnumValueDefinition) : Located String := value.node.name

structure InputsWellFormed (inputs : List (Located InputDefinition)) : Prop where
  keyed : Keyed inputKey inputs
  each : ∀ input ∈ inputs, input.node.WellFormed

structure FieldDefinition.WellFormed (field : FieldDefinition) : Prop where
  arguments : InputsWellFormed field.arguments
  type : field.type.node.Writable

structure FieldsWellFormed (fields : List (Located FieldDefinition)) : Prop where
  filled : fields ≠ []
  keyed : Keyed fieldKey fields
  each : ∀ field ∈ fields, field.node.WellFormed

structure ObjectType.WellFormed (object : ObjectType) : Prop where
  name : object.name.Valid
  interfaces : ∀ name ∈ object.interfaces, name.Valid
  fields : FieldsWellFormed object.fields

structure EnumType.WellFormed (enum : EnumType) : Prop where
  name : enum.name.Valid
  filled : enum.values ≠ []
  keyed : Keyed enumKey enum.values
  allowed : ∀ value ∈ enum.values, IsEnumName value.node.name.node

inductive TypeDefinition.WellFormed : TypeDefinition → Prop where
  | scalar {definition} (name : definition.name.Valid) : WellFormed (.scalar definition)
  | object {definition} (each : definition.WellFormed) : WellFormed (.object definition)
  | interface {definition} (name : definition.name.Valid)
      (fields : FieldsWellFormed definition.fields) : WellFormed (.interface definition)
  | union {definition} (name : definition.name.Valid) (filled : definition.members ≠ [])
      (members : ∀ member ∈ definition.members, member.Valid) : WellFormed (.union definition)
  | enum {definition} (each : definition.WellFormed) : WellFormed (.enum definition)
  | inputObject {definition} (name : definition.name.Valid) (filled : definition.fields ≠ [])
      (fields : InputsWellFormed definition.fields) : WellFormed (.inputObject definition)

def Definition.WellFormed : Definition → Prop
  | .operation located => located.node.WellFormed
  | .fragment located => located.node.WellFormed
  | .type located => located.node.WellFormed
  | .extension located => located.node.WellFormed

structure Document.WellFormed (document : Document) : Prop where
  filled : document.definitions ≠ []
  each : ∀ definition ∈ document.definitions, definition.WellFormed

/-! Lists of names that must differ. -/

/-- The names in a list, and what they name. -/
abbrev NameList := NameKind × List (Located String)

/-- A list stands somewhere in a literal. -/
inductive Literal.Lists : Literal → NameList → Prop where
  | object {fields} : Lists (.object fields) (.inputField, fields.map (·.1))
  | item {items item list} (member : item ∈ items) (inside : Lists item.node list) :
      Lists (.list items) list
  | field {fields field list} (member : field ∈ fields) (inside : Lists field.2.node list) :
      Lists (.object fields) list

/-- A list stands in the default of something, if there is one. -/
def DefaultLists (default : Option (Located Literal)) (list : NameList) : Prop :=
  ∃ literal ∈ default, literal.node.Lists list

inductive ArgumentsList : Option (Located (List Argument)) → NameList → Prop where
  | names {arguments} : ArgumentsList (some arguments) (.argument, arguments.node.map (·.name))
  | value {arguments argument list} (member : argument ∈ arguments.node)
      (inside : argument.value.node.Lists list) : ArgumentsList (some arguments) list

def Directives.Lists (directives : Directives) (list : NameList) : Prop :=
  ∃ directive ∈ directives.getD [], ArgumentsList directive.node.arguments list

inductive Selection.Lists : Selection → NameList → Prop where
  | arguments {located : Located Field} {list}
      (inside : ArgumentsList located.node.arguments list) :
      Lists (.field located) list
  | field {located : Located Field} {list} (inside : located.node.directives.Lists list) :
      Lists (.field located) list
  | selected {located : Located Field} {selections selection list}
      (set : located.node.selections = some selections) (member : selection ∈ selections)
      (inside : Lists selection list) : Lists (.field located) list
  | spread {located : Located FragmentSpread} {list}
      (inside : located.node.directives.Lists list) : Lists (.spread located) list
  | inline {located : Located InlineFragment} {list}
      (inside : located.node.directives.Lists list) : Lists (.inline located) list
  | inlined {located : Located InlineFragment} {selection list}
      (member : selection ∈ located.node.selections) (inside : Lists selection list) :
      Lists (.inline located) list

def SelectionsList (selections : List Selection) (list : NameList) : Prop :=
  ∃ selection ∈ selections, selection.Lists list

inductive VariablesList : Option (Located (List VariableDefinition)) → NameList → Prop where
  | names {definitions} :
      VariablesList (some definitions) (.variable, definitions.node.map (·.name))
  | default {definitions definition list} (member : definition ∈ definitions.node)
      (inside : DefaultLists definition.default list) : VariablesList (some definitions) list

inductive Operation.Lists : Operation → NameList → Prop where
  | definitions {operation list} (inside : VariablesList operation.variableDefinitions list) :
      Lists operation list
  | directives {operation list} (inside : operation.directives.Lists list) : Lists operation list
  | selections {operation list} (inside : SelectionsList operation.selections list) :
      Lists operation list

inductive Fragment.Lists : Fragment → NameList → Prop where
  | directives {fragment list} (inside : fragment.directives.Lists list) : Lists fragment list
  | selections {fragment list} (inside : SelectionsList fragment.selections list) :
      Lists fragment list

inductive InputsList (kind : NameKind) : List (Located InputDefinition) → NameList → Prop where
  | names {inputs} (filled : inputs ≠ []) : InputsList kind inputs (kind, inputs.map inputKey)
  | default {inputs input list} (member : input ∈ inputs)
      (inside : DefaultLists input.node.default list) : InputsList kind inputs list

inductive FieldsList : List (Located FieldDefinition) → NameList → Prop where
  | names {fields} : FieldsList fields (.field, fields.map fieldKey)
  | arguments {fields field list} (member : field ∈ fields)
      (inside : InputsList .argument field.node.arguments list) : FieldsList fields list

inductive TypeDefinition.Lists : TypeDefinition → NameList → Prop where
  | object {definition list} (inside : FieldsList definition.fields list) :
      Lists (.object definition) list
  | interface {definition list} (inside : FieldsList definition.fields list) :
      Lists (.interface definition) list
  | enum {definition} : Lists (.enum definition) (.enumValue, definition.values.map enumKey)
  | inputObject {definition list} (inside : InputsList .inputField definition.fields list) :
      Lists (.inputObject definition) list

def Definition.Lists : Definition → NameList → Prop
  | .operation located => located.node.Lists
  | .fragment located => located.node.Lists
  | .type located => located.node.Lists
  | .extension located => FieldsList located.node.fields

/-- A list stands somewhere in a document. -/
def Document.Lists (document : Document) (list : NameList) : Prop :=
  ∃ definition ∈ document.definitions, definition.Lists list

end GraphQL
