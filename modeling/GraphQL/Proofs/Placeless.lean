import GraphQL.Document

/-!
Definitions without their places.

Two definitions that differ in nothing but where their parts were written are the same without their
places. Names, types and values stay as they are; whatever is located is put at no place at all.
-/

namespace GraphQL

variable {α β : Type}

def Located.placeless (change : α → β) (located : Located α) : Located β :=
  .unplaced (change located.node)

theorem Located.placeless_eq {change : α → β} {located other : Located α}
    (same : change located.node = change other.node) :
    located.placeless change = other.placeless change := congrArg Located.unplaced same

theorem placeless_list {change : α → β} {list others : List (Located α)}
    (same : list.map (fun item => change item.node) = others.map fun item => change item.node) :
    list.map (Located.placeless change) = others.map (Located.placeless change) := by
  have step (items : List (Located α)) : items.map (Located.placeless change) =
      (items.map fun item => change item.node).map .unplaced := by
    rw [List.map_map]
    rfl
  rw [step, same, ← step]

/-- A name without its place. -/
abbrev Located.bareName (name : Located String) : Located String := name.placeless id

mutual

def Literal.placeless : Literal → Literal
  | .list items => .list (placelessItems items)
  | .object fields => .object (placelessFields fields)
  | literal => literal

def placelessItems : List (Located Literal) → List (Located Literal)
  | [] => []
  | ⟨item, _⟩ :: rest => .unplaced item.placeless :: placelessItems rest

def placelessFields :
    List (Located String × Located Literal) → List (Located String × Located Literal)
  | [] => []
  | (name, ⟨value, _⟩) :: rest =>
      (name.bareName, .unplaced value.placeless) :: placelessFields rest

end

theorem placeless_items (items : List (Located Literal)) :
    placelessItems items = items.map (Located.placeless Literal.placeless) := by
  induction items with
  | nil => rw [placelessItems, List.map_nil]
  | cons item rest ih => rw [placelessItems, ih, List.map_cons]; rfl

theorem placeless_fields (fields : List (Located String × Located Literal)) :
    placelessFields fields =
      fields.map fun field => (field.1.bareName, field.2.placeless Literal.placeless) := by
  induction fields with
  | nil => rw [placelessFields, List.map_nil]
  | cons field rest ih => rw [placelessFields, ih, List.map_cons]; rfl

def Argument.placeless (argument : Argument) : Argument :=
  ⟨argument.name.bareName, argument.value.placeless Literal.placeless⟩

/-- Arguments in parentheses without their places. -/
def placelessArguments (arguments : Option (Located (List Argument))) :
    Option (Located (List Argument)) :=
  arguments.map (Located.placeless (List.map Argument.placeless))

def Directive.placeless (directive : Directive) : Directive :=
  ⟨directive.name.bareName, placelessArguments directive.arguments⟩

def Directives.placeless (directives : Directives) : Directives :=
  directives.map (List.map (Located.placeless Directive.placeless))

mutual

def Selection.placeless : Selection → Selection
  | .field ⟨⟨aliasName, name, arguments, directives, none⟩, _⟩ =>
      .field (.unplaced ⟨aliasName.map Located.bareName, name.bareName,
        placelessArguments arguments, directives.placeless, none⟩)
  | .field ⟨⟨aliasName, name, arguments, directives, some selections⟩, _⟩ =>
      .field (.unplaced ⟨aliasName.map Located.bareName, name.bareName,
        placelessArguments arguments, directives.placeless,
        some (placelessSelections selections)⟩)
  | .spread ⟨⟨name, directives⟩, _⟩ =>
      .spread (.unplaced ⟨name.bareName, directives.placeless⟩)
  | .inline ⟨⟨condition, directives, selections⟩, _⟩ =>
      .inline (.unplaced ⟨condition.map Located.bareName, directives.placeless,
        placelessSelections selections⟩)

def placelessSelections : List Selection → List Selection
  | [] => []
  | selection :: rest => selection.placeless :: placelessSelections rest

end

theorem placeless_selections (selections : List Selection) :
    placelessSelections selections = selections.map Selection.placeless := by
  induction selections with
  | nil => rw [placelessSelections, List.map_nil]
  | cons selection rest ih => rw [placelessSelections, ih, List.map_cons]

def VariableDefinition.placeless (definition : VariableDefinition) : VariableDefinition :=
  ⟨definition.name.bareName, definition.type.placeless id,
    definition.default.map (Located.placeless Literal.placeless)⟩

def Operation.placeless (operation : Operation) : Operation where
  kind := operation.kind
  name := operation.name.map Located.bareName
  variableDefinitions :=
    operation.variableDefinitions.map (Located.placeless (List.map VariableDefinition.placeless))
  directives := operation.directives.placeless
  selections := placelessSelections operation.selections

def Fragment.placeless (fragment : Fragment) : Fragment where
  name := fragment.name.bareName
  typeCondition := fragment.typeCondition.bareName
  directives := fragment.directives.placeless
  selections := placelessSelections fragment.selections

def InputDefinition.placeless (input : InputDefinition) : InputDefinition :=
  { input with
    name := input.name.bareName
    type := input.type.placeless id
    default := input.default.map (Located.placeless Literal.placeless) }

def FieldDefinition.placeless (field : FieldDefinition) : FieldDefinition :=
  { field with
    name := field.name.bareName
    arguments := field.arguments.map (Located.placeless InputDefinition.placeless)
    type := field.type.placeless id }

def EnumValueDefinition.placeless (value : EnumValueDefinition) : EnumValueDefinition :=
  { value with name := value.name.bareName }

def ObjectType.placeless (object : ObjectType) : ObjectType :=
  { object with
    name := object.name.bareName
    interfaces := object.interfaces.map Located.bareName
    fields := object.fields.map (Located.placeless FieldDefinition.placeless) }

def InterfaceType.placeless (interface : InterfaceType) : InterfaceType :=
  { interface with
    name := interface.name.bareName
    fields := interface.fields.map (Located.placeless FieldDefinition.placeless) }

def UnionType.placeless (union : UnionType) : UnionType :=
  { union with
    name := union.name.bareName
    members := union.members.map Located.bareName }

def ScalarType.placeless (scalar : ScalarType) : ScalarType :=
  { scalar with name := scalar.name.bareName }

def EnumType.placeless (enum : EnumType) : EnumType :=
  { enum with
    name := enum.name.bareName
    values := enum.values.map (Located.placeless EnumValueDefinition.placeless) }

def InputObjectType.placeless (input : InputObjectType) : InputObjectType :=
  { input with
    name := input.name.bareName
    fields := input.fields.map (Located.placeless InputDefinition.placeless) }

def TypeDefinition.placeless : TypeDefinition → TypeDefinition
  | .scalar definition => .scalar definition.placeless
  | .object definition => .object definition.placeless
  | .interface definition => .interface definition.placeless
  | .union definition => .union definition.placeless
  | .enum definition => .enum definition.placeless
  | .inputObject definition => .inputObject definition.placeless

def Definition.placeless : Definition → Definition
  | .operation located => .operation (located.placeless Operation.placeless)
  | .fragment located => .fragment (located.placeless Fragment.placeless)
  | .type located => .type (located.placeless TypeDefinition.placeless)
  | .extension located => .extension (located.placeless ObjectType.placeless)

end GraphQL
