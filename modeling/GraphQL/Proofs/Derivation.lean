import GraphQL.Proofs.Action

/-!
Execution as a relation between journals.

Every run that finishes is a derivation from the rules below, one rule for each way in which a step
may end. What holds of all derivations therefore holds of all runs, whatever depth they were given,
and is proved by induction on the derivation rather than on the functions.
-/

namespace GraphQL

variable {σ : Type}

/-- The journal after an action of the application. -/
def Journal.resume (journal : Journal σ) (context : σ) : Journal σ :=
  { journal with context := context }

/-- The name of an enum value as a string, null where the value names none. -/
def enumText (value : Value) : Value :=
  match value.toEnumName? with
  | some text => .string text
  | none => .null

/-- A value that is there is completed at a type without executing anything below it. -/
inductive Settles (executor : Executor σ) (field : FieldScope) :
    TypeRef → Value → Journal σ → Value → Journal σ → Prop where
  | builtin {name definition scalar value journal}
      (declared : executor.schema.type? name = some (.scalar definition))
      (named : BuiltinScalar.ofName? name = some scalar) :
      Settles executor field (.named name) value journal ((scalar.coerce value).getD .null) journal
  | plain {name definition value journal}
      (declared : executor.schema.type? name = some (.scalar definition))
      (custom : BuiltinScalar.ofName? name = none) (unhooked : executor.scalar? name = none) :
      Settles executor field (.named name) value journal value journal
  | written {name definition hooks value result context} {journal : Journal σ}
      (declared : executor.schema.type? name = some (.scalar definition))
      (custom : BuiltinScalar.ofName? name = none) (hooked : executor.scalar? name = some hooks)
      (ran : hooks.serialize value journal.context = some (.ok result, context)) :
      Settles executor field (.named name) value journal result (journal.resume context)
  | unwritten {name definition hooks value error context} {journal : Journal σ}
      (declared : executor.schema.type? name = some (.scalar definition))
      (custom : BuiltinScalar.ofName? name = none) (hooked : executor.scalar? name = some hooks)
      (ran : hooks.serialize value journal.context = some (.error error, context)) :
      Settles executor field (.named name) value journal .null
        ((journal.resume context).note field.path error)
  | enum {name definition value journal}
      (declared : executor.schema.type? name = some (.enum definition)) :
      Settles executor field (.named name) value journal (enumText value) journal
  | notAList {element value journal} (mismatch : value.asList? = none) :
      Settles executor field (.list element) value journal .null
        (journal.note field.path (.ofMessage CompletionError.notAList.message))
  | undetermined {name definition value journal}
      (found : executor.schema.type? name = some definition)
      (abstract : definition.isAbstract = true)
      (unnamed : (executor.resolveType value).filter (· ≠ "") = none) :
      Settles executor field (.named name) value journal .null
        (journal.note field.path (.ofMessage CompletionError.undeterminedType.message))
  | impossible {name definition objectName kind value journal}
      (found : executor.schema.type? name = some definition)
      (abstract : definition.isAbstract = true)
      (chosen : executor.resolveType value = some objectName)
      (foreign : objectName ∉ executor.schema.possibleTypes definition.name ∨
        executor.schema.document.object? objectName = none) :
      Settles executor field (.named name) value journal .null
        (journal.note field.path
          (.ofMessage (CompletionError.impossibleType objectName kind definition.name).message))
  | notAnOutputType {name definition value journal}
      (declared : executor.schema.type? name = some (.inputObject definition)) :
      Settles executor field (.named name) value journal .null
        (journal.note field.path (.ofMessage (CompletionError.notAnOutputType name).message))
  | unknownType {name value journal} (undeclared : executor.schema.type? name = none) :
      Settles executor field (.named name) value journal .null
        (journal.note field.path (.ofMessage (CompletionError.unknownType name).message))

/-- The object type at which a value of a named type is executed. -/
inductive ObjectFor (executor : Executor σ) (value : Value) : String → ObjectType → Prop where
  | declared {name object} (found : executor.schema.type? name = some (.object object)) :
      ObjectFor executor value name object
  | possible {name definition objectName object}
      (found : executor.schema.type? name = some definition)
      (abstract : definition.isAbstract = true)
      (chosen : executor.resolveType value = some objectName)
      (member : objectName ∈ executor.schema.possibleTypes definition.name)
      (object_found : executor.schema.document.object? objectName = some object) :
      ObjectFor executor value name object

/-- The field that a group is executed as. -/
def FieldGroup.scope (group : FieldGroup) (object : ObjectType) (path : FieldPath) :
    FieldScope where
  typeName := object.name.node
  fieldName := group.first.node.name.node
  path := ⟨path.keys ++ [group.key], group.first.node.name.span.start⟩
  selectionSets := group.selectionSets

/-- The value of a field before completion; null where its resolver fails. -/
inductive Resolves (executor : Executor σ) (scope : RequestScope) (object : ObjectType)
    (source : Value) (path : FieldPath) (group : FieldGroup) (definition : FieldDefinition) :
    Journal σ → Value → Journal σ → Prop where
  | returned {depth value context} {journal : Journal σ}
      (ran : executor.resolveValue scope (executor.execute depth) object source group.first
        definition journal.context = some (.ok value, context)) :
      Resolves executor scope object source path group definition journal value
        (journal.resume context)
  | failed {depth error context} {journal : Journal σ}
      (ran : executor.resolveValue scope (executor.execute depth) object source group.first
        definition journal.context = some (.error error, context)) :
      Resolves executor scope object source path group definition journal .null
        ((journal.resume context).note (group.scope object path).path error)

/-- What is carried out in the course of an execution. -/
inductive Work where
  | complete (field : FieldScope) (type : TypeRef) (value : Value)
  | bare (field : FieldScope) (type : TypeRef) (value : Value)
  | items (field : FieldScope) (element : TypeRef) (values : List Value)
  | groups (object : ObjectType) (source : Value) (path : FieldPath) (groups : List FieldGroup)

/-- The groups that are executed on an object type below a field. -/
def Executor.groupsBelow (executor : Executor σ) (scope : RequestScope) (object : ObjectType)
    (selectionSets : List (List Selection)) : List FieldGroup :=
  collectFields executor.schema scope object.name.node selectionSets

/-- How work takes one journal to another. Items end in a list and groups in an object. -/
inductive Runs (executor : Executor σ) (scope : RequestScope) :
    Work → Journal σ → Except Bubble Value → Journal σ → Prop where
  | nullable {field type value journal result later} (optional : type.isNonNull = false)
      (inner : Runs executor scope (.bare field type value) journal (.ok result) later) :
      Runs executor scope (.complete field type value) journal (.ok result) later
  | absorbed {field type value journal later} (optional : type.isNonNull = false)
      (inner : Runs executor scope (.bare field type value) journal (.error .bubble) later) :
      Runs executor scope (.complete field type value) journal (.ok .null) later
  | present {field type value journal result later} (nonNull : result.isNull = false)
      (inner : Runs executor scope (.bare field type value) journal (.ok result) later) :
      Runs executor scope (.complete field (.nonNull type) value) journal (.ok result) later
  | violated {field type value journal later}
      (inner : Runs executor scope (.bare field type value) journal (.ok .null) later) :
      Runs executor scope (.complete field (.nonNull type) value) journal (.error .bubble)
        (later.note field.path
          (.ofMessage (CompletionError.nullForNonNull field.typeName field.fieldName).message))
  | passed {field type value journal later}
      (inner : Runs executor scope (.bare field type value) journal (.error .bubble) later) :
      Runs executor scope (.complete field (.nonNull type) value) journal (.error .bubble) later
  | absent {field type value journal} (nullish : executor.isNullish value = true) :
      Runs executor scope (.bare field type value) journal (.ok .null) journal
  | settled {field type value journal result later} (present : executor.isNullish value = false)
      (settles : Settles executor field type value journal result later) :
      Runs executor scope (.bare field type value) journal (.ok result) later
  | nested {field type value journal result later} (present : executor.isNullish value = false)
      (inner : Runs executor scope (.complete field (.nonNull type) value) journal result later) :
      Runs executor scope (.bare field (.nonNull type) value) journal result later
  | list {field element values journal result later}
      (present : executor.isNullish (.list values) = false)
      (inner : Runs executor scope (.items field element values) journal result later) :
      Runs executor scope (.bare field (.list element) (.list values)) journal result later
  | object {field name value object journal result later}
      (present : executor.isNullish value = false)
      (executed : ObjectFor executor value name object)
      (inner : Runs executor scope (.groups object value field.path
        (executor.groupsBelow scope object field.selectionSets)) journal result later) :
      Runs executor scope (.bare field (.named name) value) journal result later
  | noItems {field element journal} :
      Runs executor scope (.items field element []) journal (.ok (.list [])) journal
  | item {field element value values journal first middle others later}
      (head : Runs executor scope (.complete field element value) journal (.ok first) middle)
      (tail : Runs executor scope (.items field element values) middle (.ok (.list others)) later) :
      Runs executor scope (.items field element (value :: values)) journal
        (.ok (.list (first :: others))) later
  | itemBubbled {field element value values journal later}
      (head : Runs executor scope (.complete field element value) journal (.error .bubble) later) :
      Runs executor scope (.items field element (value :: values)) journal (.error .bubble) later
  | itemsBubbled {field element value values journal first middle later}
      (head : Runs executor scope (.complete field element value) journal (.ok first) middle)
      (tail : Runs executor scope (.items field element values) middle (.error .bubble) later) :
      Runs executor scope (.items field element (value :: values)) journal (.error .bubble) later
  | noGroups {object source path journal} :
      Runs executor scope (.groups object source path []) journal (.ok (.object [])) journal
  | undefinedField {object source path group groups journal result later}
      (unknown : object.selectable? group.first.node.name.node = none)
      (tail : Runs executor scope (.groups object source path groups) journal result later) :
      Runs executor scope (.groups object source path (group :: groups)) journal result later
  | field {object source path group groups definition value journal resolved first middle others
        later}
      (known : object.selectable? group.first.node.name.node = some definition)
      (resolves : Resolves executor scope object source path group definition journal value
        resolved)
      (head : Runs executor scope (.complete (group.scope object path) definition.type.node value)
        resolved (.ok first) middle)
      (tail : Runs executor scope (.groups object source path groups) middle
        (.ok (.object others)) later) :
      Runs executor scope (.groups object source path (group :: groups)) journal
        (.ok (.object ((group.key, first) :: others))) later
  | fieldBubbled {object source path group groups definition value journal resolved later}
      (known : object.selectable? group.first.node.name.node = some definition)
      (resolves : Resolves executor scope object source path group definition journal value
        resolved)
      (head : Runs executor scope (.complete (group.scope object path) definition.type.node value)
        resolved (.error .bubble) later) :
      Runs executor scope (.groups object source path (group :: groups)) journal
        (.error .bubble) later
  | fieldsBubbled {object source path group groups definition value journal resolved first middle
        later}
      (known : object.selectable? group.first.node.name.node = some definition)
      (resolves : Resolves executor scope object source path group definition journal value
        resolved)
      (head : Runs executor scope (.complete (group.scope object path) definition.type.node value)
        resolved (.ok first) middle)
      (tail : Runs executor scope (.groups object source path groups) middle
        (.error .bubble) later) :
      Runs executor scope (.groups object source path (group :: groups)) journal
        (.error .bubble) later

/-- Whether the first field of a group is defined on an object type. -/
def FieldGroup.definedOn (group : FieldGroup) (object : ObjectType) : Bool :=
  (object.selectable? group.first.node.name.node).isSome

/-- Groups end in an object that has a key for every group that is defined, or they bubble. -/
theorem Runs.groups_object {executor : Executor σ} {scope : RequestScope} {object : ObjectType}
    {source value : Value} {path : FieldPath} {groups : List FieldGroup}
    {journal later : Journal σ}
    (runs : Runs executor scope (.groups object source path groups) journal (.ok value) later) :
    ∃ fields, value = .object fields ∧
      Object.keys fields = (groups.filter (·.definedOn object)).map (·.key) := by
  generalize named : Work.groups object source path groups = work at runs
  generalize ended : Except.ok value = result at runs
  induction runs generalizing groups value with
  | noGroups =>
      cases named
      cases ended
      exact ⟨[], rfl, rfl⟩
  | undefinedField unknown _ ih =>
      cases named
      obtain ⟨fields, same, keys⟩ := ih rfl ended
      refine ⟨fields, same, ?_⟩
      rw [keys]
      simp [FieldGroup.definedOn, unknown]
  | field known _ _ _ _ ih =>
      cases named
      cases ended
      obtain ⟨fields, same, keys⟩ := ih rfl rfl
      cases same
      refine ⟨_, rfl, ?_⟩
      rw [Object.keys] at keys ⊢
      rw [List.map_cons, keys]
      simp [FieldGroup.definedOn, known]
  | fieldBubbled => cases ended
  | fieldsBubbled => cases ended
  | _ => cases named

/-! A kennel in which one of two dogs has no name, where later theorems are shown at work. -/

def kennelType (name : String) (fields : List (String × TypeRef)) : ObjectType where
  name := .unplaced name
  description := none
  interfaces := []
  fields := fields.map fun field => .unplaced
    { name := .unplaced field.1
      description := none
      arguments := []
      type := .unplaced field.2
      deprecation := .current }

def kennelRoot : ObjectType :=
  kennelType "Kennel"
    [("name", .nonNull (.named "String")), ("dogs", .list (.nonNull (.named "Dog")))]

def kennel : Executor Unit where
  schema :=
    { document :=
        { definitions :=
            [.type (.unplaced (.object kennelRoot)),
              .type (.unplaced (.object (kennelType "Dog" [("name", .nonNull (.named "String"))]))),
              .type (.unplaced (.scalar ⟨.unplaced "String", none⟩))]
          span := .unplaced }
      queryName := "Kennel"
      mutationName := none }
  resolvers :=
    [⟨"Kennel", "name", .ofFunction fun _ => .string "Elm"⟩,
      ⟨"Kennel", "dogs", .ofFunction fun _ =>
        .list [.object [("name", .string "Rex")], .object []]⟩]
  scalars := []
  resolveType := typenameField
  isNullish := Value.isNull
  renderError := fun error _ => error.render

def kennelField (name : String) (below : Option (List Selection)) : Selection :=
  .field (.unplaced ⟨none, .unplaced name, none, none, below⟩)

def kennelSpread (name : String) : Selection := .spread (.unplaced ⟨.unplaced name, none⟩)

def kennelFragment (name typeName : String) (selections : List Selection) : Definition :=
  .fragment (.unplaced ⟨.unplaced name, .unplaced typeName, none, selections⟩)

/-- A request for the names of the kennel and of its dogs. -/
def kennelTour : Located Operation := .unplaced
  { kind := .query
    name := none
    variableDefinitions := none
    directives := none
    selections := [kennelField "name" none, kennelField "dogs" (some [kennelField "name" none])] }

def kennelDocument : Document where
  definitions := [.operation kennelTour]
  span := .unplaced

end GraphQL
