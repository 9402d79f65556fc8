import GraphQL.Proofs.Collection
import GraphQL.Proofs.ResponseShape

/-!
Responses conform to the schema.

A completed value is compared with the value that was resolved for it: lists keep their length and
order, built-in scalars have the variant of their name, enums are strings, and an object answers
exactly the groups that were collected for a type it may have. None of this depends on what the
callbacks of the application return.
-/

namespace GraphQL

variable {σ : Type}

/-- The variants in which the values of a built-in scalar are written. -/
inductive BuiltinScalar.Written : BuiltinScalar → Value → Prop where
  | int (value : Int32) : Written .int (.int value)
  | float (value : Single) : Written .float (.float value)
  | string (text : String) : Written .string (.string text)
  | id (text : String) : Written .id (.string text)
  | boolean (value : Bool) : Written .boolean (.bool value)

theorem BuiltinScalar.coerce_written {scalar : BuiltinScalar} {value written : Value}
    (coerced : scalar.coerce value = some written) : scalar.Written written := by
  cases scalar <;> obtain ⟨fitting, -, rfl⟩ := Option.map_eq_some_iff.mp coerced <;> constructor

/-- The fields of an object are those asked of its type that are defined, as they are first met. -/
structure AnswersInOrder (executor : Executor σ) (scope : RequestScope) (object : ObjectType)
    (selectionSets : List (List Selection)) (fields : Object) : Prop where
  keys : Object.keys fields =
    ((executor.groupsBelow scope object selectionSets).filter (·.definedOn object)).map (·.key)
  distinct : (Object.keys fields).Nodup
  ordered : (executor.groupsBelow scope object selectionSets).map (·.key) =
    appendNew [] ((fieldsAsked executor.schema scope object.name.node selectionSets).map
      (·.node.responseKey))

/-- A value that the first field of a group may be resolved to. -/
def MayResolveTo (executor : Executor σ) (scope : RequestScope) (object : ObjectType)
    (source : Value) (group : FieldGroup) (definition : FieldDefinition) (value : Value) : Prop :=
  ∃ path journal later,
    Resolves executor scope object source path group definition journal value later

mutual

/-- A value is what a resolved value may become at a type, with selections below it. -/
inductive Conforms (executor : Executor σ) (scope : RequestScope) :
    List (List Selection) → TypeRef → Value → Value → Prop where
  | null {selectionSets type resolved} (optional : type.isNonNull = false) :
      Conforms executor scope selectionSets type resolved .null
  | nonNull {selectionSets type resolved value} (present : value.isNull = false)
      (inner : Conforms executor scope selectionSets type resolved value) :
      Conforms executor scope selectionSets (.nonNull type) resolved value
  | list {selectionSets element resolved values}
      (each : ConformsItems executor scope selectionSets element resolved values) :
      Conforms executor scope selectionSets (.list element) (.list resolved) (.list values)
  | builtin {selectionSets name definition scalar resolved value}
      (declared : executor.schema.type? name = some (.scalar definition))
      (named : BuiltinScalar.ofName? name = some scalar)
      (coerced : scalar.coerce resolved = some value) (written : scalar.Written value) :
      Conforms executor scope selectionSets (.named name) resolved value
  | custom {selectionSets name definition resolved value}
      (declared : executor.schema.type? name = some (.scalar definition))
      (unnamed : BuiltinScalar.ofName? name = none) :
      Conforms executor scope selectionSets (.named name) resolved value
  | enum {selectionSets name definition resolved text}
      (declared : executor.schema.type? name = some (.enum definition))
      (chosen : resolved.toEnumName? = some text) :
      Conforms executor scope selectionSets (.named name) resolved (.string text)
  | object {selectionSets name object resolved fields}
      (executed : ObjectFor executor resolved name object)
      (content : ConformsObject executor scope object resolved selectionSets fields) :
      Conforms executor scope selectionSets (.named name) resolved (.object fields)

/-- Values conform to an element type one by one. -/
inductive ConformsItems (executor : Executor σ) (scope : RequestScope) :
    List (List Selection) → TypeRef → List Value → List Value → Prop where
  | nil {selectionSets element} : ConformsItems executor scope selectionSets element [] []
  | cons {selectionSets element item items value values}
      (first : Conforms executor scope selectionSets element item value)
      (rest : ConformsItems executor scope selectionSets element items values) :
      ConformsItems executor scope selectionSets element (item :: items) (value :: values)

/-- Fields are what a source may be executed to on an object type, with selections below it. -/
inductive ConformsObject (executor : Executor σ) (scope : RequestScope) :
    ObjectType → Value → List (List Selection) → Object → Prop where
  | intro {object source selectionSets fields}
      (answers : AnswersInOrder executor scope object selectionSets fields)
      (each : ConformsFields executor scope object source
        (executor.groupsBelow scope object selectionSets) fields) :
      ConformsObject executor scope object source selectionSets fields

/-- Fields conform to the types declared for their groups, one by one. -/
inductive ConformsFields (executor : Executor σ) (scope : RequestScope) :
    ObjectType → Value → List FieldGroup → Object → Prop where
  | nil {object source} : ConformsFields executor scope object source [] []
  | undefined {object source group groups fields}
      (unknown : object.selectable? group.first.node.name.node = none)
      (rest : ConformsFields executor scope object source groups fields) :
      ConformsFields executor scope object source (group :: groups) fields
  | cons {object source group groups definition resolved value fields}
      (known : object.selectable? group.first.node.name.node = some definition)
      (resolves : MayResolveTo executor scope object source group definition resolved)
      (first : Conforms executor scope group.selectionSets definition.type.node resolved value)
      (rest : ConformsFields executor scope object source groups fields) :
      ConformsFields executor scope object source (group :: groups) ((group.key, value) :: fields)

end

variable {executor : Executor σ} {scope : RequestScope}

theorem Settles.conforms {field : FieldScope} {type : TypeRef} {value result : Value}
    {journal later : Journal σ} (settles : Settles executor field type value journal result later) :
    Conforms executor scope field.selectionSets type value result := by
  cases settles with
  | @builtin name definition scalar _ _ declared named =>
      cases coerced : scalar.coerce value with
      | none => exact .null rfl
      | some written => exact .builtin declared named coerced (scalar.coerce_written coerced)
  | plain declared custom => exact .custom declared custom
  | written declared custom => exact .custom declared custom
  | unwritten declared custom => exact .custom declared custom
  | enum declared =>
      cases chosen : value.toEnumName? with
      | none => simpa only [enumText, chosen] using .null rfl
      | some text => simpa only [enumText, chosen] using .enum declared chosen
  | notAList => exact .null rfl
  | undetermined => exact .null rfl
  | impossible => exact .null rfl
  | notAnOutputType => exact .null rfl
  | unknownType => exact .null rfl

theorem answers_in_order {object : ObjectType} {selectionSets : List (List Selection)}
    {fields : Object}
    (keys : Object.keys fields =
      ((executor.groupsBelow scope object selectionSets).filter (·.definedOn object)).map (·.key)) :
    AnswersInOrder executor scope object selectionSets fields := by
  have collected : executor.groupsBelow scope object selectionSets =
      grouped (fieldsAsked executor.schema scope object.name.node selectionSets) :=
    collect_fields_grouped executor.schema scope object.name.node selectionSets
  refine ⟨keys, ?_, ?_⟩
  · have kept := (List.filter_sublist (p := (·.definedOn object))
      (l := executor.groupsBelow scope object selectionSets)).map (·.key)
    rw [keys]
    refine kept.nodup ?_
    rw [collected]
    exact grouped_keys_nodup _
  · rw [collected]
    exact grouped_keys _

/-- Once its fields conform one by one, an object that was executed conforms as a whole. -/
theorem object_conforms {object : ObjectType} {source : Value} {path : FieldPath}
    {selectionSets : List (List Selection)} {journal later : Journal σ} {fields : Object}
    (runs : Runs executor scope
      (.groups object source path (executor.groupsBelow scope object selectionSets)) journal
      (.ok (.object fields)) later)
    (each : ConformsFields executor scope object source
      (executor.groupsBelow scope object selectionSets) fields) :
    ConformsObject executor scope object source selectionSets fields := by
  obtain ⟨_, same, keys⟩ := runs.groups_object
  cases same
  exact .intro (answers_in_order keys) each

/-- A value that work leaves behind conforms; before nulls are treated, null fits every type. -/
def Work.Conforms (executor : Executor σ) (scope : RequestScope) :
    Work → Except Bubble Value → Prop
  | _, .error _ => True
  | .complete field type resolved, .ok value =>
      GraphQL.Conforms executor scope field.selectionSets type resolved value
  | .bare field type resolved, .ok value =>
      value.isNull = false →
        GraphQL.Conforms executor scope field.selectionSets type resolved value
  | .items field element resolved, .ok value =>
      ∃ values, value = .list values ∧
        ConformsItems executor scope field.selectionSets element resolved values
  | .groups object source _ below, .ok value =>
      ∃ fields, value = .object fields ∧ ConformsFields executor scope object source below fields

theorem Runs.conforms {work : Work} {journal later : Journal σ} {result : Except Bubble Value}
    (runs : Runs executor scope work journal result later) :
    work.Conforms executor scope result := by
  induction runs with
  | @nullable field type resolved _ value _ optional _ ih =>
      by_cases null : value.isNull = true
      · obtain rfl := Value.eq_null null
        exact .null optional
      · exact ih (by simpa using null)
  | absorbed optional => exact .null optional
  | present nonNull _ ih => exact .nonNull nonNull (ih nonNull)
  | violated => trivial
  | passed => trivial
  | absent =>
      intro impossible
      cases impossible
  | settled _ settles =>
      intro _
      exact settles.conforms
  | @nested _ _ _ _ result _ _ _ ih =>
      cases result with
      | error => trivial
      | ok value =>
          intro _
          exact ih
  | @list _ _ _ _ result _ _ _ ih =>
      cases result with
      | error => trivial
      | ok value =>
          intro _
          obtain ⟨values, rfl, each⟩ := ih
          exact .list each
  | @object _ _ _ _ _ result _ _ executed inner ih =>
      cases result with
      | error => trivial
      | ok value =>
          intro _
          obtain ⟨fields, rfl, each⟩ := ih
          exact .object executed (object_conforms inner each)
  | noItems => exact ⟨[], rfl, .nil⟩
  | item _ _ head tail =>
      obtain ⟨others, same, rest⟩ := tail
      cases same
      exact ⟨_, rfl, .cons head rest⟩
  | itemBubbled => trivial
  | itemsBubbled => trivial
  | noGroups => exact ⟨[], rfl, .nil⟩
  | @undefinedField _ _ _ _ _ _ result _ unknown _ ih =>
      cases result with
      | error => trivial
      | ok value =>
          obtain ⟨fields, same, rest⟩ := ih
          exact ⟨fields, same, .undefined unknown rest⟩
  | field known resolves _ _ head tail =>
      obtain ⟨others, same, rest⟩ := tail
      cases same
      exact ⟨_, rfl, .cons known ⟨_, _, _, resolves⟩ head rest⟩
  | fieldBubbled => trivial
  | fieldsBubbled => trivial

namespace Executor

/-- Every object that is executed conforms to its type. -/
theorem run_within_conforms {depth : Nat} {object : ObjectType} {source : Value} {path : FieldPath}
    {selectionSets : List (List Selection)} {journal later : Journal σ} {fields : Object}
    (finished : executor.runWithin depth scope object source path selectionSets journal =
      some (.ok fields, later)) :
    ConformsObject executor scope object source selectionSets fields := by
  have runs := run_within_runs executor depth scope _ _ _ _ _ _ _ finished
  obtain ⟨_, same, each⟩ := runs.conforms
  cases same
  exact object_conforms runs each

/-- The data of an operation is null or the object that its root type makes of no source at all. -/
def DataConforms (executor : Executor σ) (document : Document) (operation : Located Operation)
    (root : ObjectType) (inputs : Object) (context : σ) (data : Value) : Prop :=
  ∃ variableValues coerced,
    executor.coerceVariables inputs (operationPlace operation)
      ((operation.node.variableDefinitions.map (·.node)).getD []) ⟨context, []⟩ =
        some (.ok variableValues, coerced) ∧
    (data = .null ∨ ∃ fields, data = .object fields ∧
      ConformsObject executor ⟨document, variableValues⟩ root (.object [])
        [operation.node.selections] fields)

theorem execute_operation_conforms {depth : Nat} {document : Document}
    {operation : Located Operation} {root : ObjectType} {inputs : Object} {context : σ}
    {journal : Journal σ} {data : Value}
    (finished : executor.executeOperation (executor.runWithin depth) document operation root inputs
      ⟨context, []⟩ = some (.ok data, journal)) :
    executor.DataConforms document operation root inputs context data := by
  rw [executeOperation] at finished
  rcases Action.bind_finished finished with ⟨values, middle, ran, rest⟩ | ⟨_, impossible, -⟩
  · refine ⟨values, middle, ran, ?_⟩
    obtain ⟨outcome, same, runs⟩ := root_data_runs rest
    cases same
    cases outcome with
    | error rising =>
        cases rising
        exact .inl rfl
    | ok value =>
        obtain ⟨fields, rfl, each⟩ := runs.conforms
        exact .inr ⟨fields, rfl, object_conforms runs each⟩
  · cases impossible

/-- There is one message where no operation has a root to be executed on, and data elsewhere. -/
inductive ResponseConforms (executor : Executor σ) (request : Request) (context : σ) :
    Value → Prop where
  | message (text : String)
      (unexecuted : ∀ document operation, Document.ofSource request.source = .ok document →
        document.Chooses request.operationName operation →
          executor.rootType? operation.node.kind = none) :
      ResponseConforms executor request context (messageAlone text)
  | data {document operation root data} (rendered : List Value)
      (read : Document.ofSource request.source = .ok document)
      (chosen : document.Chooses request.operationName operation)
      (rooted : executor.rootType? operation.node.kind = some root)
      (conforms : executor.DataConforms document operation root request.variableValues context
        data) :
      ResponseConforms executor request context (dataFirst data rendered)

theorem execute_conforms {depth : Nat} {request : Request} {context later : σ} {response : Value}
    (finished : executor.execute depth request context = some (.ok response, later)) :
    executor.ResponseConforms request context response := by
  cases execute_answers finished with
  | message text unexecuted => exact .message text unexecuted
  | data read chosen rooted ran =>
      exact .data _ read chosen rooted (execute_operation_conforms ran)

end Executor

/--
Every object that is executed conforms to its type, at whatever depth and whether or not it becomes
part of the response; and so does every response.
-/
theorem responses_conform_to_schema (executor : Executor σ) (depth : Nat) :
    (∀ scope object source path selectionSets journal fields later,
      executor.runWithin depth scope object source path selectionSets journal =
        some (.ok fields, later) →
          ConformsObject executor scope object source selectionSets fields) ∧
    ∀ request context response later,
      executor.execute depth request context = some (.ok response, later) →
        executor.ResponseConforms request context response := by
  constructor
  · intro scope object source path selectionSets journal fields later finished
    exact Executor.run_within_conforms finished
  · intro request context response later finished
    exact Executor.execute_conforms finished

/-- A tour of the kennel makes an object that conforms, and so does the response to its text. -/
theorem kennel_tour_conforms :
    (∃ later, kennel.runWithin 2 ⟨kennelDocument, []⟩ kennelRoot (.object []) ⟨[], .origin⟩
        [kennelTour.node.selections] ⟨(), []⟩ =
          some (.ok [("name", .string "Elm"), ("dogs", .null)], later) ∧
      ConformsObject kennel ⟨kennelDocument, []⟩ kennelRoot (.object [])
        [kennelTour.node.selections] [("name", .string "Elm"), ("dogs", .null)]) ∧
    ∃ response later, kennel.execute 2 ⟨"{name dogs{name}}", [], none⟩ () =
        some (.ok response, later) ∧
      kennel.ResponseConforms ⟨"{name dogs{name}}", [], none⟩ () response := by
  refine ⟨⟨_, rfl, (responses_conform_to_schema kennel 2).1 ⟨kennelDocument, []⟩ kennelRoot
    (.object []) ⟨[], .origin⟩ [kennelTour.node.selections] ⟨(), []⟩ _ _ rfl⟩, ?_⟩
  have answered : ((kennel.execute 2 ⟨"{name dogs{name}}", [], none⟩ ()).map
      fun outcome => outcome.1.toOption.isSome) = some true := by decide +kernel
  obtain ⟨⟨result, later⟩, ran, finished⟩ := Option.map_eq_some_iff.mp answered
  cases result with
  | error error => cases finished
  | ok response =>
      exact ⟨response, later, ran, (responses_conform_to_schema kennel 2).2 _ _ _ _ ran⟩

end GraphQL
