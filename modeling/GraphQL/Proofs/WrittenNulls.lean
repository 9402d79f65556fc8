import GraphQL.Proofs.JsonRoundTrip
import GraphQL.Proofs.RisingNulls

/-!
Nulls in the JSON of a response.

Whether a position may be null is decided while its value is completed. The encoders decide once
more, and write a float as null that is not finite. Nothing else is lost: in JSON, a position of a
non-null type has null only for such a float, or where a custom scalar is written as null. Every
other null that may not stand was recorded, and the nearest nullable position above it is null.
-/

namespace GraphQL

variable {σ : Type}

namespace Value

/-- Values are written as JSON piece by piece, the fields of an object in some order. -/
structure Encodes (encode : Value → Json) : Prop where
  null : encode .null = .null
  bool : ∀ value, encode (.bool value) = .bool value
  int : ∀ n, encode (.int n) = .integer n.toInt
  float : ∀ x, encode (.float x) = if x.isFinite then .float (x.convert .double) else .null
  string : ∀ text, encode (.string text) = .string text
  list : ∀ items, encode (.list items) = .array (items.map encode)
  object : ∀ fields, (Object.keys fields).Nodup → ∃ shown, encode (.object fields) = .object shown ∧
    shown.Perm (fields.map fun field => (field.1, encode field.2))

theorem to_json_encodes : Encodes toJson where
  null := rfl
  bool _ := rfl
  int _ := rfl
  float _ := rfl
  string _ := rfl
  list items := by rw [toJson, items_to_json_map]
  object fields _ := ⟨_, by rw [toJson], .of_eq (fields_to_json_map fields)⟩

theorem to_sorted_json_encodes : Encodes toSortedJson where
  null := rfl
  bool _ := rfl
  int _ := rfl
  float x := by
    rw [toSortedJson, toJson]
    split <;> rfl
  string _ := rfl
  list items := by
    rw [toSortedJson, toJson, Json.sorted, items_to_json_map, Json.sorted_items_map,
      List.map_map]
    rfl
  object fields distinct := by
    refine ⟨_, by rw [toSortedJson, toJson, Json.sorted], ?_⟩
    have names : (([] ++ fieldsToJson fields : List (String × Json)).map (·.1)).Nodup := by
      rwa [List.nil_append, fields_to_json_keys]
    refine (Json.sorted_fields_perm names).trans (.of_eq ?_)
    rw [List.nil_append, Json.sortedValues, fields_to_json_map, List.map_map]
    rfl

end Value

/-- How the value of a built-in scalar is written: as null if it is a float that is not finite. -/
inductive BuiltinScalar.Shown : Value → Json → Prop where
  | bool (value : Bool) : Shown (.bool value) (.bool value)
  | int (n : Int32) : Shown (.int n) (.integer n.toInt)
  | finite {x : Single} (finite : x.isFinite = true) :
      Shown (.float x) (.float (x.convert .double))
  | endless {x : Single} (endless : x.isFinite = false) : Shown (.float x) .null
  | string (text : String) : Shown (.string text) (.string text)

theorem BuiltinScalar.Written.shown {encode : Value → Json} (encodes : Value.Encodes encode)
    {scalar : BuiltinScalar} {value : Value} (written : scalar.Written value) :
    BuiltinScalar.Shown value (encode value) := by
  cases written with
  | int n => exact encodes.int n ▸ .int n
  | float x =>
      rw [encodes.float]
      split
      · exact .finite ‹_›
      · exact .endless (Bool.eq_false_iff.mpr ‹_›)
  | string text => exact encodes.string text ▸ .string text
  | id text => exact encodes.string text ▸ .string text
  | boolean value => exact encodes.bool value ▸ .bool value

mutual

/--
What the JSON of a response has for a value at a position. There is null where the type allows it,
for the value's own sake or because a recorded null rose to it; elsewhere there is content.
-/
inductive Shows (executor : Executor σ) (scope : RequestScope) (errors : List ExecutionError) :
    FieldScope → TypeRef → Value → Json → Prop where
  | vanished {field type value} (optional : type.isNonNull = false)
      (vanishes : Vanishes executor field type value) :
      Shows executor scope errors field type value .null
  | risen {field type value} (optional : type.isNonNull = false)
      (below : NullBelow executor scope errors field type value) :
      Shows executor scope errors field type value .null
  | content {field type value json}
      (content : ShowsContent executor scope errors field type value json) :
      Shows executor scope errors field type value json

/-- What the JSON of a response has for a value that was not completed to null. -/
inductive ShowsContent (executor : Executor σ) (scope : RequestScope)
    (errors : List ExecutionError) : FieldScope → TypeRef → Value → Json → Prop where
  | nested {field type value json}
      (content : ShowsContent executor scope errors field type value json) :
      ShowsContent executor scope errors field (.nonNull type) value json
  | builtin {field name definition scalar value written json}
      (present : executor.isNullish value = false)
      (declared : executor.schema.type? name = some (.scalar definition))
      (named : BuiltinScalar.ofName? name = some scalar)
      (coerced : scalar.coerce value = some written) (shown : BuiltinScalar.Shown written json) :
      ShowsContent executor scope errors field (.named name) value json
  | custom {field name definition value json} (present : executor.isNullish value = false)
      (declared : executor.schema.type? name = some (.scalar definition))
      (unnamed : BuiltinScalar.ofName? name = none) :
      ShowsContent executor scope errors field (.named name) value json
  | enum {field name definition value text} (present : executor.isNullish value = false)
      (declared : executor.schema.type? name = some (.enum definition))
      (chosen : value.toEnumName? = some text) :
      ShowsContent executor scope errors field (.named name) value (.string text)
  | list {field element items shown} (present : executor.isNullish (.list items) = false)
      (each : ShowsItems executor scope errors field element items shown) :
      ShowsContent executor scope errors field (.list element) (.list items) (.array shown)
  | object {field name value object fields shown} (present : executor.isNullish value = false)
      (executed : ObjectFor executor value name object)
      (each : ShowsFields executor scope errors object value field.path
        (executor.groupsBelow scope object field.selectionSets) fields)
      (order : shown.Perm fields) :
      ShowsContent executor scope errors field (.named name) value (.object shown)

/-- What the JSON of a response has for the items of a list, one by one. -/
inductive ShowsItems (executor : Executor σ) (scope : RequestScope)
    (errors : List ExecutionError) : FieldScope → TypeRef → List Value → List Json → Prop where
  | nil {field element} : ShowsItems executor scope errors field element [] []
  | cons {field element item items json shown}
      (first : Shows executor scope errors field element item json)
      (rest : ShowsItems executor scope errors field element items shown) :
      ShowsItems executor scope errors field element (item :: items) (json :: shown)

/-- What the JSON of a response has for the groups executed on an object, one by one. -/
inductive ShowsFields (executor : Executor σ) (scope : RequestScope)
    (errors : List ExecutionError) :
    ObjectType → Value → FieldPath → List FieldGroup → List (String × Json) → Prop where
  | nil {object source path} : ShowsFields executor scope errors object source path [] []
  | undefined {object source path group groups shown}
      (unknown : object.selectable? group.first.node.name.node = none)
      (rest : ShowsFields executor scope errors object source path groups shown) :
      ShowsFields executor scope errors object source path (group :: groups) shown
  | cons {object source path group groups definition value json shown}
      (known : object.selectable? group.first.node.name.node = some definition)
      (resolves : MayResolveTo executor scope object source group definition value)
      (first : Shows executor scope errors (group.scope object path) definition.type.node value
        json)
      (rest : ShowsFields executor scope errors object source path groups shown) :
      ShowsFields executor scope errors object source path (group :: groups)
        ((group.key, json) :: shown)

end

/-- A value is written as null although it was not completed to null. -/
inductive WrittenAsNull (executor : Executor σ) : TypeRef → Value → Prop where
  | endless {name definition value x}
      (declared : executor.schema.type? name = some (.scalar definition))
      (named : BuiltinScalar.ofName? name = some .float)
      (coerced : BuiltinScalar.float.coerce value = some (.float x))
      (endless : x.isFinite = false) : WrittenAsNull executor (.named name) value
  | custom {name definition value}
      (declared : executor.schema.type? name = some (.scalar definition))
      (unnamed : BuiltinScalar.ofName? name = none) : WrittenAsNull executor (.named name) value
  | nonNull {type value} (inner : WrittenAsNull executor type value) :
      WrittenAsNull executor (.nonNull type) value

variable {executor : Executor σ} {scope : RequestScope} {errors : List ExecutionError}
  {encode : Value → Json}

theorem Shows.content_of_non_null {field : FieldScope} {type : TypeRef} {value : Value}
    {json : Json} (shows : Shows executor scope errors field (.nonNull type) value json) :
    ShowsContent executor scope errors field (.nonNull type) value json := by
  cases shows with
  | vanished optional => cases optional
  | risen optional => cases optional
  | content content => exact content

/-- Content is null only where that is how it is written. -/
theorem ShowsContent.written_as_null {field : FieldScope} {type : TypeRef} {value : Value}
    (content : ShowsContent executor scope errors field type value .null) :
    WrittenAsNull executor type value := by
  induction type with
  | named name =>
      cases content with
      | @builtin _ _ _ scalar _ written _ _ declared named coerced shown =>
          cases shown with
          | endless endless =>
              have float : scalar = .float := by
                cases scalar.coerce_written coerced
                rfl
              subst float
              exact .endless declared named coerced endless
      | custom _ declared unnamed => exact .custom declared unnamed
  | list element => cases content
  | nonNull inner ih =>
      cases content with
      | nested content => exact .nonNull (ih content)

/-- A value that was settled, though not to null, is content. -/
theorem Settles.shows (encodes : Value.Encodes encode) {field : FieldScope} {type : TypeRef}
    {value result : Value} {journal later : Journal σ}
    (present : executor.isNullish value = false) (nonNull : result.isNull = false)
    (settles : Settles executor field type value journal result later) :
    ShowsContent executor scope errors field type value (encode result) := by
  cases settles with
  | @builtin name definition scalar _ _ declared named =>
      cases coerced : scalar.coerce value with
      | none =>
          rw [coerced] at nonNull
          cases nonNull
      | some written =>
          have shown := (scalar.coerce_written coerced).shown encodes
          exact .builtin present declared named coerced shown
  | plain declared custom => exact .custom present declared custom
  | written declared custom => exact .custom present declared custom
  | enum declared =>
      rw [enumText] at nonNull ⊢
      cases chosen : value.toEnumName? with
      | none =>
          rw [chosen] at nonNull
          cases nonNull
      | some text => exact encodes.string text ▸ .enum present declared chosen
  | _ => cases nonNull

/-- What the JSON of a response has for the result of some work. -/
def Work.Shows (executor : Executor σ) (scope : RequestScope) (errors : List ExecutionError)
    (encode : Value → Json) : Work → Except Bubble Value → Prop
  | _, .error _ => True
  | .complete field type value, .ok result =>
      GraphQL.Shows executor scope errors field type value (encode result)
  | .bare field type value, .ok result =>
      result.isNull = false →
        ShowsContent executor scope errors field type value (encode result)
  | .items field element values, .ok result =>
      ∃ results, result = .list results ∧
        ShowsItems executor scope errors field element values (results.map encode)
  | .groups object source path below, .ok result =>
      ∃ fields, result = .object fields ∧
        ShowsFields executor scope errors object source path below
          (fields.map fun field => (field.1, encode field.2))

/--
What a run ends with is what JSON has for it. The errors are those of the whole response, among
which are all that were recorded by the end of the run.
-/
theorem Runs.shows (encodes : Value.Encodes encode) {work : Work} {journal later : Journal σ}
    {result : Except Bubble Value} (runs : Runs executor scope work journal result later)
    (recorded : later.errors ⊆ errors) : work.Shows executor scope errors encode result := by
  induction runs with
  | @nullable field type value journal result later optional inner ih =>
      -- Nothing below a null is followed: why the value is null is settled where it is completed.
      cases null : result.isNull with
      | true =>
          obtain rfl := Value.eq_null null
          change GraphQL.Shows executor scope errors field type value (encode .null)
          rw [encodes.null]
          exact .vanished optional inner.vanishes
      | false => exact .content (ih recorded null)
  | @absorbed field type value _ _ optional inner =>
      change GraphQL.Shows executor scope errors field type value (encode .null)
      rw [encodes.null]
      exact .risen optional (inner.bubbles rfl recorded)
  | present nonNull _ ih => exact .content (.nested (ih recorded nonNull))
  | violated => trivial
  | passed => trivial
  | absent =>
      intro impossible
      cases impossible
  | settled present settles =>
      intro nonNull
      exact settles.shows encodes present nonNull
  | @nested _ _ _ _ result _ _ _ ih =>
      cases result with
      | error => trivial
      | ok value =>
          intro _
          exact (ih recorded).content_of_non_null
  | @list _ _ _ _ result _ present _ ih =>
      cases result with
      | error => trivial
      | ok value =>
          intro _
          obtain ⟨results, rfl, each⟩ := ih recorded
          exact encodes.list results ▸ .list present each
  | @object _ _ _ _ _ result _ present executed inner ih =>
      cases result with
      | error => trivial
      | ok value =>
          intro _
          obtain ⟨fields, rfl, each⟩ := ih recorded
          obtain ⟨_, same, keys⟩ := inner.groups_object
          cases same
          obtain ⟨shown, same, order⟩ := encodes.object fields (answers_in_order keys).distinct
          exact same ▸ .object present executed each order
  | noItems => exact ⟨[], rfl, .nil⟩
  | item _ tailRuns head tail =>
      obtain ⟨others, same, rest⟩ := tail recorded
      cases same
      have first := head (List.Subset.trans tailRuns.errors_subset recorded)
      exact ⟨_, rfl, .cons first rest⟩
  | itemBubbled => trivial
  | itemsBubbled => trivial
  | noGroups => exact ⟨[], rfl, .nil⟩
  | @undefinedField _ _ _ _ _ _ result _ unknown _ ih =>
      cases result with
      | error => trivial
      | ok value =>
          obtain ⟨fields, same, rest⟩ := ih recorded
          exact ⟨fields, same, .undefined unknown rest⟩
  | field known resolves _ tailRuns head tail =>
      obtain ⟨others, same, rest⟩ := tail recorded
      cases same
      have first := head (List.Subset.trans tailRuns.errors_subset recorded)
      exact ⟨_, rfl, .cons known ⟨_, _, _, resolves⟩ first rest⟩
  | fieldBubbled => trivial
  | fieldsBubbled => trivial

namespace Executor

/-- The data of an operation in JSON: null if a recorded null rose to the root. -/
def DataShows (executor : Executor σ) (document : Document) (operation : Located Operation)
    (root : ObjectType) (inputs : Object) (context : σ) (errors : List ExecutionError)
    (data : Json) : Prop :=
  ∃ variableValues coerced,
    executor.coerceVariables inputs (operationPlace operation)
      ((operation.node.variableDefinitions.map (·.node)).getD []) ⟨context, []⟩ =
        some (.ok variableValues, coerced) ∧
    let scope : RequestScope := ⟨document, variableValues⟩
    let groups := executor.groupsBelow scope root [operation.node.selections]
    let path : FieldPath := ⟨[], operation.span.start⟩
    (data = .null ∧ NullInFields executor scope errors root (.object []) path groups) ∨
      ∃ fields shown, data = .object shown ∧
        ShowsFields executor scope errors root (.object []) path groups fields ∧ shown.Perm fields

theorem execute_operation_shows (encodes : Value.Encodes encode) {depth : Nat}
    {document : Document} {operation : Located Operation} {root : ObjectType} {inputs : Object}
    {context : σ} {journal : Journal σ} {data : Value}
    (finished : executor.executeOperation (executor.runWithin depth) document operation root inputs
      ⟨context, []⟩ = some (.ok data, journal)) :
    executor.DataShows document operation root inputs context journal.errors (encode data) := by
  rw [executeOperation] at finished
  rcases Action.bind_finished finished with ⟨values, middle, ran, rest⟩ | ⟨_, impossible, -⟩
  · refine ⟨values, middle, ran, ?_⟩
    obtain ⟨outcome, same, runs⟩ := root_data_runs rest
    cases same
    cases outcome with
    | error rising =>
        cases rising
        exact .inl ⟨encodes.null, runs.bubbles rfl (List.Subset.refl _)⟩
    | ok value =>
        obtain ⟨fields, rfl, each⟩ := runs.shows encodes (List.Subset.refl _)
        obtain ⟨_, same, keys⟩ := runs.groups_object
        cases same
        obtain ⟨shown, same, order⟩ := encodes.object fields (answers_in_order keys).distinct
        exact .inr ⟨_, shown, same, each, order⟩
  · cases impossible

/-- The fields of a response in JSON. -/
def answerFields (data : Json) : List Json → List (String × Json)
  | [] => [("data", data)]
  | rendered => [("data", data), ("errors", .array rendered)]

/-- A response in JSON is one message, or the data of its operation and the recorded errors. -/
inductive ResponseShows (executor : Executor σ) (encode : Value → Json) (request : Request)
    (context : σ) : Json → Prop where
  | message (text : String)
      (unexecuted : ∀ document operation, Document.ofSource request.source = .ok document →
        document.Chooses request.operationName operation →
          executor.rootType? operation.node.kind = none) :
      ResponseShows executor encode request context (encode (messageAlone text))
  | data {document operation root data shown} (errors : List ExecutionError)
      (read : Document.ofSource request.source = .ok document)
      (chosen : document.Chooses request.operationName operation)
      (rooted : executor.rootType? operation.node.kind = some root)
      (shows : executor.DataShows document operation root request.variableValues context errors
        data)
      (order : shown.Perm (answerFields data
        (errors.map fun error => encode (executor.renderError error request.source)))) :
      ResponseShows executor encode request context (.object shown)

theorem encode_data_first (encodes : Value.Encodes encode) (data : Value) (rendered : List Value) :
    ∃ shown, encode (dataFirst data rendered) = .object shown ∧
      shown.Perm (answerFields (encode data) (rendered.map encode)) := by
  cases rendered with
  | nil => exact encodes.object [("data", data)] (List.nodup_singleton _)
  | cons first rest =>
      have distinct : (Object.keys [("data", data), ("errors", .list (first :: rest))]).Nodup := by
        simp [Object.keys]
      have shown := encodes.object _ distinct
      rwa [List.map_cons, List.map_singleton, encodes.list] at shown

theorem execute_shows (encodes : Value.Encodes encode) {depth : Nat} {request : Request}
    {context later : σ} {response : Value}
    (finished : executor.execute depth request context = some (.ok response, later)) :
    executor.ResponseShows encode request context (encode response) := by
  cases execute_answers finished with
  | message text unexecuted => exact .message text unexecuted
  | data read chosen rooted ran =>
      obtain ⟨shown, same, order⟩ := encode_data_first encodes _ _
      rw [List.map_map] at order
      rw [same]
      exact .data _ read chosen rooted (execute_operation_shows encodes ran) order

end Executor

/--
In JSON, null stands at a non-null position only for a float that is not finite, or for what a
custom scalar is written as. Whatever else may not be null was recorded as an error, and null is at
the nearest position above it that may be; so it is with both encoders and all requests.
-/
theorem written_nulls_explained (executor : Executor σ) :
    (∀ scope errors field type value,
      Shows executor scope errors field (.nonNull type) value .null →
        WrittenAsNull executor type value) ∧
    (∀ depth request context response later,
      executor.execute depth request context = some (.ok response, later) →
        executor.ResponseShows Value.toJson request context response.toJson ∧
          executor.ResponseShows Value.toSortedJson request context response.toSortedJson) ∧
    ∀ depth source values operationName context json later,
      executor.executeJson depth source values operationName context = some (.ok json, later) →
        executor.ResponseShows Value.toSortedJson
          ⟨source, ((Value.ofJson values).asObject?).getD [], operationName⟩ context json := by
  refine ⟨fun scope errors field type value shows => ?_,
    fun depth request context response later finished => ?_,
    fun depth source values operationName context json later finished => ?_⟩
  · cases shows.content_of_non_null with
    | nested content => exact content.written_as_null
  · exact ⟨Executor.execute_shows Value.to_json_encodes finished,
      Executor.execute_shows Value.to_sorted_json_encodes finished⟩
  · rw [Executor.executeJson] at finished
    rcases Action.bind_finished finished with ⟨response, middle, ran, rest⟩ | ⟨_, impossible, -⟩
    · cases rest
      exact Executor.execute_shows Value.to_sorted_json_encodes ran
    · cases impossible

/-! A scale whose weight may not be null. -/

def scaleRoot : ObjectType := kennelType "Scale" [("weight", .nonNull (.named "Float"))]

def scale : Executor Unit where
  schema :=
    { document :=
        { definitions :=
            [.type (.unplaced (.object scaleRoot)),
              .type (.unplaced (.scalar ⟨.unplaced "Float", none⟩))]
          span := .unplaced }
      queryName := "Scale"
      mutationName := none }
  resolvers := [⟨"Scale", "weight", .ofFunction fun _ => .float (Binary.infinity .single false)⟩]
  scalars := []
  resolveType := typenameField
  isNullish := Value.isNull
  renderError := fun error _ => error.render

/-- A weight beyond all floats is null in JSON, and there is no error. -/
theorem endless_weight_written_as_null :
    WrittenAsNull scale (.named "Float") (.float (Binary.infinity .single false)) ∧
      (∃ response later, scale.execute 1 ⟨"{weight}", [], none⟩ () = some (.ok response, later) ∧
        response.toJson.compact = "\x7b\"data\":\x7b\"weight\":null\x7d\x7d" ∧
        scale.ResponseShows Value.toJson ⟨"{weight}", [], none⟩ () response.toJson ∧
        scale.ResponseShows Value.toSortedJson ⟨"{weight}", [], none⟩ () response.toSortedJson) ∧
      ∃ json later, scale.executeJson 1 "{weight}" (.object []) none () = some (.ok json, later) ∧
        json.compact = "\x7b\"data\":\x7b\"weight\":null\x7d\x7d" ∧
        scale.ResponseShows Value.toSortedJson ⟨"{weight}", [], none⟩ () json := by
  have weighed : ((scale.execute 1 ⟨"{weight}", [], none⟩ ()).bind
      fun outcome => outcome.1.toOption.map fun response => response.toJson.compact) =
        some "\x7b\"data\":\x7b\"weight\":null\x7d\x7d" := by decide +kernel
  have written : ((scale.executeJson 1 "{weight}" (.object []) none ()).bind
      fun outcome => outcome.1.toOption.map Json.compact) =
        some "\x7b\"data\":\x7b\"weight\":null\x7d\x7d" := by decide +kernel
  refine ⟨(written_nulls_explained scale).1 ⟨kennelDocument, []⟩ []
    ⟨"Scale", "weight", ⟨["weight"], .origin⟩, []⟩ _ _
    (.content (.nested (.builtin rfl rfl rfl rfl (.endless rfl)))), ?_, ?_⟩
  · obtain ⟨⟨result, later⟩, ran, finished⟩ := Option.bind_eq_some_iff.mp weighed
    cases result with
    | error error => cases finished
    | ok response =>
        have shows := (written_nulls_explained scale).2.1 _ _ _ _ _ ran
        exact ⟨response, later, ran, Option.some.inj finished, shows.1, shows.2⟩
  · obtain ⟨⟨result, later⟩, ran, finished⟩ := Option.bind_eq_some_iff.mp written
    cases result with
    | error error => cases finished
    | ok json =>
        exact ⟨json, later, ran, Option.some.inj finished,
          (written_nulls_explained scale).2.2 _ _ _ _ _ _ _ ran⟩

end GraphQL
