import GraphQL.Proofs.ReadingDocuments
import GraphQL.Proofs.ReportedTypes
import GraphQL.Proofs.SpelledTexts

/-!
The request for a whole schema always succeeds.

The request is read as the selections that the parts of a schema are reported to. Every accepted
schema answers it without errors, with one entry for each of its types.
-/

namespace GraphQL

instance : DecidableEq Piece := fun piece other =>
  decidable_of_iff (piece.token = other.token ∧ piece.description = other.description)
    ⟨fun ⟨token, description⟩ => by
      cases piece
      cases other
      exact congrArg₂ Piece.mk token description, fun same => same ▸ ⟨rfl, rfl⟩⟩

/-- A source is read back as the definitions whose pieces its cursor holds. -/
theorem source_read_back {definitions : List Definition} (filled : definitions ≠ [])
    (writable : ∀ definition ∈ definitions, definition.Writable)
    (distinct : (declaredNames definitions).Nodup) (closed : ¬ EndsWithUnion definitions)
    {parts : List (List Piece)} (printed : List.Forall₂ Definition.Printed definitions parts)
    {source : String} (complete : (TokenStream.ofSource source).fault = none)
    (held : Cursor.pieces (Cursor.attach [] (TokenStream.ofSource source).tokens) =
      parts.flatten ++ [Token.endOfFile.plain]) :
    ∃ document, Document.ofSource source = .ok document ∧
      document.definitions.map Definition.placeless = definitions.map Definition.placeless := by
  have scanned : Document.ofSource source =
      Document.ofCursor (Cursor.attach [] (TokenStream.ofSource source).tokens) := by
    change Document.ofStream (TokenStream.ofSource source) = _
    rw [Document.ofStream, Cursor.ofStream, complete]
  rw [scanned]
  exact cursor_read_back filled writable distinct closed printed held
    (definitions_counted printed writable held)

/-- Of operations and fragments all is seen but their places. -/
theorem executables_seen {definitions others : List Definition}
    (executable : ∀ definition ∈ others, definition.isExecutable = true)
    (same : definitions.map Definition.placeless = others.map Definition.placeless)
    (view : Option String → Option String) :
    definitions.map (Definition.seen view) = others.map Definition.placeless := by
  rw [← same]
  refine List.map_congr_left fun definition member => ?_
  obtain ⟨other, among, alike⟩ := List.mem_map.mp (same ▸ List.mem_map_of_mem member)
  have runs := executable other among
  cases definition with
  | type _ => cases other <;> first | cases alike | cases runs
  | extension _ => cases other <;> first | cases alike | cases runs
  | _ => rfl

namespace Introspection

section Writable

theorem leaf_writable {name : String} (valid : Name.isValid name = true) :
    (Selection.field (.unplaced (leaf name))).Writable :=
  ⟨nofun, valid, no_arguments_writable, no_directives_writable⟩

theorem one_argument_writable {name : String} {literal : Literal}
    (valid : Name.isValid name = true) (writable : literal.Writable false) :
    ArgumentsWritable (some (.unplaced [⟨.unplaced name, .unplaced literal⟩])) := by
  refine ⟨fun list there => ?_, fun list there => ?_, fun list there => ?_⟩
  all_goals cases there
  · exact List.cons_ne_nil _ _
  · exact ⟨List.forall_mem_singleton.mpr valid, List.pairwise_singleton _ _⟩
  · exact List.forall_mem_singleton.mpr writable

theorem under_writable {name : String} {selections : List Selection} (filled : selections ≠ [])
    (writable : SelectionsWritable selections) (valid : Name.isValid name = true) :
    (Selection.field (.unplaced (under name selections))).Writable :=
  ⟨⟨nofun, valid, no_arguments_writable, no_directives_writable⟩, filled, writable⟩

theorem filtered_writable {name : String} {selections : List Selection}
    (filled : selections ≠ []) (writable : SelectionsWritable selections)
    (valid : Name.isValid name = true) (flag : Option Bool) :
    (Selection.field (.unplaced (filtered name flag selections))).Writable := by
  refine ⟨⟨nofun, valid, ?_, no_directives_writable⟩, filled, writable⟩
  cases flag with
  | none => exact no_arguments_writable
  | some flag => exact one_argument_writable (by decide) trivial

theorem plain_writable {fields : List Field}
    (each : ∀ field ∈ fields, (Selection.field (.unplaced field)).Writable) :
    SelectionsWritable (plainSelections fields) := by
  induction fields with
  | nil => trivial
  | cons field rest ih =>
      obtain ⟨first, others⟩ := List.forall_mem_cons.mp each
      exact ⟨first, ih others⟩

theorem spread_writable {name : String} (valid : Name.isValid name = true) (other : name ≠ "on") :
    SelectionsWritable (spreadOf name) :=
  ⟨⟨valid, other, no_directives_writable⟩, trivial⟩

theorem fragment_writable {name typeName : String} {fields : List Field}
    (valid : Name.isValid name = true) (other : name ≠ "on")
    (condition : Name.isValid typeName = true) (filled : fields ≠ [])
    (each : ∀ field ∈ fields, (Selection.field (.unplaced field)).Writable) :
    (fragmentOn name typeName fields).Writable where
  name := valid
  named := other
  typeCondition := condition
  directives := no_directives_writable
  selects := fun absent => filled (List.map_eq_nil_iff.mp absent)
  selections := plain_writable each

theorem ref_fields_writable (depth : Nat) :
    ∀ field ∈ refFields depth, (Selection.field (.unplaced field)).Writable := by
  have kind : (Selection.field (.unplaced (leaf "kind"))).Writable := leaf_writable (by decide)
  have name : (Selection.field (.unplaced (leaf "name"))).Writable := leaf_writable (by decide)
  induction depth with
  | zero => exact List.forall_mem_cons.mpr ⟨kind, List.forall_mem_singleton.mpr name⟩
  | succ depth ih =>
      have within := under_writable (show plainSelections (refFields depth) ≠ [] by
        cases depth <;> simp [refFields, plainSelections]) (plain_writable ih)
        (show Name.isValid "ofType" = true by decide)
      exact List.forall_mem_cons.mpr ⟨kind, List.forall_mem_cons.mpr
        ⟨name, List.forall_mem_singleton.mpr within⟩⟩

theorem input_asked_writable :
    ∀ field ∈ inputAsked, (Selection.field (.unplaced field)).Writable := by
  simp only [inputAsked, List.forall_mem_cons]
  refine ⟨leaf_writable (by decide), leaf_writable (by decide), ?_, leaf_writable (by decide),
    List.forall_mem_nil _⟩
  exact under_writable (List.cons_ne_nil _ _) (spread_writable (by decide) (by decide)) (by decide)

theorem field_asked_writable :
    ∀ field ∈ fieldAsked, (Selection.field (.unplaced field)).Writable := by
  simp only [fieldAsked, List.forall_mem_cons]
  refine ⟨leaf_writable (by decide), leaf_writable (by decide), ?_, ?_, leaf_writable (by decide),
    leaf_writable (by decide), List.forall_mem_nil _⟩
  all_goals
    exact under_writable (List.cons_ne_nil _ _) (spread_writable (by decide) (by decide))
      (by decide)

theorem enum_value_asked_writable :
    ∀ field ∈ enumValueAsked, (Selection.field (.unplaced field)).Writable := by
  simp only [enumValueAsked, List.forall_mem_cons]
  exact ⟨leaf_writable (by decide), leaf_writable (by decide), leaf_writable (by decide),
    leaf_writable (by decide), List.forall_mem_nil _⟩

theorem type_asked_writable :
    ∀ field ∈ typeAsked, (Selection.field (.unplaced field)).Writable := by
  simp only [typeAsked, List.forall_mem_cons]
  refine ⟨leaf_writable (by decide), leaf_writable (by decide), leaf_writable (by decide),
    ?_, ?_, ?_, ?_, ?_, List.forall_mem_nil _⟩
  case refine_1 =>
    exact filtered_writable (List.cons_ne_nil _ _) (plain_writable field_asked_writable)
      (by decide) (some true)
  case refine_4 =>
    exact filtered_writable (List.cons_ne_nil _ _) (plain_writable enum_value_asked_writable)
      (by decide) (some true)
  all_goals
    exact under_writable (List.cons_ne_nil _ _) (spread_writable (by decide) (by decide))
      (by decide)

theorem schema_asked_writable :
    ∀ field ∈ schemaAsked, (Selection.field (.unplaced field)).Writable := by
  have directive : ∀ field ∈ directiveAsked, (Selection.field (.unplaced field)).Writable := by
    simp only [directiveAsked, List.forall_mem_cons]
    exact ⟨leaf_writable (by decide), leaf_writable (by decide), leaf_writable (by decide),
      leaf_writable (by decide), leaf_writable (by decide), under_writable (List.cons_ne_nil _ _)
        (spread_writable (by decide) (by decide)) (by decide), List.forall_mem_nil _⟩
  have name : SelectionsWritable (plainSelections [leaf "name"]) :=
    plain_writable (List.forall_mem_singleton.mpr (leaf_writable (by decide)))
  simp only [schemaAsked, List.forall_mem_cons]
  exact ⟨under_writable (List.cons_ne_nil _ _) name (by decide),
    under_writable (List.cons_ne_nil _ _) name (by decide),
    under_writable (List.cons_ne_nil _ _) name (by decide),
    under_writable (List.cons_ne_nil _ _) (spread_writable (by decide) (by decide)) (by decide),
    under_writable (List.cons_ne_nil _ _) (plain_writable directive) (by decide),
    List.forall_mem_nil _⟩

/-- An operation that is nothing but one field, maybe with a name. -/
theorem request_operation_writable : requestOperation.Writable where
  name name there := by
    cases there
    decide
  filled := nofun
  variableNames := nofun
  definitions := nofun
  directives := no_directives_writable
  selects := List.cons_ne_nil _ _
  selections := plain_writable (List.forall_mem_singleton.mpr
    (under_writable (List.cons_ne_nil _ _) (plain_writable schema_asked_writable) (by decide)))

theorem request_writable : ∀ definition ∈ requestDefinitions, definition.Writable := by
  simp only [requestDefinitions, List.forall_mem_cons]
  exact ⟨request_operation_writable,
    fragment_writable (by decide) (by decide) (by decide) (List.cons_ne_nil _ _)
      type_asked_writable,
    fragment_writable (by decide) (by decide) (by decide) (List.cons_ne_nil _ _)
      input_asked_writable,
    fragment_writable (by decide) (by decide) (by decide) (List.cons_ne_nil _ _)
      (ref_fields_writable 7), List.forall_mem_nil _⟩

end Writable

/-- The request is read as what is asked of the parts of a schema. -/
theorem request_read : ∃ document, Document.ofSource requestText = .ok document ∧
    (document.seen undescribed).definitions = requestDefinitions := by
  have stream : TokenStream.ofSource requestText = .ofText (joinedLines requestLines) := by
    rw [TokenStream.ofSource, requestText, String.toList_ofList]
  have lexed : (TokenStream.ofText (joinedLines requestLines)).fault = none ∧
      Cursor.pieces (Cursor.attach [] (TokenStream.ofText (joinedLines requestLines)).tokens) =
        [requestOperation.pieces, (fragmentOn "FullType" "__Type" typeAsked).pieces,
          (fragmentOn "InputValue" "__InputValue" inputAsked).pieces,
          (fragmentOn "TypeRef" "__Type" (refFields 7)).pieces].flatten ++
        [Token.endOfFile.plain] := by
    rw [request_lines_spelled]
    decide +kernel
  have printed : List.Forall₂ Definition.Printed requestDefinitions _ :=
    .cons (.operation _) (.cons (.fragment _) (.cons (.fragment _) (.cons (.fragment _) .nil)))
  obtain ⟨document, read, same⟩ := source_read_back (List.cons_ne_nil _ _) request_writable
    (by decide) (executables_end_otherwise (by decide)) printed (stream ▸ lexed.1)
    (stream ▸ lexed.2)
  exact ⟨document, read, executables_seen (by decide) same undescribed⟩

/-- A key whose value is there, and null unless a condition holds. -/
def NullUnless (entry : Object) (key : String) (condition : Prop) : Prop :=
  ∃ value, entry.get? key = some value ∧ (value.isNull = false ↔ condition)

/-- An entry that reports a type: what it is, and which parts types of its kind have. -/
structure Describes (type : TypeDefinition) (entry : Object) : Prop where
  name : entry.get? "name" = some (.string type.name)
  kind : entry.get? "kind" = some (.string type.kind.text)
  description : entry.get? "description" = some (optionalText type.description)
  fields : NullUnless entry "fields" (type.kind = .object ∨ type.kind = .interface)
  interfaces : NullUnless entry "interfaces" (type.kind = .object)
  possibleTypes : NullUnless entry "possibleTypes" (type.kind = .interface ∨ type.kind = .union)
  enumValues : NullUnless entry "enumValues" (type.kind = .enum)
  inputFields : NullUnless entry "inputFields" (type.kind = .inputObject)

theorem type_report_describes (schema : Schema) (type : TypeDefinition) :
    Describes type (typeReport schema type) where
  name := rfl
  kind := rfl
  description := rfl
  fields := ⟨_, rfl, by cases type <;> simp [reportedFields, TypeDefinition.fields?,
    TypeDefinition.kind, Value.isNull]⟩
  interfaces := ⟨_, rfl, by cases type <;> simp [interfacesOf, typeReports, TypeDefinition.kind,
    Value.isNull]⟩
  possibleTypes := ⟨_, rfl, by cases type <;> simp [possibleTypesOf, typeReports,
    TypeDefinition.isAbstract, TypeDefinition.kind, Value.isNull]⟩
  enumValues := ⟨_, rfl, by cases type <;> simp [enumValuesOf, TypeDefinition.kind, Value.isNull]⟩
  inputFields := ⟨_, rfl, by cases type <;> simp [inputFieldsOf, inputReports,
    TypeDefinition.kind, Value.isNull]⟩

end Introspection

section Answer

variable {σ : Type} {executor : Executor σ} {source queryName : String}
  {mutationName : Option String} {given : Resolvers σ}

/-- The query root is answered by the report of the whole schema. -/
theorem schema_asked_answers (built : executor.BuiltFrom source queryName mutationName given)
    (leaves : LeavesIntrospection queryName "__schema" given) {scope : RequestScope}
    (shown : (scope.seen undescribed).document.definitions = Introspection.requestDefinitions)
    {root : ObjectType} (rooted : executor.schema.queryType? = some root)
    (named : root.name.node = queryName)
    (entry : root.field? "__schema" = some Introspection.schemaField) (depth : Nat) :
    executor.AnswersBy scope (depth + 13) root (.object [])
      [Introspection.requestOperation.selections]
      [("__schema", .object (Introspection.schemaReport executor.schema))] := by
  have introspects := built.introspects leaves
  obtain ⟨object, stands⟩ := introspects.holds.object Introspection.schemaObject
    (by simp [Introspection.objects])
  have known : (executor.schema.type? executor.schema.queryName).isSome = true := by
    rw [Schema.queryType?, Document.object_typed_iff] at rooted
    exact Option.isSome_of_eq_some rooted
  have resolved : executor.resolver? root.name.node "__schema" =
      some (.ofFunction fun _ => .object []) := by
    have own := built.resolved (List.mem_of_getElem? (i := 0) rfl)
      (fun resolver there => built.query_name ▸ leaves.root resolver there)
    rw [named, ← built.query_name]
    exact own
  refine AnswersEach.selected ⟨⟨by simp [Introspection.under], by decide⟩,
    .cons ⟨rfl, _, .object [], entry, ?_, ?_⟩ .nil⟩
  · exact .by_function resolved .nothing fun _ _ _ _ => rfl
  · exact (Executor.Shows.object stands.typed (introspects.present rfl)
      (introspects.schema_answers shown stands known depth).selected).required rfl rfl

/-- Behind an action that succeeds the next one runs. -/
theorem Action.bind_answered {ε α β : Type} {action : Action σ ε α} {next : α → Action σ ε β}
    {context later : σ} {value : α} (ran : action context = some (.ok value, later)) :
    (action >>= next) context = next value later := by
  rw [Action.bind_apply, ran]

/-- Whatever a request for the schema is answered with is what there is to know about it. -/
theorem Executor.introspect_data {depth : Nat} {context : σ} {data : Value}
    (answered : executor.execute depth
      ⟨Introspection.requestText, [], some Introspection.requestName⟩ context =
        some (.ok (.object [("data", data)]), context)) :
    executor.introspect depth context = some (.ok data, context) := by
  have both := @Action.bind_answered σ RequestError Value Value _
    (fun response => pure ((response.field? "data").getD .null)) _ _ _ answered
  exact both

/-- That an object type is completed changes nothing of what an entry tells of it. -/
theorem Introspection.Describes.of_completed {extensions : List (Located ObjectType)}
    {type : TypeDefinition} {entry : Object}
    (describes : Describes (type.mapObject (.completed extensions queryName)) entry) :
    Describes type entry := by
  have name : (type.mapObject (.completed extensions queryName)).name = type.name :=
    map_object_name (completed_name extensions queryName) type
  have kind : (type.mapObject (.completed extensions queryName)).kind = type.kind := by
    cases type <;> rfl
  have description : (type.mapObject (.completed extensions queryName)).description =
      type.description := by
    cases type with
    | object object => exact completed_description extensions queryName object
    | _ => rfl
  obtain ⟨named, kinded, described, fields, interfaces, possible, values, inputs⟩ := describes
  rw [name] at named
  rw [kind] at kinded fields interfaces possible values inputs
  rw [description] at described
  exact ⟨named, kinded, described, fields, interfaces, possible, values, inputs⟩

/-- The types of a schema are reported as those of the document that it comes of. -/
theorem reports_describe (accepted : Schema.ofSource source queryName mutationName =
    .ok executor.schema) : ∃ document, Document.ofText (Schema.fullText source.toList) =
      .ok document ∧ (document.types.map TypeDefinition.name).Nodup ∧
      List.Forall₂ Introspection.Describes document.types
        (executor.schema.types.map (Introspection.typeReport executor.schema)) := by
  obtain ⟨document, read, accepted⟩ := Schema.of_source_ok_iff.mp accepted
  obtain ⟨indexed, -, -, same⟩ := Document.accepted_iff.mp accepted
  refine ⟨document, read, Document.of_definitions_distinct_types indexed, ?_⟩
  have types : executor.schema.types =
      document.types.map (·.mapObject (.completed document.extensions queryName)) := by
    rw [same, schema_types]
  rw [types, List.map_map, List.forall₂_map_right_iff]
  exact List.forall₂_same.mpr fun type _ =>
    (Introspection.type_report_describes executor.schema _).of_completed

/--
The request for a whole schema is answered without an error, whatever the schema. The answer has an
entry for each type definition of the source, in the order in which they are written, and no type
has two: with its name, kind and description, and with those lists that types of its kind have.
-/
theorem introspection_request_succeeds
    (built : executor.BuiltFrom source queryName mutationName given)
    (leaves : LeavesIntrospection queryName "__schema" given) (depth : Nat) (context : σ) :
    executor.execute (depth + 13)
        ⟨Introspection.requestText, [], some Introspection.requestName⟩ context =
      some (.ok (.object [("data", .object
        [("__schema", .object (Introspection.schemaReport executor.schema))])]), context) ∧
    executor.introspect (depth + 13) context =
      some (.ok (.object
        [("__schema", .object (Introspection.schemaReport executor.schema))]), context) ∧
    ∃ document entries, Document.ofText (Schema.fullText source.toList) = .ok document ∧
      (Introspection.schemaReport executor.schema).get? "types" =
        some (.list (entries.map .object)) ∧
      List.Forall₂ Introspection.Describes document.types entries ∧
      (document.types.map TypeDefinition.name).Nodup := by
  obtain ⟨asked, requested, shown⟩ := Introspection.request_read
  obtain ⟨root, rooted, named, entry, -⟩ := Schema.accepted_root built.accepted
  have selected : (asked.seen undescribed).selectOperation (some Introspection.requestName) =
      .ok (.unplaced Introspection.requestOperation) := by
    have found : (asked.seen undescribed).operation? Introspection.requestName =
        some (.unplaced Introspection.requestOperation) := by
      rw [Document.operation?, Document.operations, shown]
      rfl
    have named : (some Introspection.requestName).filter (fun name => decide (name ≠ "")) =
        some Introspection.requestName := by decide +kernel
    simp only [Document.selectOperation, named, found]
  have answers := @schema_asked_answers _ _ _ _ _ _ built leaves ⟨asked, []⟩ shown _ rooted named
    entry depth
  have executed := @execute_answered _ undescribed _
    ⟨Introspection.requestText, [], some Introspection.requestName⟩ _ _ _ (depth + 13) _ requested
    selected rfl rooted answers context
  refine ⟨executed, ?_, ?_⟩
  · exact Executor.introspect_data executed
  · obtain ⟨document, read, distinct, describes⟩ := reports_describe built.accepted
    refine ⟨document, _, read, ?_, describes, distinct⟩
    rw [List.map_map]
    rfl

end Answer

/-- A resolver of its own for a field, and one in the place of introspection's for another. -/
def petResolvers : Resolvers Unit :=
  [("Cat/nap", .ofFunction fun _ => .null), ("Dog/__type", .ofFunction fun _ => .null)]

theorem pet_resolvers_keyed : petResolvers.map (fun given => resolverKey? given.1) =
    [("Cat", "nap"), ("Dog", "__type")].map some := by
  decide +kernel

theorem pets_leave_introspection : LeavesIntrospection "Dog" "__schema" petResolvers :=
  leaves_introspection_keyed pet_resolvers_keyed (by decide) (by decide)

/-- With these resolvers the schema is reported, each of its types once. -/
theorem pet_schema_reported :
    ∃ executor : Executor Unit,
      Executor.ofSource petSource "Dog" (some "Cat") petResolvers = .ok executor ∧
      LeavesIntrospection "Dog" "__schema" petResolvers ∧
      executor.introspect 13 () = some (.ok (.object
        [("__schema", .object (Introspection.schemaReport executor.schema))]), ()) ∧
      ∃ document entries, Document.ofText (Schema.fullText petSource.toList) = .ok document ∧
        (Introspection.schemaReport executor.schema).get? "types" =
          some (.list (entries.map .object)) ∧
        List.Forall₂ Introspection.Describes document.types entries := by
  obtain ⟨schema, _, accepted, -⟩ := Schema.found_in_source pet_source_read
  obtain ⟨executor, made, -, built⟩ :=
    executor_of_accepted accepted (keys_named_of_keyed pet_resolvers_keyed)
  obtain ⟨-, introspected, document, entries, read, types, describes, -⟩ :=
    @introspection_request_succeeds _ _ _ _ _ _ built pets_leave_introspection 0 ()
  exact ⟨executor, made, pets_leave_introspection, introspected, document, entries, read, types,
    describes⟩

end GraphQL
