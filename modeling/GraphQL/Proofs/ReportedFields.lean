import GraphQL.Proofs.IntrospectionRequest
import GraphQL.Proofs.SpelledTexts

/-!
The fields of a type, as introspection lists them.

A request for one type by name lists the fields that the type declares, those from extensions behind
its own. Deprecated ones are listed if they are asked for. The fields of the query root whose names
are reserved are left out: the two that introspection starts from, and all others.
-/

namespace GraphQL

/-- A request consists of one operation, however it is laid out. -/
def AsksOnly (request : String) (operation : Operation) : Prop :=
  ∃ document, Document.ofSource request = .ok document ∧
    (document.seen undescribed).definitions = [.operation (.unplaced operation)]

section Requests

variable {operation : Operation} (writable : operation.Writable)
  (placeless : (Definition.operation (.unplaced operation)).placeless =
    .operation (.unplaced operation))

theorem sole_executable : ∀ definition ∈ [Definition.operation (.unplaced operation)],
    definition.isExecutable = true :=
  List.forall_mem_singleton.mpr rfl

theorem sole_declared (definition : Definition) : (declaredNames [definition]).Nodup := by
  rw [declaredNames, List.filterMap_cons, List.filterMap_nil]
  cases definition.declared? with
  | none => exact List.nodup_nil
  | some declared => exact List.pairwise_singleton _ _

include placeless in
/-- What a request is read as is seen as the operation if it is so up to places. -/
theorem asks_only_of_read {request : String} {document : Document}
    (read : Document.ofSource request = .ok document)
    (same : document.definitions.map Definition.placeless =
      [Definition.operation (.unplaced operation)].map Definition.placeless) :
    AsksOnly request operation := by
  have seen := executables_seen sole_executable same undescribed
  rw [List.map_singleton, placeless] at seen
  exact ⟨document, read, seen⟩

include writable

theorem sole_writable : ∀ definition ∈ [Definition.operation (.unplaced operation)],
    definition.Writable :=
  List.forall_mem_singleton.mpr (show Definition.Writable (.operation _) from writable)

include placeless

/-- A source with the tokens of the operation asks for nothing else. -/
theorem asks_only_printed {pieces : List Piece}
    (printed : Definition.Printed (.operation (.unplaced operation)) pieces) {request : String}
    (complete : (TokenStream.ofSource request).fault = none)
    (held : Cursor.pieces (Cursor.attach [] (TokenStream.ofSource request).tokens) =
      pieces ++ [Token.endOfFile.plain]) : AsksOnly request operation := by
  obtain ⟨document, read, same⟩ := source_read_back (List.cons_ne_nil _ _)
    (sole_writable writable) (sole_declared _)
    (executables_end_otherwise sole_executable) (.cons printed .nil) complete
    (by rw [held, List.flatten_singleton])
  exact asks_only_of_read placeless read same

/-- Each operation that can be written and has no places can be asked for. -/
theorem operation_asked_for : ∃ request, AsksOnly request operation := by
  obtain ⟨text, printed⟩ := definitions_printed (sole_writable writable)
  obtain ⟨document, read, same⟩ := definitions_read_back (List.cons_ne_nil _ _)
    (sole_writable writable) (sole_declared _)
    (executables_end_otherwise sole_executable) printed
  have source : Document.ofSource (String.ofList text) = .ok document := by
    rw [Document.ofSource, String.toList_ofList, read]
  exact ⟨_, asks_only_of_read placeless source same⟩

end Requests

namespace Introspection

/-- The argument that names a type. -/
def nameArgument (typeName : String) : Argument := ⟨.unplaced "name", .unplaced (.string typeName)⟩

/-- A type by its name, and of it the names of its fields. -/
def fieldsOfType (typeName : String) (flag : Option Bool) : Field :=
  ⟨none, .unplaced "__type", some (.unplaced [nameArgument typeName]), none,
    some (plainSelections [filtered "fields" flag (plainSelections [leaf "name"])])⟩

/-- A query for the names of the fields of a type, with or without those that are deprecated. -/
def fieldsOperation (typeName : String) (flag : Option Bool) : Operation :=
  ⟨.query, none, none, none, plainSelections [fieldsOfType typeName flag]⟩

/-- A request is that query, however it is laid out. -/
def AsksForFields (request typeName : String) (flag : Option Bool) : Prop :=
  ∃ document, Document.ofSource request = .ok document ∧
    (document.seen undescribed).definitions =
      [.operation (.unplaced (fieldsOperation typeName flag))]

theorem fields_operation_writable (typeName : String) (flag : Option Bool) :
    (fieldsOperation typeName flag).Writable where
  name := nofun
  filled := nofun
  variableNames := nofun
  definitions := nofun
  directives := no_directives_writable
  selects := List.cons_ne_nil _ _
  selections := by
    have name : SelectionsWritable (plainSelections [leaf "name"]) :=
      plain_writable (List.forall_mem_singleton.mpr (leaf_writable (by decide)))
    have fields := filtered_writable (List.cons_ne_nil _ _) name
      (show Name.isValid "fields" = true by decide) flag
    have argument : ArgumentsWritable (some (.unplaced [nameArgument typeName])) :=
      one_argument_writable (by decide) trivial
    have type : (Selection.field (.unplaced (fieldsOfType typeName flag))).Writable :=
      ⟨⟨nofun, show Name.isValid "__type" = true by decide, argument, no_directives_writable⟩,
        List.cons_ne_nil _ _, plain_writable (List.forall_mem_singleton.mpr fields)⟩
    exact plain_writable (List.forall_mem_singleton.mpr type)

theorem fields_operation_placeless (typeName : String) (flag : Option Bool) :
    (Definition.operation (.unplaced (fieldsOperation typeName flag))).placeless =
      .operation (.unplaced (fieldsOperation typeName flag)) := by
  cases flag <;> rfl

/-- The names in answer to the query. -/
def fieldNamesAnswer (names : List String) : Value :=
  .object [("data", .object [("__type", .object
    [("fields", .list (names.map fun name => .object [("name", .string name)]))])])]

end Introspection

variable {σ : Type} {executor : Executor σ}

namespace Executor.Introspects

variable (introspects : executor.Introspects) {scope : RequestScope}

include introspects

/-- The argument that names a type is what is written. -/
theorem supplies_name (typeName : String) {field : Field}
    (asked : field.arguments = some (.unplaced [Introspection.nameArgument typeName])) :
    executor.Supplies scope field Introspection.typeField.arguments
      [("name", .string typeName)] := by
  intro located same
  have given := only_argument_found rfl ((congrArg Field.arguments same).trans asked)
  obtain ⟨literal, found, shown⟩ := Option.map_eq_some_iff.mp given
  have coerced : executor.coerceLiteral scope.variableValues (.string typeName) (.named "String") =
    pure (.string typeName) := introspects.scalar_coerced _ .string rfl rfl
  have there : executor.isNullish (.string typeName) = false := introspects.present rfl
  have argument : located.argument? "name" = some literal := found
  have adapted (value : Value) : (ExceptT.adapt (InputError.invalidArgument "name")
      (pure value : Coercion σ Value) : Action σ InputError Value) = pure value := rfl
  simp only [Introspection.typeField, Executor.coerceArguments, Executor.coerceArgument,
    Located.unplaced, argument, Option.map_some, shown, Executor.givenOrDefault, TypeRef.nullable,
    coerced, pure_bind, there, adapted]
  rfl

section Entry

variable {root : ObjectType} {definition : TypeDefinition}
  (among : definition ∈ executor.schema.types)
  (entry : root.field? "__type" = some Introspection.typeField)
  (resolved : executor.resolver? root.name.node "__type" =
    some (.ofFunction Introspection.typeByName))

include among entry resolved

/-- A type that is asked for by its name is answered as the record of the type is. -/
theorem gives_entry {field : Field} {depth : Nat} {answer : Object}
    (named : field.name.node = "__type")
    (asked : field.arguments = some (.unplaced [Introspection.nameArgument definition.name]))
    (answers : ∀ type : ObjectType, type.Stands Introspection.typeObject executor.schema →
      executor.AnswersBy scope depth type (Introspection.typeValue definition)
        field.selections.toList answer) :
    executor.Gives scope depth root (.object []) field.alone (.object answer) := by
  obtain ⟨type, stands⟩ := introspects.holds.object Introspection.typeObject
    (by simp [Introspection.objects])
  have found : executor.schema.type? definition.name = some definition :=
    (Document.type_found_iff introspects.distinct).mpr ⟨among, rfl⟩
  have declared : root.selectable? field.name.node = some Introspection.typeField := by
    rw [named]
    exact entry
  have resolver : executor.resolver? root.name.node field.name.node =
      some (.ofFunction Introspection.typeByName) := by rw [named, resolved]
  refine ⟨Introspection.typeField, Introspection.typeValue definition, declared,
    .by_function resolver (introspects.supplies_name definition.name asked) ?_, ?_⟩
  · intro context own _ arguments
    have named : (context.argument? "name").bind Value.asString? = some definition.name := by
      rw [FieldContext.argument?, arguments]
      rfl
    rw [Introspection.typeByName, named, own]
    simp only [Introspection.namedValue, found]
  · rw [alone_selection_sets]
    exact .object stands.typed (introspects.present rfl) (answers type stands)

end Entry

/-- The names of the fields of a type are answered as they are reported. -/
theorem fields_answer {type : ObjectType} {definition : TypeDefinition}
    (stands : type.Stands Introspection.typeObject executor.schema)
    (among : definition ∈ executor.schema.types) (flag : Option Bool) (depth : Nat) :
    AnswersEach executor scope (depth + 1) type (Introspection.typeValue definition)
      [Introspection.filtered "fields" flag (plainSelections [Introspection.leaf "name"])]
      [("fields", Introspection.reportedFields executor.schema definition (flag.getD false)
        fun field => .object [("name", .string field.name.node)])] := by
  refine ⟨⟨by simp [Introspection.filtered], List.pairwise_singleton _ _⟩, .cons ⟨rfl, ?_⟩ .nil⟩
  refine introspects.gives_fields stands among flag fun object same _ _ _ _ _ _ => ?_
  refine ⟨⟨by simp [Introspection.leaf], by decide⟩, .cons ⟨rfl, ?_⟩ .nil⟩
  exact introspects.gives_plain (by simp [Introspection.objects]) same rfl rfl (by decide) rfl
    (introspects.shows_name _)

end Executor.Introspects

/-- A request for one type by its name is answered by what its record is answered by. -/
theorem type_answered {source queryName : String} {mutationName : Option String}
    {given : Resolvers σ} (built : executor.BuiltFrom source queryName mutationName given)
    (leaves : LeavesIntrospection queryName "__type" given) {type : TypeDefinition}
    (among : type ∈ executor.schema.types) {request : String} {document : Document}
    (read : Document.ofSource request = .ok document) {field : Field}
    (key : field.responseKey = "__type") (named : field.name.node = "__type")
    (asked : field.arguments = some (.unplaced [Introspection.nameArgument type.name]))
    (unmarked : field.directives = none)
    (selected : (document.seen undescribed).selectOperation none =
      .ok (.unplaced ⟨.query, none, none, none, plainSelections [field]⟩))
    {depth : Nat} {answer : Object}
    (answers : ∀ object : ObjectType, object.Stands Introspection.typeObject executor.schema →
      executor.AnswersBy ⟨document, []⟩ depth object (Introspection.typeValue type)
        field.selections.toList answer) (context : σ) :
    executor.execute (depth + 1) ⟨request, [], none⟩ context =
      some (.ok (.object [("data", .object [("__type", .object answer)])]), context) := by
  have introspects := built.introspects leaves
  obtain ⟨root, rooted, root_named, -, entry⟩ := Schema.accepted_root built.accepted
  have query := built.query_name
  have resolved : executor.resolver? root.name.node "__type" =
      some (.ofFunction Introspection.typeByName) := by
    have own := built.resolved (List.mem_of_getElem? (i := 1) rfl)
      (fun resolver there => query ▸ leaves.root resolver there)
    rw [root_named, ← query]
    exact own
  have gives : executor.Gives ⟨document, []⟩ depth root (.object []) field.alone (.object answer) :=
    introspects.gives_entry among entry resolved named asked answers
  have each : AnswersEach executor ⟨document, []⟩ depth root (.object []) [field]
      [("__type", .object answer)] :=
    ⟨⟨List.forall_mem_singleton.mpr unmarked, List.pairwise_singleton _ _⟩,
      .cons ⟨key.symm, gives⟩ .nil⟩
  exact @execute_answered _ undescribed _ ⟨request, [], none⟩ _ _ _ (depth + 1) _ read selected
    rfl rooted each.selected context

section Fields

variable {source queryName : String} {mutationName : Option String} {given : Resolvers σ}
  {document merged : Document} {type : TypeDefinition} {fields : List (Located FieldDefinition)}

/-- The names of the fields that are listed: on the query root none is reserved. -/
def listedNames (queryName typeName : String) (deprecatedToo : Bool)
    (fields : List (Located FieldDefinition)) : List String :=
  ((fields.map (·.node)).filter fun field =>
    (deprecatedToo || !field.deprecation.isDeprecated) &&
      !(typeName == queryName && Name.isReserved field.name.node)).map (·.name.node)

/-- All fields are listed if none is reserved, or the type is another one than the root. -/
theorem all_listed_iff {typeName : String} :
    listedNames queryName typeName true fields = fields.map (·.node.name.node) ↔
      (typeName = queryName → ∀ field ∈ fields, Name.isReserved field.node.name.node = false) := by
  constructor
  · intro same root field there
    have kept := congrArg List.length same
    rw [listedNames, List.length_map, List.length_map,
      ← List.length_map fun field : Located FieldDefinition => field.node] at kept
    have each := List.length_filter_eq_length_iff.mp kept _ (List.mem_map_of_mem there)
    simpa [root] using each
  · intro free
    rw [listedNames, List.filter_eq_self.mpr, List.map_map]
    · rfl
    · intro field inside
      obtain ⟨located, there, rfl⟩ := List.mem_map.mp inside
      by_cases root : typeName = queryName
      · simp [free root located there]
      · simp [root]

/-- In a schema a type has the fields of the merged document; the root has reserved ones behind. -/
theorem schema_type_fields (accepted : Schema.ofSource source queryName mutationName =
      .ok executor.schema)
    (read : Document.ofText (Schema.fullText source.toList) = .ok document)
    (merging : document.mergeExtensions document.extensions = .ok merged)
    (among : type ∈ merged.types) (declared : type.fields? = some fields) :
    executor.schema.queryName = queryName ∧ ∃ found ∈ executor.schema.types,
      found.name = type.name ∧ ∃ more, found.fields? = some (fields ++ more) ∧
        ∀ field ∈ more, type.name = queryName ∧ Name.isReserved field.node.name.node = true := by
  obtain ⟨own, also_read, accepted⟩ := Schema.of_source_ok_iff.mp accepted
  obtain rfl : document = own := Except.ok.inj (read.symm.trans also_read)
  obtain ⟨indexed, -, fit, same⟩ := Document.accepted_iff.mp accepted
  obtain rfl : merged = document.merged := Except.ok.inj (merging.symm.trans
    (Document.merge_extensions_distinct (Document.of_definitions_distinct_types indexed)
      fit.bases fit.fields))
  have reserved : ∀ field ∈ Introspection.entries, Name.isReserved field.node.name.node = true :=
    List.forall_mem_cons.mpr ⟨by decide, List.forall_mem_singleton.mpr (by decide)⟩
  rw [same, Schema.types, Document.schema, Document.map_objects_types]
  refine ⟨rfl, _, List.mem_map_of_mem among, ?_⟩
  cases type with
  | object object =>
      obtain rfl : object.fields = fields := Option.some.inj declared
      by_cases root : object.name.node = queryName
      · rw [TypeDefinition.mapObject, if_pos root]
        exact ⟨rfl, Introspection.entries, rfl, fun field there => ⟨root, reserved field there⟩⟩
      · rw [TypeDefinition.mapObject, if_neg root]
        exact ⟨rfl, [], congrArg some (List.append_nil _).symm, List.forall_mem_nil _⟩
  | interface interface =>
      obtain rfl : interface.fields = fields := Option.some.inj declared
      exact ⟨rfl, [], congrArg some (List.append_nil _).symm, List.forall_mem_nil _⟩
  | _ => cases declared

/-- Fields of the root that are reserved are not reported, whichever there are. -/
theorem reported_as_listed {schema : Schema} {found : TypeDefinition} {typeName : String}
    (query : schema.queryName = queryName) (named : found.name = typeName)
    {more : List (Located FieldDefinition)} (extended : found.fields? = some (fields ++ more))
    (hidden : ∀ field ∈ more, typeName = queryName ∧ Name.isReserved field.node.name.node = true)
    (flag : Bool) :
    Introspection.reportedFields schema found flag
        (fun field => .object [("name", .string field.name.node)]) =
      .list ((listedNames queryName typeName flag fields).map
        fun name => .object [("name", .string name)]) := by
  have filter : Introspection.reportsField schema found flag = fun field =>
      (flag || !field.deprecation.isDeprecated) &&
        !(typeName == queryName && Name.isReserved field.name.node) := by
    funext field
    rw [Introspection.reportsField, named, query]
  have none_more : (more.map (·.node)).filter (fun field =>
      (flag || !field.deprecation.isDeprecated) &&
        !(typeName == queryName && Name.isReserved field.name.node)) = [] := by
    refine List.filter_eq_nil_iff.mpr fun field inside => ?_
    obtain ⟨located, there, rfl⟩ := List.mem_map.mp inside
    obtain ⟨root, reserved⟩ := hidden located there
    simp [root, reserved]
  rw [Introspection.reportedFields, extended, filter, Option.map_some, Option.getD_some,
    List.map_append, List.filter_append, none_more, List.append_nil, listedNames, List.map_map]
  rfl

/-- A request for the fields of a type is answered by what is listed of them. -/
theorem fields_listed (built : executor.BuiltFrom source queryName mutationName given)
    (leaves : LeavesIntrospection queryName "__type" given)
    (read : Document.ofText (Schema.fullText source.toList) = .ok document)
    (merging : document.mergeExtensions document.extensions = .ok merged)
    (among : type ∈ merged.types) (declared : type.fields? = some fields) {flag : Option Bool}
    {request : String} (asks : Introspection.AsksForFields request type.name flag) (depth : Nat)
    (context : σ) :
    executor.execute (depth + 4) ⟨request, [], none⟩ context =
      some (.ok (Introspection.fieldNamesAnswer
        (listedNames queryName type.name (flag.getD false) fields)), context) := by
  obtain ⟨asked, requested, asks⟩ := asks
  obtain ⟨query, found, there, named, more, extended, hidden⟩ :=
    schema_type_fields built.accepted read merging among declared
  have introspects := built.introspects leaves
  have selected : (asked.seen undescribed).selectOperation none =
      .ok (.unplaced (Introspection.fieldsOperation found.name flag)) := by
    rw [Document.selectOperation, Document.operations, asks, named]
    rfl
  have answered := type_answered built leaves there requested rfl rfl rfl rfl selected
    (fun object stands => (introspects.fields_answer stands there flag (depth + 1)).selected) context
  rwa [reported_as_listed query named extended hidden] at answered

/--
A type can be asked for its fields, and is listed with exactly those that it and its extensions
declare, in that order, without those that are deprecated unless they are asked for. Only the query
root lacks more: its fields with reserved names, which introspection takes for its own.
-/
theorem reported_fields_exact (built : executor.BuiltFrom source queryName mutationName given)
    (leaves : LeavesIntrospection queryName "__type" given)
    (read : Document.ofText (Schema.fullText source.toList) = .ok document)
    (merging : document.mergeExtensions document.extensions = .ok merged)
    (among : type ∈ merged.types) (declared : type.fields? = some fields) (flag : Option Bool) :
    (∃ request, Introspection.AsksForFields request type.name flag) ∧
    ∀ request, Introspection.AsksForFields request type.name flag → ∀ depth context,
      executor.execute (depth + 4) ⟨request, [], none⟩ context =
        some (.ok (Introspection.fieldNamesAnswer
          (listedNames queryName type.name (flag.getD false) fields)), context) :=
  ⟨operation_asked_for (Introspection.fields_operation_writable type.name flag)
    (Introspection.fields_operation_placeless type.name flag), fun _ asks depth context =>
    fields_listed built leaves read merging among declared asks depth context⟩

end Fields

/-- A root with a field of a reserved name, a deprecated one and one from an extension. -/
def reservedSource : String := "type Q{__a:Int b:Int@deprecated}extend type Q{c:Int}"

def reservedRequest : String :=
  "\x7b__type(name:\"Q\")\x7bfields(includeDeprecated:true)\x7bname\x7d\x7d\x7d"

/-- A document, the document that it is merged to, and the root of that with its fields. -/
def mergedRoot? (source queryName : String) :
    Option (Document × Document × TypeDefinition × List (Located FieldDefinition)) :=
  (Document.ofText (Schema.fullText source.toList)).toOption.bind fun document =>
    (document.mergeExtensions document.extensions).toOption.bind fun merged =>
      (merged.types.find? (·.name == queryName)).bind fun type =>
        type.fields?.map fun fields => (document, merged, type, fields)

theorem merged_root_parts {source queryName : String} {document merged : Document}
    {type : TypeDefinition} {fields : List (Located FieldDefinition)}
    (found : mergedRoot? source queryName = some (document, merged, type, fields)) :
    Document.ofText (Schema.fullText source.toList) = .ok document ∧
      document.mergeExtensions document.extensions = .ok merged ∧ type ∈ merged.types ∧
      type.fields? = some fields := by
  obtain ⟨_, read, rest⟩ := Option.bind_eq_some_iff.mp found
  obtain ⟨_, merging, rest⟩ := Option.bind_eq_some_iff.mp rest
  obtain ⟨_, among, rest⟩ := Option.bind_eq_some_iff.mp rest
  obtain ⟨_, declared, same⟩ := Option.map_eq_some_iff.mp rest
  cases same
  exact ⟨ok_of_to_option read, ok_of_to_option merging, List.mem_of_find?_eq_some among, declared⟩

theorem reserved_source_read :
    (Schema.ofSource reservedSource "Q" none).toOption.isSome = true ∧
    (mergedRoot? reservedSource "Q").map (fun (_, _, type, fields) =>
      (type.name, fields.map (·.node.name.node), listedNames "Q" "Q" true fields)) =
        some ("Q", ["__a", "b", "c"], ["b", "c"]) := by
  rw [Schema.of_source_spelled reservedSource String.toList_ofList, mergedRoot?,
    Schema.full_text_spelled, reservedSource, String.toList_ofList]
  decide +kernel

theorem reserved_request_asks : Introspection.AsksForFields reservedRequest "Q" (some true) := by
  have lexed : (TokenStream.ofSource reservedRequest).fault = none ∧
      Cursor.pieces (Cursor.attach [] (TokenStream.ofSource reservedRequest).tokens) =
        enclosed .braceOpen .braceClose (selectionPieces
          (Introspection.fieldsOperation "Q" (some true)).selections) ++
          [Token.endOfFile.plain] := by
    decide +kernel
  exact asks_only_printed (Introspection.fields_operation_writable "Q" (some true))
    (Introspection.fields_operation_placeless "Q" (some true)) (.bareQuery _ ⟨rfl, rfl, rfl, rfl⟩)
    lexed.1 lexed.2

/-- Of the root the reserved field is left out, even where nothing else is. -/
theorem reserved_field_unlisted :
    ∃ (executor : Executor Unit) (document merged : Document) (type : TypeDefinition)
      (fields : List (Located FieldDefinition)),
      Executor.ofSource reservedSource "Q" none [] = .ok executor ∧
      Document.ofText (Schema.fullText reservedSource.toList) = .ok document ∧
      document.mergeExtensions document.extensions = .ok merged ∧ type ∈ merged.types ∧
      type.fields? = some fields ∧ fields.map (·.node.name.node) = ["__a", "b", "c"] ∧
      executor.execute 4 ⟨reservedRequest, [], none⟩ () =
        some (.ok (Introspection.fieldNamesAnswer ["b", "c"]), ()) := by
  obtain ⟨schema, accepted⟩ := Option.isSome_iff_exists.mp reserved_source_read.1
  obtain ⟨executor, made, -, built⟩ :=
    executor_of_accepted (ok_of_to_option accepted) (List.forall_mem_nil _)
  obtain ⟨⟨document, merged, type, fields⟩, found, same⟩ :=
    Option.map_eq_some_iff.mp reserved_source_read.2
  obtain ⟨read, merging, among, declared⟩ := merged_root_parts found
  obtain ⟨named, names, listed⟩ := Prod.mk.inj same |>.imp_right Prod.mk.inj
  have leaves : LeavesIntrospection "Q" "__type" ([] : Resolvers Unit) :=
    ⟨List.forall_mem_nil _, List.forall_mem_nil _⟩
  have answered := (@reported_fields_exact _ _ _ _ _ _ _ _ _ _ built leaves read merging among
    declared (some true)).2 reservedRequest (named.symm ▸ reserved_request_asks) 0 ()
  rw [named, Option.getD_some, listed] at answered
  exact ⟨executor, document, merged, type, fields, made, read, merging, among, declared, names,
    answered⟩

end GraphQL
