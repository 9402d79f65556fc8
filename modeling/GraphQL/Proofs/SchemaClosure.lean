import GraphQL.Proofs.DistinctNames
import GraphQL.Proofs.SpelledTexts

/-!
Accepted schemas are closed.

Every type name that a definition or an extension writes stands for a type of a kind that fits there,
and both roots are object types. Nothing else is asked of the names in a document: a schema whose
names are in order can be refused only for a field that is declared twice.
-/

namespace GraphQL

/-- What kind of type a name stands for. -/
def Document.kind? (document : Document) (name : String) : Option TypeKind :=
  (document.type? name).map TypeDefinition.kind

section Resolution

variable (kind? : String → Option TypeKind)

/-- The type of an argument or input field is a scalar, an enum or an input object. -/
def InputDefinition.Resolves (input : InputDefinition) : Prop :=
  kind? input.type.node.innermost ∈ [some .scalar, some .enum, some .inputObject]

structure FieldDefinition.Resolves (field : FieldDefinition) : Prop where
  type : (kind? field.type.node.innermost).isSome = true
  arguments : ∀ argument ∈ field.arguments, argument.node.Resolves kind?

structure ObjectType.Resolves (object : ObjectType) : Prop where
  fields : ∀ field ∈ object.fields, field.node.Resolves kind?
  interfaces : ∀ name ∈ object.interfaceNames, kind? name = some .interface

/-- All names of types that a definition writes stand for types that fit. -/
def TypeDefinition.Resolves : TypeDefinition → Prop
  | .object definition => definition.Resolves kind?
  | .interface definition => ∀ field ∈ definition.fields, field.node.Resolves kind?
  | .union definition => ∀ member ∈ definition.members, kind? member.node = some .object
  | .inputObject definition => ∀ field ∈ definition.fields, field.node.Resolves kind?
  | .scalar _ | .enum _ => True

/-- Both roots are object types. -/
structure Rooted (queryName : String) (mutationName : Option String) : Prop where
  query : kind? queryName = some .object
  mutation : ∀ name ∈ mutationName, kind? name = some .object

end Resolution

/-- All names of types resolve, those written in extensions among them. -/
structure Document.Closed (document : Document) : Prop where
  types : ∀ type ∈ document.types, type.Resolves document.kind?
  extensions : ∀ extension ∈ document.extensions, extension.node.Resolves document.kind?
  bases : ∀ extension ∈ document.extensions,
    document.kind? extension.node.name.node = some .object

theorem TypeDefinition.Resolves.output {kind? : String → Option TypeKind}
    {type : TypeDefinition} (resolved : type.Resolves kind?) :
    ∀ field ∈ type.fields?.getD [], field.node.Resolves kind? := by
  cases type with
  | object definition => exact resolved.fields
  | interface definition => exact resolved
  | _ => exact List.forall_mem_nil _

section Checks

variable (document : Document)

namespace Document

theorem check_each_iff {α : Type} (check : α → Except SchemaError Unit) (list : List α) :
    checkEach check list = .ok () ↔ ∀ x ∈ list, check x = .ok () := by
  induction list with
  | nil => simp [checkEach]
  | cons first rest ih =>
      rw [checkEach, List.forall_mem_cons, ← ih]
      cases checked : check first with
      | error error => simp
      | ok _ => simp

theorem check_input_iff (owner : String) (input : Located InputDefinition) :
    document.checkInput owner input = .ok () ↔ input.node.Resolves document.kind? := by
  rw [checkInput, InputDefinition.Resolves, kind?]
  cases document.type? input.node.type.node.innermost with
  | none => simp
  | some type => cases type <;> simp [TypeDefinition.isInput, TypeDefinition.kind]

theorem check_field_iff (owner : String) (field : Located FieldDefinition) :
    document.checkField owner field = .ok () ↔ field.node.Resolves document.kind? := by
  have parts : field.node.Resolves document.kind? ↔
      (document.kind? field.node.type.node.innermost).isSome = true ∧
        ∀ argument ∈ field.node.arguments, argument.node.Resolves document.kind? :=
    ⟨fun resolved => ⟨resolved.type, resolved.arguments⟩, fun both => ⟨both.1, both.2⟩⟩
  rw [checkField, parts, kind?]
  cases document.type? field.node.type.node.innermost with
  | none => simp
  | some type => simp [check_each_iff, check_input_iff]

theorem check_interface_iff (owner : String) (name : Located String) :
    document.checkInterface owner name = .ok () ↔
      document.kind? name.node = some .interface := by
  rw [checkInterface, kind?]
  cases document.type? name.node with
  | none => simp
  | some type => cases type <;> simp [TypeDefinition.kind]

theorem check_member_iff (owner : String) (name : Located String) :
    document.checkMember owner name = .ok () ↔ document.kind? name.node = some .object := by
  rw [checkMember, kind?]
  cases document.type? name.node with
  | none => simp
  | some type => cases type <;> simp [TypeDefinition.kind]

theorem check_type_iff (type : TypeDefinition) :
    document.checkType type = .ok () ↔ type.Resolves document.kind? := by
  have fields : checkEach (document.checkField type.name) (type.fields?.getD []) = .ok () ↔
      ∀ field ∈ type.fields?.getD [], field.node.Resolves document.kind? := by
    simp only [check_each_iff, check_field_iff]
  unfold checkType
  cases checked : checkEach (document.checkField type.name) (type.fields?.getD []) with
  | error error =>
      refine iff_of_false nofun fun resolved => ?_
      rw [fields.mpr resolved.output] at checked
      cases checked
  | ok _ =>
      have output := fields.mp checked
      cases type with
      | object definition =>
          simp only [check_each_iff, check_interface_iff]
          exact ⟨fun interfaces => ⟨output, List.forall_mem_map.mpr interfaces⟩,
            fun resolved => List.forall_mem_map.mp resolved.interfaces⟩
      | interface definition => exact iff_of_true rfl output
      | union definition => simp only [check_each_iff, check_member_iff, TypeDefinition.Resolves]
      | inputObject definition =>
          simp only [check_each_iff, check_input_iff, TypeDefinition.Resolves]
      | scalar definition => exact iff_of_true rfl trivial
      | enum definition => exact iff_of_true rfl trivial

/-- The check of all references finds nothing wrong exactly if all names resolve. -/
theorem check_references_iff :
    document.checkReferences = .ok () ↔
      ∀ type ∈ document.types, type.Resolves document.kind? := by
  simp only [checkReferences, check_each_iff, check_type_iff]

theorem object_found_kind (name : String) :
    (document.object? name).isSome = true ↔ document.kind? name = some .object := by
  rw [object?, kind?]
  cases document.type? name with
  | none => simp
  | some type => cases type <;> simp [TypeDefinition.kind]

end Document

theorem Schema.check_roots_iff (queryName : String) (mutationName : Option String) :
    Schema.checkRoots document queryName mutationName = .ok () ↔
      Rooted document.kind? queryName mutationName := by
  have parts : Rooted document.kind? queryName mutationName ↔
      document.kind? queryName = some .object ∧
        ∀ name ∈ mutationName, document.kind? name = some .object :=
    ⟨fun rooted => ⟨rooted.query, rooted.mutation⟩, fun both => ⟨both.1, both.2⟩⟩
  rw [parts]
  simp only [← Document.object_found_kind]
  unfold checkRoots
  cases document.object? queryName with
  | none => simp
  | some root =>
      cases mutationName with
      | none => simp
      | some name => cases named : document.object? name <;> simp [named]

end Checks

section Parts

variable {kind? : String → Option TypeKind}

theorem with_parts_resolves (object : ObjectType) (parts : List ObjectType) :
    (object.withParts parts).Resolves kind? ↔
      object.Resolves kind? ∧ ∀ part ∈ parts, part.Resolves kind? := by
  constructor
  · intro resolved
    obtain ⟨fields, more⟩ := List.forall_mem_append.mp resolved.fields
    have interfaces (name : String) (there : name ∈ object.interfaceNames ∨
        ∃ part ∈ parts, name ∈ part.interfaceNames) : kind? name = some .interface :=
      resolved.interfaces name ((object.with_parts_interfaces parts name).mpr there)
    exact ⟨⟨fields, fun name own => interfaces name (.inl own)⟩, fun part there =>
      ⟨fun field inside => more field (List.mem_flatMap.mpr ⟨part, there, inside⟩),
        fun name inside => interfaces name (.inr ⟨part, there, inside⟩)⟩⟩
  · rintro ⟨own, each⟩
    refine ⟨List.forall_mem_append.mpr ⟨own.fields, fun field inside => ?_⟩, fun name inside => ?_⟩
    · obtain ⟨part, there, inside⟩ := List.mem_flatMap.mp inside
      exact (each part there).fields field inside
    · rcases (object.with_parts_interfaces parts name).mp inside with given | ⟨part, there, given⟩
      · exact own.interfaces name given
      · exact (each part there).interfaces name given

/-- Written into their base types, extensions resolve if they do where they stand. -/
theorem with_extensions_resolves {document : Document} {extensions : List (Located ObjectType)}
    (known : document.Extends extensions) :
    (∀ type ∈ (document.withExtensions extensions).types, type.Resolves kind?) ↔
      (∀ type ∈ document.types, type.Resolves kind?) ∧
        ∀ extension ∈ extensions, extension.node.Resolves kind? := by
  rw [Document.withExtensions, Document.map_objects_types]
  constructor
  · intro all
    have own (type : TypeDefinition) (there : type ∈ document.types) :=
      all _ (List.mem_map_of_mem there)
    refine ⟨fun type there => ?_, fun extension there => ?_⟩
    · cases type with
      | object definition => exact ((with_parts_resolves _ _).mp (own _ there)).1
      | _ => exact own _ there
    · obtain ⟨base, found⟩ := Option.isSome_iff_exists.mp (known extension there)
      obtain ⟨inside, named⟩ := document.object_found found
      refine ((with_parts_resolves _ _).mp (own _ inside)).2 _ (List.mem_filter.mpr ?_)
      exact ⟨List.mem_map_of_mem there, beq_iff_eq.mpr named.symm⟩
  · rintro ⟨types, parts⟩
    refine List.forall_mem_map.mpr fun type there => ?_
    cases type with
    | object definition =>
        refine (with_parts_resolves _ _).mpr ⟨types _ there, fun part inside => ?_⟩
        obtain ⟨extension, given, rfl⟩ := List.mem_map.mp (List.mem_filter.mp inside).1
        exact parts extension given
    | _ => exact types _ there

theorem map_objects_kind {document : Document} {change : ObjectType → ObjectType}
    (keeps : ∀ object, (change object).name = object.name) :
    (document.mapObjects change).kind? = document.kind? := by
  funext name
  rw [Document.kind?, Document.kind?, Document.map_objects_type keeps, Option.map_map]
  congr 1
  funext type
  cases type <;> rfl

end Parts

/-- The two fields that introspection starts from. -/
def Introspection.entries : List (Located FieldDefinition) :=
  [.unplaced schemaField, .unplaced typeField]

def ObjectType.withEntries (object : ObjectType) : ObjectType :=
  { object with fields := object.fields ++ Introspection.entries }

namespace Introspection

variable {object : ObjectType} {field : FieldDefinition}

theorem add_entry_fresh (fresh : field.name.node ∉ fieldNames object.fields) :
    addEntry object field = .ok { object with fields := object.fields ++ [.unplaced field] } := by
  rw [addEntry, (object.field_none_iff _).mpr fresh]

theorem add_entry_taken (taken : field.name.node ∈ fieldNames object.fields) :
    ∃ span, addEntry object field =
      .error (.parse (.duplicate .field field.name.node) span) := by
  rw [addEntry]
  cases found : object.field? field.name.node with
  | none => exact absurd taken ((object.field_none_iff _).mp found)
  | some other => exact ⟨other.name.span, rfl⟩

theorem with_entries_distinct_iff :
    object.withEntries.DistinctFields ↔
      object.DistinctFields ∧ schemaField.name.node ∉ fieldNames object.fields ∧
        typeField.name.node ∉ fieldNames object.fields := by
  have both : fieldNames entries = [schemaField.name.node, typeField.name.node] := rfl
  have apart : [schemaField.name.node, typeField.name.node].Nodup := by decide
  rw [ObjectType.DistinctFields, ObjectType.withEntries, fieldNames, List.map_append,
    ← fieldNames, ← fieldNames, both, List.nodup_append]
  constructor
  · rintro ⟨own, -, differ⟩
    exact ⟨own, fun there => differ _ there _ List.mem_cons_self rfl,
      fun there => differ _ there _ (List.mem_cons_of_mem _ List.mem_cons_self) rfl⟩
  · rintro ⟨own, first, second⟩
    refine ⟨own, apart, fun name there other entry same => ?_⟩
    subst same
    rcases List.mem_cons.mp entry with rfl | entry
    · exact first there
    · exact second (List.mem_singleton.mp entry ▸ there)

/-- The field that asks for one type comes behind the one that asks for the schema. -/
theorem second_entry_taken_iff :
    typeField.name.node ∈ fieldNames (object.fields ++ [.unplaced schemaField]) ↔
      typeField.name.node ∈ fieldNames object.fields := by
  have other : typeField.name.node ∉ fieldNames [.unplaced schemaField] := by decide
  rw [fieldNames, List.map_append, List.mem_append]
  exact or_iff_left other

theorem add_entries_distinct (distinct : object.withEntries.DistinctFields) :
    addEntries object = .ok object.withEntries := by
  obtain ⟨-, first, second⟩ := with_entries_distinct_iff.mp distinct
  have extended := @add_entry_fresh
    { object with fields := object.fields ++ [.unplaced schemaField] } typeField
    (mt second_entry_taken_iff.mp second)
  rw [List.append_assoc] at extended
  rw [addEntries, add_entry_fresh first]
  exact extended

theorem add_entries_repeated (apart : object.DistinctFields)
    (repeated : ¬ object.withEntries.DistinctFields) :
    ∃ name span, addEntries object = .error (.parse (.duplicate .field name) span) := by
  rw [addEntries]
  by_cases first : schemaField.name.node ∈ fieldNames object.fields
  · obtain ⟨span, refused⟩ := add_entry_taken first
    exact ⟨_, span, by rw [refused]⟩
  · rw [add_entry_fresh first]
    by_cases second : typeField.name.node ∈ fieldNames object.fields
    · obtain ⟨span, refused⟩ := @add_entry_taken
        { object with fields := object.fields ++ [.unplaced schemaField] } typeField
        (second_entry_taken_iff.mpr second)
      exact ⟨_, span, refused⟩
    · exact absurd (with_entries_distinct_iff.mpr ⟨apart, first, second⟩) repeated

end Introspection

namespace Document

def merged (document : Document) : Document := document.withExtensions document.extensions

/-- What has to hold of a document for a schema to be built from it. -/
structure Buildable (document : Document) (queryName : String) (mutationName : Option String) :
    Prop where
  bases : document.Extends document.extensions
  fields : document.merged.DistinctFields
  resolves : ∀ type ∈ document.merged.types, type.Resolves document.kind?
  rooted : Rooted document.kind? queryName mutationName
  entries : ∀ root, document.merged.object? queryName = some root →
    root.withEntries.DistinctFields

/-- The schema of a document that is fit for one. -/
def schema (document : Document) (queryName : String) (mutationName : Option String) : Schema where
  document := document.merged.mapObjects fun object =>
    if object.name.node = queryName then object.withEntries else object
  queryName := queryName
  mutationName := mutationName

section Building

variable {document : Document} {queryName : String} {mutationName : Option String}

theorem merged_kind (document : Document) : document.merged.kind? = document.kind? :=
  map_objects_kind (ObjectType.written_out_name · _)

/-- The query root of a document, with the parts of its extensions. -/
theorem merged_root_found (rooted : Rooted document.kind? queryName mutationName) :
    ∃ root, document.merged.object? queryName = some root := by
  rw [← Option.isSome_iff_exists, object_found_kind, merged_kind]
  exact rooted.query

theorem Buildable.closed (fit : document.Buildable queryName mutationName) : document.Closed := by
  obtain ⟨types, extensions⟩ := (with_extensions_resolves fit.bases).mp fit.resolves
  exact ⟨types, extensions, fun extension there =>
    (object_found_kind _ _).mp (fit.bases extension there)⟩

section Distinct

variable (distinct : document.DistinctTypes)

include distinct

/-- In the last step the fields of introspection are appended to the query root. -/
theorem root_extended {root : ObjectType} (found : document.merged.object? queryName = some root)
    (entries : root.withEntries.DistinctFields) :
    updateObject? queryName Introspection.addEntries document.merged.definitions =
      some (.ok (document.schema queryName mutationName).document.definitions) :=
  update_object_found ObjectType.withEntries
    (distinct.map_objects (ObjectType.written_out_name · _)) found
    (Introspection.add_entries_distinct entries)

theorem root_refused {root : ObjectType} (found : document.merged.object? queryName = some root)
    (apart : root.DistinctFields) (repeated : ¬ root.withEntries.DistinctFields) :
    ∃ name span, updateObject? queryName Introspection.addEntries document.merged.definitions =
      some (.error (.parse (.duplicate .field name) span)) := by
  obtain ⟨name, span, refused⟩ := Introspection.add_entries_repeated apart repeated
  have merged : document.merged.DistinctTypes :=
    distinct.map_objects (ObjectType.written_out_name · _)
  refine ⟨name, span, ?_⟩
  rw [update_object_eq merged document.merged.span, found, Option.map_some, refused]
  rfl

/-- Once extensions are merged and names resolve, all depends on the fields of the query root. -/
theorem merged_accepted_or_refused (bases : document.Extends document.extensions)
    (fields : document.merged.DistinctFields)
    (resolves : ∀ type ∈ document.merged.types, type.Resolves document.kind?)
    (rooted : Rooted document.kind? queryName mutationName) :
    Schema.ofDocument document queryName mutationName =
        .ok (document.schema queryName mutationName) ∨
      ¬ document.Buildable queryName mutationName ∧
        ∃ name span, Schema.ofDocument document queryName mutationName =
          .error (.parse (.duplicate .field name) span) := by
  have merging : document.mergeExtensions document.extensions = .ok document.merged :=
    merge_extensions_distinct distinct bases fields
  have referring : document.merged.checkReferences = .ok () := by
    rw [check_references_iff, merged_kind]
    exact resolves
  have rooting : Schema.checkRoots document.merged queryName mutationName = .ok () :=
    (Schema.check_roots_iff _ _ _).mpr ((merged_kind document).symm ▸ rooted)
  obtain ⟨root, found⟩ := merged_root_found rooted
  rw [Schema.ofDocument, merging]
  simp only [referring, rooting, bind, Except.bind]
  by_cases entries : root.withEntries.DistinctFields
  · have extended := @root_extended document queryName mutationName distinct root found entries
    rw [extended]
    exact .inl rfl
  · obtain ⟨name, span, refused⟩ := root_refused distinct found
      (fields root (object_found found).1) entries
    rw [refused]
    exact .inr ⟨fun fit => entries (fit.entries root found), name, span, rfl⟩

section Apart

variable (apart : document.DistinctFields)

include apart

theorem accepted_buildable {schema : Schema}
    (built : Schema.ofDocument document queryName mutationName = .ok schema) :
    document.Buildable queryName mutationName := by
  rw [Schema.ofDocument] at built
  cases merging : document.mergeExtensions document.extensions with
  | error error => simp [merging, bind, Except.bind] at built
  | ok merged =>
      obtain ⟨bases, fields, same⟩ := (merge_extensions_ok_iff distinct apart).mp merging
      obtain rfl : merged = document.merged := same
      simp only [merging, bind, Except.bind] at built
      cases referring : document.merged.checkReferences with
      | error error => simp [referring] at built
      | ok _ =>
          cases rooting : Schema.checkRoots document.merged queryName mutationName with
          | error error => simp [referring, rooting] at built
          | ok _ =>
              simp only [referring, rooting] at built
              rw [check_references_iff, merged_kind] at referring
              rw [Schema.check_roots_iff, merged_kind] at rooting
              refine ⟨bases, fields, referring, rooting, fun root found => ?_⟩
              by_cases entries : root.withEntries.DistinctFields
              · exact entries
              · obtain ⟨name, span, refused⟩ := root_refused distinct found
                  (fields root (object_found found).1) entries
                simp [refused] at built

/-- A schema is built exactly from the documents that are fit for one. -/
theorem of_document_ok_iff {schema : Schema} :
    Schema.ofDocument document queryName mutationName = .ok schema ↔
      document.Buildable queryName mutationName ∧
        schema = document.schema queryName mutationName := by
  have accepted (fit : document.Buildable queryName mutationName) :
      Schema.ofDocument document queryName mutationName =
        .ok (document.schema queryName mutationName) := by
    rcases merged_accepted_or_refused distinct fit.bases fit.fields fit.resolves fit.rooted
      with accepted | ⟨unfit, -⟩
    · exact accepted
    · exact absurd fit unfit
  constructor
  · intro built
    have fit := accepted_buildable distinct apart built
    rw [accepted fit] at built
    cases built
    exact ⟨fit, rfl⟩
  · rintro ⟨fit, rfl⟩
    exact accepted fit

/-- A document whose names are in order is refused only for a field that is declared twice. -/
theorem closed_accepted_or_refused (closed : document.Closed)
    (rooted : Rooted document.kind? queryName mutationName) :
    Schema.ofDocument document queryName mutationName =
        .ok (document.schema queryName mutationName) ∨
      ∃ name span, Schema.ofDocument document queryName mutationName =
        .error (.parse (.duplicate .field name) span) := by
  have bases : document.Extends document.extensions := fun extension there =>
    (object_found_kind _ _).mpr (closed.bases extension there)
  have resolves : ∀ type ∈ document.merged.types, type.Resolves document.kind? :=
    (with_extensions_resolves bases).mpr ⟨closed.types, closed.extensions⟩
  by_cases fields : document.merged.DistinctFields
  · exact (merged_accepted_or_refused distinct bases fields resolves rooted).imp_right (·.2)
  · obtain ⟨_, _, field, _, refused⟩ := merge_extensions_repeated distinct apart bases fields
    refine .inr ⟨field.node.name.node, field.node.name.span, ?_⟩
    rw [Schema.ofDocument, refused]
    rfl

end Apart

end Distinct

/-- A schema is built from a document that repeats no name. -/
structure Accepted (document : Document) (queryName : String) (mutationName : Option String)
    (schema : Schema) : Prop where
  indexed : ofDefinitions document.definitions document.span = .ok document
  fields : document.DistinctFields
  built : Schema.ofDocument document queryName mutationName = .ok schema

theorem accepted_iff {schema : Schema} :
    document.Accepted queryName mutationName schema ↔
      ofDefinitions document.definitions document.span = .ok document ∧ document.DistinctFields ∧
        document.Buildable queryName mutationName ∧
        schema = document.schema queryName mutationName := by
  constructor
  · rintro ⟨indexed, fields, built⟩
    have distinct := of_definitions_distinct_types indexed
    exact ⟨indexed, fields, (of_document_ok_iff distinct fields).mp built⟩
  · rintro ⟨indexed, fields, fit⟩
    have distinct := of_definitions_distinct_types indexed
    exact ⟨indexed, fields, (of_document_ok_iff distinct fields).mpr fit⟩

/-- Neither merging extensions nor extending the root changes what a name stands for. -/
theorem schema_kind (document : Document) :
    (document.schema queryName mutationName).document.kind? = document.kind? := by
  refine (map_objects_kind fun object => ?_).trans (merged_kind document)
  split <;> rfl

theorem schema_query_root {root : ObjectType}
    (found : document.merged.object? queryName = some root) :
    (document.schema queryName mutationName).queryType? = some root.withEntries := by
  have keeps (object : ObjectType) :
      (if object.name.node = queryName then object.withEntries else object).name = object.name := by
    split <;> rfl
  rw [Schema.queryType?, schema, map_objects_object keeps, found, Option.map_some,
    if_pos (object_found found).2]

end Building

end Document

/-- A schema comes of a source exactly if it comes of the document that is read from the source. -/
theorem Schema.of_source_ok_iff {source queryName : String} {mutationName : Option String}
    {schema : Schema} :
    Schema.ofSource source queryName mutationName = .ok schema ↔
      ∃ document, Document.ofText (Schema.fullText source.toList) = .ok document ∧
        document.Accepted queryName mutationName schema := by
  rw [Schema.ofSource, Schema.ofText]
  constructor
  · intro built
    cases read : Document.ofText (Schema.fullText source.toList) with
    | error error => simp [read] at built
    | ok document =>
        simp only [read] at built
        exact ⟨document, rfl, Document.of_text_indexed read, (Document.of_text_distinct read).2,
          built⟩
  · rintro ⟨document, read, accepted⟩
    rw [read]
    exact accepted.built

/--
The names in an accepted schema resolve: those of its types and of the extensions merged into them,
and those of its roots, of which the query root gains the fields of introspection. Conversely, where
the names in a source resolve, nothing but a field that is declared twice keeps its schema from being
accepted.
-/
theorem accepted_schemas_are_closed (source queryName : String) (mutationName : Option String) :
    (∀ schema, Schema.ofSource source queryName mutationName = .ok schema →
      ∃ document merged root,
        Document.ofText (Schema.fullText source.toList) = .ok document ∧
        document.mergeExtensions document.extensions = .ok merged ∧
        (∀ type ∈ merged.types, type.Resolves schema.document.kind?) ∧
        document.Closed ∧ schema.document.kind? = document.kind? ∧
        Rooted schema.document.kind? queryName mutationName ∧
        merged.object? queryName = some root ∧
        schema.queryType? =
          some { root with fields := root.fields ++ Introspection.entries }) ∧
    ∀ document, Document.ofText (Schema.fullText source.toList) = .ok document →
      document.Closed → Rooted document.kind? queryName mutationName →
      (∃ schema, Schema.ofSource source queryName mutationName = .ok schema) ∨
        ∃ name span, Schema.ofSource source queryName mutationName =
          .error (.parse (.duplicate .field name) span) := by
  constructor
  · intro schema built
    obtain ⟨document, read, accepted⟩ := Schema.of_source_ok_iff.mp built
    obtain ⟨indexed, -, fit, rfl⟩ := Document.accepted_iff.mp accepted
    obtain ⟨root, found⟩ := Document.merged_root_found fit.rooted
    have merging := Document.merge_extensions_distinct
      (Document.of_definitions_distinct_types indexed) fit.bases fit.fields
    rw [Document.schema_kind]
    exact ⟨document, document.merged, root, read, merging, fit.resolves, fit.closed, rfl,
      fit.rooted, found, Document.schema_query_root found⟩
  · intro document read closed rooted
    obtain ⟨distinct, apart⟩ := Document.of_text_distinct read
    rw [Schema.ofSource, Schema.ofText, read]
    exact (Document.closed_accepted_or_refused distinct apart closed rooted).imp_left
      fun accepted => ⟨_, accepted⟩

/-- Types that are named before they are defined, and extended before that as well. -/
def petSource : String :=
  "extend type Cat implements Named{nap(in:Era=NOW):[Era]}union Pet=Dog|Cat|Dog enum Era{NOW}" ++
    "interface Named{id:ID}type Dog implements Named Named{id:ID pet:Pet}type Cat{id:ID}"

theorem pet_source_read :
    ((Schema.ofSource petSource "Dog" (some "Cat")).toOption.bind some).isSome = true := by
  rw [Schema.of_source_spelled petSource
    (append_spelled String.toList_ofList String.toList_ofList)]
  decide +kernel

/-- Its names are in order, and so it is accepted, as it was. -/
theorem pet_schema_closed :
    ∃ (schema : Schema) (document : Document) (root : ObjectType),
      Schema.ofSource petSource "Dog" (some "Cat") = .ok schema ∧
      Document.ofText (Schema.fullText petSource.toList) = .ok document ∧ document.Closed ∧
      Rooted document.kind? "Dog" (some "Cat") ∧
      schema.queryType? = some { root with fields := root.fields ++ Introspection.entries } ∧
      ((∃ schema, Schema.ofSource petSource "Dog" (some "Cat") = .ok schema) ∨
        ∃ name span, Schema.ofSource petSource "Dog" (some "Cat") =
          .error (.parse (.duplicate .field name) span)) := by
  obtain ⟨schema, _, built, _⟩ := Schema.found_in_source pet_source_read
  obtain ⟨closed, otherwise⟩ := accepted_schemas_are_closed petSource "Dog" (some "Cat")
  obtain ⟨document, merged, root, read, -, -, names, same, rooted, -, extended⟩ :=
    closed schema built
  rw [same] at rooted
  exact ⟨schema, document, root, built, read, names, rooted, extended,
    otherwise document read names rooted⟩

end GraphQL
