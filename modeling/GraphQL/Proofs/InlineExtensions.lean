import GraphQL.Proofs.PossibleTypes

/-!
Extensions are a way of writing.

A document is accepted exactly if each of its extensions has a base type and the document is accepted
in which they have been replaced by their parts, written into their base types. Both documents give
the same schema.
-/

namespace GraphQL

namespace Document

/-- The document with the parts of all extensions in their base types, and no extension left. -/
def spelledOut (document : Document) : Document :=
  { document.merged with
    definitions := document.merged.definitions.filter fun definition =>
      definition.extension?.isNone }

section Definitions

variable (document : Document)

theorem indexed_iff :
    ofDefinitions document.definitions document.span = .ok document ↔
      firstRedeclared? [] (document.definitions.filterMap Definition.declared?) = none := by
  rw [ofDefinitions]
  cases firstRedeclared? [] (document.definitions.filterMap Definition.declared?) with
  | none => simp
  | some redeclared => simp

/-- Extensions declare no name. -/
theorem spelled_out_declared :
    document.spelledOut.definitions.filterMap Definition.declared? =
      document.definitions.filterMap Definition.declared? := by
  rw [spelledOut, merged, withExtensions, mapObjects, List.filterMap_filter, List.filterMap_map]
  congr 1
  funext definition
  cases definition with
  | type located =>
      obtain ⟨type, span⟩ := located
      cases type <;> rfl
  | _ => rfl

theorem spelled_out_types : document.spelledOut.types = document.merged.types := by
  rw [spelledOut, types, types, List.filterMap_filter]
  congr 1
  funext definition
  cases definition <;> rfl

theorem spelled_out_extensions : document.spelledOut.extensions = [] := by
  rw [spelledOut, extensions, List.filterMap_filter]
  refine List.filterMap_eq_nil_iff.mpr fun definition _ => ?_
  cases definition <;> rfl

/-- Nothing is left to be merged. -/
theorem spelled_out_merged : document.spelledOut.merged = document.spelledOut := by
  rw [merged, spelled_out_extensions, with_no_extensions]

theorem spelled_out_kind : document.spelledOut.kind? = document.kind? := by
  rw [← document.merged_kind]
  funext name
  rw [kind?, kind?, type?, type?, spelled_out_types]

theorem spelled_out_object (name : String) :
    document.spelledOut.object? name = document.merged.object? name := by
  rw [object?, object?, type?, type?, spelled_out_types]

theorem spelled_out_indexed_iff :
    ofDefinitions document.spelledOut.definitions document.spelledOut.span =
        .ok document.spelledOut ↔
      ofDefinitions document.definitions document.span = .ok document := by
  rw [indexed_iff, indexed_iff, spelled_out_declared]

/-- Where the fields of base types and extensions differ, those of each base type do. -/
theorem spelled_out_fields_before (distinct : document.spelledOut.DistinctFields) :
    document.DistinctFields := by
  intro object there
  have whole := distinct (object.writtenOut document.extensions) (by
    rw [spelled_out_types, merged, withExtensions, map_objects_types]
    exact List.mem_map.mpr ⟨_, there, rfl⟩)
  rw [ObjectType.writtenOut, ObjectType.DistinctFields, ObjectType.with_parts_fields, fieldNames,
    List.map_append] at whole
  exact (List.nodup_append.mp whole).1

/-- A document is fit for a schema if its extensions have base types and it is fit without them. -/
theorem buildable_iff_spelled_out (queryName : String) (mutationName : Option String) :
    document.Buildable queryName mutationName ↔
      document.Extends document.extensions ∧ document.spelledOut.Buildable queryName mutationName := by
  have fields : document.spelledOut.merged.DistinctFields ↔ document.merged.DistinctFields := by
    rw [spelled_out_merged, DistinctFields, DistinctFields, spelled_out_types]
  have none_left : document.spelledOut.Extends document.spelledOut.extensions := by
    rw [spelled_out_extensions]
    exact List.forall_mem_nil _
  constructor
  · intro fit
    refine ⟨fit.bases, none_left, fields.mpr fit.fields, ?_, ?_, ?_⟩
    · rw [spelled_out_merged, spelled_out_types, spelled_out_kind]
      exact fit.resolves
    · rw [spelled_out_kind]
      exact fit.rooted
    · intro root found
      rw [spelled_out_merged, spelled_out_object] at found
      exact fit.entries root found
  · rintro ⟨bases, fit⟩
    refine ⟨bases, fields.mp fit.fields, ?_, ?_, ?_⟩
    · have resolves := fit.resolves
      rwa [spelled_out_merged, spelled_out_types, spelled_out_kind] at resolves
    · have rooted := fit.rooted
      rwa [spelled_out_kind] at rooted
    · intro root found
      rw [← spelled_out_object, ← spelled_out_merged] at found
      exact fit.entries root found

end Definitions

end Document

/-- Two schemas answer alike whatever is looked up. -/
structure Schema.Agrees (schema other : Schema) : Prop where
  types : schema.types = other.types
  type : ∀ name, schema.type? name = other.type? name
  field : ∀ typeName fieldName, schema.field? typeName fieldName = other.field? typeName fieldName
  possibleTypes : ∀ name, schema.possibleTypes name = other.possibleTypes name
  queryType : schema.queryType? = other.queryType?
  mutationType : schema.mutationType? = other.mutationType?

/-- All look-ups depend on the types and the names of the roots. -/
theorem Schema.agrees_of_types {schema other : Schema} (types : schema.types = other.types)
    (query : schema.queryName = other.queryName)
    (mutation : schema.mutationName = other.mutationName) : schema.Agrees other := by
  have found (name : String) : schema.type? name = other.type? name := by
    rw [Schema.type?, Schema.type?, Document.type?, Document.type?]
    exact congrArg (List.find? _) types
  have objects : schema.document.object? = other.document.object? := by
    funext name
    have same : schema.document.type? name = other.document.type? name := found name
    rw [Document.object?, Document.object?, same]
  refine ⟨types, found, fun typeName fieldName => ?_, fun name => ?_, ?_, ?_⟩
  · rw [Schema.field?, Schema.field?, found]
  · rw [Schema.possibleTypes, Schema.possibleTypes, Document.possibleTypes, Document.possibleTypes]
    exact congrArg (List.foldl _ []) types
  · rw [Schema.queryType?, Schema.queryType?, objects, query]
  · rw [Schema.mutationType?, Schema.mutationType?, objects, mutation]

namespace Document

section Merging

variable {document : Document} {queryName : String} {mutationName : Option String}

theorem spelled_out_schema_types (document : Document) :
    (document.schema queryName mutationName).types =
      (document.spelledOut.schema queryName mutationName).types := by
  rw [Schema.types, Schema.types, schema, schema, map_objects_types, map_objects_types,
    spelled_out_merged, spelled_out_types]

/-- A field that is declared twice in a base type and its extensions stays so when they are merged. -/
theorem repeated_not_distinct {object : ObjectType} (there : .object object ∈ document.types)
    (repeated : ¬ (object.writtenOut document.extensions).DistinctFields) :
    ¬ document.merged.DistinctFields := by
  intro distinct
  refine repeated (distinct _ ?_)
  rw [merged, withExtensions, map_objects_types]
  exact List.mem_map.mpr ⟨_, there, rfl⟩

/-- If all extensions have base types, the error names a field that is declared again. -/
theorem repeated_field_refused
    (indexed : ofDefinitions document.definitions document.span = .ok document)
    (apart : document.DistinctFields) (bases : document.Extends document.extensions)
    (repeated : ¬ document.merged.DistinctFields) :
    ∃ extension ∈ document.extensions, ∃ field ∈ extension.node.fields,
      Schema.ofDocument document queryName mutationName =
        .error (.parse (.duplicate .field field.node.name.node) field.node.name.span) := by
  obtain ⟨extension, there, field, own, refused⟩ :=
    merge_extensions_repeated (of_definitions_distinct_types indexed) apart bases repeated
  refine ⟨extension, there, field, own, ?_⟩
  rw [Schema.ofDocument, refused]
  rfl

end Merging

end Document

/--
Extending a type means writing the parts into the base type: the schema is accepted exactly if every
extension has a base type and the document is accepted with the parts written there, and it is the
same schema. A field that a base type and its extensions declare twice is refused.
-/
theorem extensions_written_inline (document : Document) (queryName : String)
    (mutationName : Option String) :
    ((∃ schema, document.Accepted queryName mutationName schema) ↔
      document.Extends document.extensions ∧
        ∃ schema, document.spelledOut.Accepted queryName mutationName schema) ∧
    (∀ schema inline, document.Accepted queryName mutationName schema →
      document.spelledOut.Accepted queryName mutationName inline → schema.Agrees inline) ∧
    ∀ object, .object object ∈ document.types →
      ¬ (object.writtenOut document.extensions).DistinctFields →
      (¬ ∃ schema, document.Accepted queryName mutationName schema) ∧
      (Document.ofDefinitions document.definitions document.span = .ok document →
        document.DistinctFields → document.Extends document.extensions →
        ∃ extension ∈ document.extensions, ∃ field ∈ extension.node.fields,
          Schema.ofDocument document queryName mutationName =
            .error (.parse (.duplicate .field field.node.name.node) field.node.name.span)) := by
  refine ⟨⟨?_, ?_⟩, ?_, ?_⟩
  · rintro ⟨schema, accepted⟩
    obtain ⟨indexed, -, fit, -⟩ := Document.accepted_iff.mp accepted
    obtain ⟨bases, inline⟩ := (document.buildable_iff_spelled_out _ _).mp fit
    have fields := inline.fields
    rw [Document.spelled_out_merged] at fields
    exact ⟨bases, _, Document.accepted_iff.mpr
      ⟨document.spelled_out_indexed_iff.mpr indexed, fields, inline, rfl⟩⟩
  · rintro ⟨bases, schema, accepted⟩
    obtain ⟨indexed, fields, inline, -⟩ := Document.accepted_iff.mp accepted
    exact ⟨_, Document.accepted_iff.mpr ⟨document.spelled_out_indexed_iff.mp indexed,
      document.spelled_out_fields_before fields,
      (document.buildable_iff_spelled_out _ _).mpr ⟨bases, inline⟩, rfl⟩⟩
  · intro schema inline accepted second
    obtain ⟨-, -, -, rfl⟩ := Document.accepted_iff.mp accepted
    obtain ⟨-, -, -, rfl⟩ := Document.accepted_iff.mp second
    exact Schema.agrees_of_types document.spelled_out_schema_types rfl rfl
  · intro object there repeated
    have clash := Document.repeated_not_distinct there repeated
    refine ⟨?_, fun indexed apart bases =>
      Document.repeated_field_refused indexed apart bases clash⟩
    rintro ⟨schema, accepted⟩
    obtain ⟨-, -, fit, -⟩ := Document.accepted_iff.mp accepted
    exact clash fit.fields

/-- The schema of pets comes as well of its document with the extension written out. -/
theorem pet_extensions_inline :
    ∃ (document : Document) (schema inline : Schema),
      Document.ofText (Schema.fullText petSource.toList) = .ok document ∧
      document.Accepted "Dog" (some "Cat") schema ∧
      document.spelledOut.Accepted "Dog" (some "Cat") inline ∧ schema.Agrees inline := by
  obtain ⟨schema, _, built, _⟩ := Schema.found_in_source pet_source_read
  obtain ⟨document, read, accepted⟩ := Schema.of_source_ok_iff.mp built
  obtain ⟨same, agree, -⟩ := extensions_written_inline document "Dog" (some "Cat")
  obtain ⟨-, inline, second⟩ := same.mp ⟨schema, accepted⟩
  exact ⟨document, schema, inline, read, accepted, second, agree schema inline accepted second⟩

end GraphQL
