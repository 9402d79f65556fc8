import GraphQL.Proofs.AppendedTypes

/-!
Every accepted schema holds the types of the introspection system.

Their definitions stand behind the source. An object type at its end may take the first of them for
its interfaces. But then a scalar is missing that others need, and the schema is refused.
-/

namespace GraphQL

open Introspection

/-- The tokens of a schema text: those of the source, and those of the introspection types. -/
theorem full_text_nodes {text : List Char} {stream : TokenStream}
    (whole : stream = .ofText (Schema.fullText text)) (complete : stream.fault = none) :
    ∃ before, .endOfFile ∉ before ∧ Cursor.nodes (Cursor.attach [] stream.tokens) =
      before ++ (typeTokens types ++ [.endOfFile]) := by
  subst whole
  obtain ⟨front, back, same, visible, behind⟩ := CutInto.behind_line (stream_cut complete)
  obtain ⟨tokens, cut, kept⟩ := types_text_cut
  obtain rfl := behind.unique cut
  refine ⟨front.filter fun token => !token.isDescription,
    fun there => visible (List.mem_of_mem_filter there), ?_⟩
  rw [← kept, ← List.filter_append, ← same, Cursor.nodes, attach_tokens, List.filter_map]
  rfl

/-- Types that are looked up in a document that was read from a schema text. -/
inductive EndsWithTypes (definitions : List Definition) : Prop where
  | all {front back} (whole : definitions = front ++ back)
      (seen : back.map (Definition.seen undescribed) = types.map TypeDefinition.alone)
  | later {front back definition object} (whole : definitions = front ++ back)
      (seen : back.map (Definition.seen undescribed) = laterTypes.map TypeDefinition.alone)
      (among : definition ∈ front) (part : definition.objectPart? = some object)
      (named : "Boolean" ∈ object.interfaceNames)

theorem document_ends_with_types {text : List Char} {document : Document}
    (read : Document.ofText (Schema.fullText text) = .ok document) :
    EndsWithTypes document.definitions := by
  unfold Document.ofText Document.ofStream Cursor.ofStream at read
  generalize whole : TokenStream.ofText (Schema.fullText text) = stream at read
  cases complete : stream.fault with
  | some fault => simp [complete] at read
  | none =>
      obtain ⟨before, visible, held⟩ := full_text_nodes whole.symm complete
      simp only [complete, Document.ofCursor] at read
      generalize Cursor.attach [] stream.tokens = cursor at read held
      cases ran : (Reader.definitions cursor.length).run cursor with
      | error error left => simp [ran] at read
      | ok definitions left =>
          simp only [ran] at read
          have kept : document.definitions = definitions := by
            unfold Document.ofDefinitions at read
            split at read
            · cases read
            · cases read
              rfl
          obtain ⟨front, back, fewer, inner, same, ended, enough, enters⟩ :=
            definitions_enter types_entrance ran le_rfl visible held
          generalize nodes : inner.nodes = tokens at enters
          rw [kept]
          cases enters with
          | start =>
              refine .all same ?_
              rw [types_seen_back (List.cons_ne_nil _ _) types_writable types_end_otherwise.1
                ended enough nodes]
              exact types_alone_seen.1
          | behind among part named =>
              obtain ⟨name, there, boolean⟩ := named (.name "Boolean") (by decide +kernel)
              refine .later same ?_ among part
                (List.mem_map.mpr ⟨name, there, (Option.some.inj boolean).symm⟩)
              rw [@types_seen_back laterTypes (List.cons_ne_nil _ _)
                (fun type later => types_writable type (List.mem_of_mem_drop later))
                types_end_otherwise.2 _ _ _ _ ended enough nodes]
              exact types_alone_seen.2

section Seen

variable {definitions : List Definition} {written : List TypeDefinition}

/-- Where definitions are seen as types, each of the types is defined there. -/
theorem type_defined (seen : definitions.map (Definition.seen undescribed) =
      written.map TypeDefinition.alone) {expected : TypeDefinition} (listed : expected ∈ written) :
    ∃ type span, .type ⟨type, span⟩ ∈ definitions ∧
      (type.described undescribed).placeless = expected := by
  have there : expected.alone ∈ definitions.map (Definition.seen undescribed) :=
    seen ▸ List.mem_map_of_mem listed
  obtain ⟨definition, among, same⟩ := List.mem_map.mp there
  cases definition with
  | type located =>
      exact ⟨located.node, located.span, among, congrArg Located.node (Definition.type.inj same)⟩
  | _ => cases same

/-- The type of an argument that is seen in an object type is an input type. -/
theorem ObjectType.Resolves.argument {kind? : String → Option TypeKind} {object : ObjectType}
    (resolves : object.Resolves kind?) {field : Located FieldDefinition}
    {argument : Located InputDefinition}
    (seen : field ∈ object.fields.map (Reader.lookFieldDefinition undescribed))
    (given : argument ∈ field.node.arguments) :
    kind? argument.node.type.node.innermost ∈ [some .scalar, some .enum, some .inputObject] := by
  obtain ⟨own, there, rfl⟩ := List.mem_map.mp seen
  have arguments : (Reader.lookFieldDefinition undescribed own).node.arguments =
      own.node.arguments.map (Reader.lookInput undescribed) := Reader.described_inputs _
  rw [arguments] at given
  obtain ⟨input, inside, rfl⟩ := List.mem_map.mp given
  exact (resolves.fields own there).arguments input inside

end Seen

section Held

variable {document : Document}

/-- An object type of a document, or one that extends another, resolves. -/
theorem object_part_resolves (closed : document.Closed) {definition : Definition}
    (among : definition ∈ document.definitions) {object : ObjectType}
    (part : definition.objectPart? = some object) : object.Resolves document.kind? := by
  cases definition with
  | type located =>
      obtain ⟨type, span⟩ := located
      cases type with
      | object own =>
          obtain rfl : own = object := Option.some.inj part
          exact closed.types (.object own) (List.mem_filterMap.mpr ⟨_, among, rfl⟩)
      | _ => cases part
  | extension located =>
      obtain rfl : located.node = object := Option.some.inj part
      exact closed.extensions located (List.mem_filterMap.mpr ⟨_, among, rfl⟩)
  | _ => cases part

/-- Where an object type has taken the scalars, there is no boolean that is an input type. -/
theorem closed_defines_types (closed : document.Closed)
    (ends : EndsWithTypes document.definitions) :
    ∀ expected ∈ Introspection.types, ∃ type ∈ document.types,
      (type.described undescribed).placeless = expected := by
  intro expected listed
  cases ends with
  | all whole seen =>
      obtain ⟨type, span, there, same⟩ := type_defined seen listed
      have among : .type ⟨type, span⟩ ∈ document.definitions :=
        whole ▸ List.mem_append_right _ there
      exact ⟨type, List.mem_filterMap.mpr ⟨_, among, rfl⟩, same⟩
  | @later front back definition object whole seen among part named =>
      obtain ⟨type, span, there, same⟩ := type_defined seen
        (show .object typeObject ∈ laterTypes from List.mem_cons_self)
      have defined : .type ⟨type, span⟩ ∈ document.definitions :=
        whole ▸ List.mem_append_right _ there
      cases type with
      | object own =>
          have fields : own.fields.map (Reader.lookFieldDefinition undescribed) =
              typeObject.fields := by
            rw [← Reader.described_fields]
            exact congrArg ObjectType.fields (TypeDefinition.object.inj same)
          have listed : filteredField "fields" (listOf "__Field") ∈
              own.fields.map (Reader.lookFieldDefinition undescribed) :=
            fields ▸ List.mem_of_getElem? (i := 3) rfl
          have input : document.kind? "Boolean" ∈ [some .scalar, some .enum, some .inputObject] :=
            (object_part_resolves closed defined rfl).argument listed
              (List.mem_singleton.mpr rfl : deprecatedToo ∈ _)
          have interface : document.kind? "Boolean" = some .interface :=
            (object_part_resolves closed (whole ▸ List.mem_append_left _ among) part).interfaces _
              named
          rw [interface] at input
          simp at input
      | _ => cases same

end Held

section Completed

/-- An object type as it stands in a schema: with its extensions, and the root with its entries. -/
def ObjectType.completed (extensions : List (Located ObjectType)) (queryName : String)
    (object : ObjectType) : ObjectType :=
  if object.name.node = queryName then (object.writtenOut extensions).withEntries
  else object.writtenOut extensions

variable (extensions : List (Located ObjectType)) (queryName : String) (object : ObjectType)

theorem completed_name : (object.completed extensions queryName).name = object.name := by
  rw [ObjectType.completed]
  split <;> rfl

theorem completed_description :
    (object.completed extensions queryName).description = object.description := by
  rw [ObjectType.completed]
  split <;> rfl

theorem completed_fields :
    ∃ more, (object.completed extensions queryName).fields = object.fields ++ more := by
  rw [ObjectType.completed]
  split
  · exact ⟨_, List.append_assoc _ _ _⟩
  · exact ⟨_, rfl⟩

theorem schema_types (document : Document) (mutationName : Option String) :
    (document.schema queryName mutationName).types =
      document.types.map (·.mapObject (.completed document.extensions queryName)) := by
  rw [Schema.types, Document.schema, Document.merged, Document.withExtensions,
    Document.map_objects_twice, Document.map_objects_types]
  rfl

/-- A type covers what is expected of it although an object type is completed. -/
theorem completed_covers {type expected : TypeDefinition}
    (seen : (type.described undescribed).placeless = expected) :
    (type.mapObject (.completed extensions queryName)).Covers expected := by
  subst seen
  cases type with
  | object object =>
      obtain ⟨more, fields⟩ := completed_fields extensions queryName object
      have named := congrArg Located.node (completed_name extensions queryName object)
      refine @TypeDefinition.Covers.object _ _ (more.map (Reader.lookFieldDefinition undescribed))
        named ?_
      rw [fields, List.map_append, ← Reader.described_fields object.fields]
      rfl
  | _ => exact .same rfl

end Completed

/-- The introspection types stand behind the source, and so they stand in every accepted schema. -/
theorem Schema.accepted_holds {source queryName : String} {mutationName : Option String}
    {schema : Schema} (accepted : Schema.ofSource source queryName mutationName = .ok schema) :
    schema.HoldsIntrospection := by
  have distinct := Schema.accepted_distinct accepted
  obtain ⟨document, read, built⟩ := Schema.of_source_ok_iff.mp accepted
  obtain ⟨-, -, fit, rfl⟩ := Document.accepted_iff.mp built
  intro expected listed
  obtain ⟨type, among, seen⟩ :=
    closed_defines_types fit.closed (document_ends_with_types read) expected listed
  have named : (type.mapObject (.completed document.extensions queryName)).name =
      expected.name := by
    rw [map_object_name (completed_name _ _), ← seen]
    cases type <;> rfl
  refine ⟨_, (Document.type_found_iff distinct).mpr ⟨?_, named⟩, completed_covers _ _ seen⟩
  change _ ∈ (document.schema queryName mutationName).types
  rw [schema_types]
  exact List.mem_map_of_mem among

end GraphQL
