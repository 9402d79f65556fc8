import GraphQL.Proofs.IntrospectionTypes
import GraphQL.Proofs.ReadingDocuments
import GraphQL.Proofs.SourceBoundary
import GraphQL.Proofs.SpelledTexts
import GraphQL.Proofs.Straddling
import Mathlib.Data.List.Forall2

/-!
The types of the introspection system, as they are written behind a schema source.

The text behind a source is cut into the tokens of these types, and descriptions. Wherever a cursor
holds the tokens of types up to the end of a source, they are read as these types.
-/

namespace GraphQL

/-- A type as it is written, without a bar in front of the members of a union. -/
def TypeDefinition.pieces : TypeDefinition → List Piece
  | .scalar definition =>
      [(Token.keyword .scalar).described definition.description, namePiece definition.name.node]
  | .object definition =>
      (Token.keyword .type).described definition.description :: definition.body
  | .interface definition =>
      (Token.keyword .interface).described definition.description ::
        namePiece definition.name.node :: fieldPieces definition.fields
  | .union definition => definition.pieces []
  | .enum definition =>
      (Token.keyword .enum).described definition.description :: namePiece definition.name.node ::
        enclosed .braceOpen .braceClose (definition.values.flatMap fun value => value.node.pieces)
  | .inputObject definition =>
      (Token.keyword .input).described definition.description :: namePiece definition.name.node ::
        enclosed .braceOpen .braceClose (inputPieces definition.fields)

/-- A type as a definition of its own. -/
abbrev TypeDefinition.alone (type : TypeDefinition) : Definition := .type (.unplaced type)

theorem type_printed (type : TypeDefinition) : type.alone.Printed type.pieces := by
  cases type with
  | scalar scalar => exact .scalar scalar _
  | object object => exact .object object _
  | interface interface => exact .interface interface _
  | union union => exact .union union _ [] (.inl rfl)
  | enum enum => exact .enum enum _
  | inputObject input => exact .inputObject input _

theorem types_printed (types : List TypeDefinition) :
    List.Forall₂ Definition.Printed (types.map TypeDefinition.alone)
      (types.map TypeDefinition.pieces) := by
  rw [List.forall₂_map_left_iff, List.forall₂_map_right_iff]
  exact List.forall₂_same.mpr fun type _ => type_printed type

/-- The tokens of types that are written one behind the other. -/
def typeTokens (types : List TypeDefinition) : List Token :=
  (types.flatMap TypeDefinition.pieces).map Piece.token

/-- Up to places and descriptions, types are read as they are written, in whatever cursor. -/
theorem types_read_back {types : List TypeDefinition} (filled : types ≠ [])
    (writable : ∀ type ∈ types, type.Writable)
    (closed : ¬ EndsWithUnion (types.map TypeDefinition.alone)) {count : Nat} {cursor : Cursor}
    (enough : cursor.length ≤ count)
    (held : cursor.nodes = typeTokens types ++ [.endOfFile]) :
    ∃ definitions left, (Reader.definitions count).run cursor = .ok definitions left ∧
      definitions.map (Definition.seen undescribed) =
        types.map fun type => type.alone.seen undescribed := by
  -- A cursor of the same tokens, with the descriptions that belong to the types.
  have each : ∀ definition ∈ types.map TypeDefinition.alone, definition.Writable :=
    List.forall_mem_map.mpr writable
  obtain ⟨copy, pieces⟩ : ∃ copy : Cursor, Cursor.pieces copy =
      (types.map TypeDefinition.pieces).flatten ++ [Token.endOfFile.plain] := by
    refine ⟨((types.map TypeDefinition.pieces).flatten ++ [Token.endOfFile.plain]).map
      fun piece => ⟨.unplaced piece.token, piece.description⟩, ?_⟩
    rw [Cursor.pieces, List.map_map]
    exact List.map_id _
  have words : cursor.words undescribed = copy.words undescribed := by
    have bare (list : Cursor) :
        list.words undescribed = list.nodes.map fun token => (token, none) := by
      rw [Cursor.words, Cursor.nodes, Cursor.tokens, List.map_map, List.map_map]
      rfl
    have nodes : copy.nodes = (Cursor.pieces copy).map Piece.token := by
      rw [Cursor.nodes, Cursor.tokens, Cursor.pieces, List.map_map, List.map_map]
      rfl
    rw [bare, bare, held, nodes, pieces, typeTokens, List.flatMap_def, List.map_append,
      List.map_append, List.map_append]
    rfl
  have length : copy.length = cursor.length := by
    simpa [Cursor.words] using (congrArg List.length words).symm
  have fits := (definitions_counted (types_printed types) each pieces).trans
    (length.trans_le enough)
  obtain ⟨found, others, read, -, same⟩ := (Reader.definitions_take (types_printed types)
    (by simpa using filled) each closed fits).run copy pieces
  have alike := (Reader.definitions_steady count).run cursor copy words
  rw [read] at alike
  cases ran : (Reader.definitions count).run cursor with
  | error error left =>
      rw [ran] at alike
      cases alike
  | ok definitions left =>
      rw [ran] at alike
      have seen := (Prod.mk.inj (Except.ok.inj alike)).1
      refine ⟨definitions, left, rfl, ?_⟩
      calc definitions.map (Definition.seen undescribed)
          = found.map (Definition.seen undescribed) := seen
        _ = (found.map Definition.placeless).map (Definition.described undescribed) := by
            rw [List.map_map]
            exact List.map_congr_left fun definition _ => definition.seen_placeless undescribed
        _ = types.map fun type => type.alone.seen undescribed := by
            rw [same, List.map_map, List.map_map]
            exact List.map_congr_left fun type _ => (type.alone.seen_placeless undescribed).symm

/-- What is read where types are written is seen as these types. -/
theorem types_seen_back {types : List TypeDefinition} (filled : types ≠ [])
    (writable : ∀ type ∈ types, type.Writable)
    (closed : ¬ EndsWithUnion (types.map TypeDefinition.alone)) {count : Nat}
    {cursor left : Cursor} {definitions : List Definition}
    (ran : (Reader.definitions count).run cursor = .ok definitions left)
    (enough : cursor.length ≤ count)
    (held : cursor.nodes = typeTokens types ++ [.endOfFile]) :
    definitions.map (Definition.seen undescribed) =
      types.map fun type => type.alone.seen undescribed := by
  obtain ⟨found, last, read, seen⟩ := types_read_back filled writable closed enough held
  rw [ran] at read
  cases read
  exact seen

instance TypeRef.decidableWritable : DecidablePred TypeRef.Writable
  | .named name => inferInstanceAs (Decidable (Name.isValid name = true))
  | .list element => decidableWritable element
  | .nonNull inner =>
      @instDecidableAnd _ _ (decidableWritable inner) (inferInstanceAs (Decidable (_ = false)))

namespace Introspection

section Writing

theorem plain_field_writable {name : String} {type : TypeRef} (writable : type.Writable) :
    (plainField name type).node.Writable :=
  ⟨nofun, ⟨⟨List.forall_mem_nil _, .nil⟩, List.forall_mem_nil _⟩, writable⟩

theorem filtered_field_writable {name : String} {type : TypeRef} (writable : type.Writable) :
    (filteredField name type).node.Writable := by
  refine ⟨nofun, ⟨⟨?_, List.pairwise_singleton _ _⟩, ?_⟩, writable⟩
  · exact List.forall_mem_singleton.mpr (show Name.isValid "includeDeprecated" = true by decide)
  · refine List.forall_mem_singleton.mpr ⟨nofun, show Name.isValid "Boolean" = true by decide, ?_⟩
    rintro literal ⟨⟩
    trivial

/-- An object type of fields that have a type, and maybe the argument for what is deprecated. -/
theorem object_of_writable {name : String} {fields : List (Located FieldDefinition)}
    (valid : Name.isValid name = true) (filled : fields ≠ [])
    (names : ∀ field ∈ fields, Name.isValid field.node.name.node = true)
    (distinct : (fields.map fun field => field.node.name.node).Nodup)
    (each : ∀ field ∈ fields, field.node.Writable) : (objectOf name fields).Writable :=
  ⟨valid, nofun, List.forall_mem_nil _, filled, ⟨List.forall_mem_map.mpr names, by
    rw [List.map_map]
    exact distinct⟩, each⟩

theorem objects_writable : ∀ object ∈ objects, object.Writable := by
  simp only [objects, List.forall_mem_cons, schemaObject, typeObject, fieldObject, inputObject,
    enumValueObject, directiveObject]
  refine ⟨?_, ?_, ?_, ?_, ?_, ?_, List.forall_mem_nil _⟩
  all_goals
    refine object_of_writable (by decide) (List.cons_ne_nil _ _) (by decide +kernel)
      (by decide +kernel) ?_
    simp only [List.forall_mem_cons]
    and_intros
  all_goals first
    | exact List.forall_mem_nil _
    | exact plain_field_writable (by decide)
    | exact filtered_field_writable (by decide)

theorem kind_enum_writable : kindEnum.Writable := by
  have names : ∀ kind ∈ TypeKind.all, Name.isValid kind.text = true ∧
      kind.text ∉ ["true", "false", "null"] := by decide +kernel
  have distinct : (TypeKind.all.map TypeKind.text).Nodup := by decide +kernel
  refine ⟨show Name.isValid "__TypeKind" = true by decide, nofun, List.cons_ne_nil _ _,
    ⟨?_, distinct⟩, ?_⟩
  · rw [kindEnum, List.map_map]
    exact List.forall_mem_map.mpr fun kind there => (names kind there).1
  · exact List.forall_mem_map.mpr fun kind there => ⟨names kind there, nofun⟩

theorem types_writable : ∀ type ∈ types, type.Writable := by
  have scalars : ∀ name ∈ scalarNames, Name.isValid name = true := by decide
  refine List.forall_mem_append.mpr ⟨List.forall_mem_map.mpr fun name there =>
    ⟨scalars name there, nofun⟩, ?_⟩
  have objects := objects_writable
  simp only [Introspection.objects, List.forall_mem_cons] at objects
  obtain ⟨schema, type, field, input, value, directive, -⟩ := objects
  simp only [List.forall_mem_cons]
  exact ⟨schema, type, field, input, value, kind_enum_writable, directive, List.forall_mem_nil _⟩

end Writing

section Standing

/-- The types that go on behind the block of the first object type. -/
def laterTypes : List TypeDefinition := types.drop 6

/-- The words in front of that block. -/
def leadingWords : List Token :=
  typeTokens (types.take 5) ++ [.keyword .type, .name "__Schema"]

/-- The text behind a source has the tokens of the types, and descriptions. -/
theorem types_text_scanned : (TokenStream.ofText typesText).fault = none ∧
    ((TokenStream.ofText typesText).tokens.map (·.node)).filter
      (fun token => !token.isDescription) = typeTokens types ++ [.endOfFile] := by
  rw [types_text_spelled]
  decide +kernel

/-- The text behind a source is cut into the tokens of the types, and descriptions. -/
theorem types_text_cut : ∃ tokens, CutInto typesText tokens ∧
    tokens.filter (fun token => !token.isDescription) = typeTokens types ++ [.endOfFile] :=
  ⟨_, stream_cut types_text_scanned.1, types_text_scanned.2⟩

/-- The types begin with scalars and an object type, and others follow. -/
theorem types_entrance : Entrance (typeTokens types) leadingWords
    ((fieldPieces schemaObject.fields).map Piece.token) (typeTokens laterTypes) where
  whole := by decide +kernel
  enters := ⟨_, rfl⟩
  plain := by decide +kernel
  block := by
    rw [fieldPieces, enclosed, List.map_cons, List.map_append]
    exact .enclosed rfl rfl (by decide +kernel)
  upright := by decide +kernel
  visible := by decide +kernel
  goes_on := by decide +kernel

/-- None of the types has a description or a place. -/
theorem types_alone_seen :
    types.map (fun type => type.alone.seen undescribed) = types.map TypeDefinition.alone ∧
      laterTypes.map (fun type => type.alone.seen undescribed) =
        laterTypes.map TypeDefinition.alone := ⟨rfl, rfl⟩

theorem types_end_otherwise : ¬ EndsWithUnion (types.map TypeDefinition.alone) ∧
    ¬ EndsWithUnion (laterTypes.map TypeDefinition.alone) := by
  constructor
  all_goals
    rintro ⟨last, there, union⟩
    cases there
    cases union

end Standing

end Introspection

end GraphQL
