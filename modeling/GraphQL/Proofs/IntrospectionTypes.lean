import GraphQL.Proofs.AlikeDefinitions
import GraphQL.Proofs.SchemaClosure
import GraphQL.Value.Scalar

/-!
The types of the introspection system, as they are looked up in a schema.

They are written down here without descriptions and places. A schema holds one of them if it has a
type of that name with the same parts, up to descriptions and places; an object type may have got
more fields from extensions.
-/

namespace GraphQL

namespace Introspection

/-- A field without arguments. -/
def plainField (name : String) (type : TypeRef) : Located FieldDefinition :=
  .unplaced ⟨.unplaced name, none, [], .unplaced type, .current⟩

/-- The argument that asks for what is deprecated, too. -/
def deprecatedToo : Located InputDefinition :=
  .unplaced ⟨.unplaced "includeDeprecated", none, .unplaced (.named "Boolean"),
    some (.unplaced (.bool false))⟩

/-- A list that may leave out what is deprecated. -/
def filteredField (name : String) (type : TypeRef) : Located FieldDefinition :=
  .unplaced ⟨.unplaced name, none, [deprecatedToo], .unplaced type, .current⟩

/-- A list without nulls. -/
def listOf (name : String) : TypeRef := .list (.nonNull (.named name))

def objectOf (name : String) (fields : List (Located FieldDefinition)) : ObjectType :=
  ⟨.unplaced name, none, [], fields⟩

def schemaObject : ObjectType :=
  objectOf "__Schema"
    [plainField "types" (.nonNull (listOf "__Type")),
      plainField "queryType" (.nonNull (.named "__Type")),
      plainField "mutationType" (.named "__Type"),
      plainField "subscriptionType" (.named "__Type"),
      plainField "directives" (.nonNull (listOf "__Directive"))]

def typeObject : ObjectType :=
  objectOf "__Type"
    [plainField "kind" (.nonNull (.named "__TypeKind")), plainField "name" (.named "String"),
      plainField "description" (.named "String"), filteredField "fields" (listOf "__Field"),
      plainField "interfaces" (listOf "__Type"), plainField "possibleTypes" (listOf "__Type"),
      filteredField "enumValues" (listOf "__EnumValue"),
      plainField "inputFields" (listOf "__InputValue"), plainField "ofType" (.named "__Type")]

def fieldObject : ObjectType :=
  objectOf "__Field"
    [plainField "name" (.nonNull (.named "String")), plainField "description" (.named "String"),
      plainField "args" (.nonNull (listOf "__InputValue")),
      plainField "type" (.nonNull (.named "__Type")),
      plainField "isDeprecated" (.nonNull (.named "Boolean")),
      plainField "deprecationReason" (.named "String")]

def inputObject : ObjectType :=
  objectOf "__InputValue"
    [plainField "name" (.nonNull (.named "String")), plainField "description" (.named "String"),
      plainField "type" (.nonNull (.named "__Type")), plainField "defaultValue" (.named "String")]

def enumValueObject : ObjectType :=
  objectOf "__EnumValue"
    [plainField "name" (.nonNull (.named "String")), plainField "description" (.named "String"),
      plainField "isDeprecated" (.nonNull (.named "Boolean")),
      plainField "deprecationReason" (.named "String")]

def kindEnum : EnumType :=
  ⟨.unplaced "__TypeKind", none,
    TypeKind.all.map fun kind => .unplaced ⟨.unplaced kind.text, none, .current⟩⟩

def directiveObject : ObjectType :=
  objectOf "__Directive"
    [plainField "name" (.nonNull (.named "String")), plainField "description" (.named "String"),
      plainField "args" (.nonNull (listOf "__InputValue")),
      plainField "onOperation" (.nonNull (.named "Boolean")),
      plainField "onFragment" (.nonNull (.named "Boolean")),
      plainField "onField" (.nonNull (.named "Boolean"))]

/-- The built-in scalars, in the order in which they are defined. -/
def scalarNames : List String := ["String", "Boolean", "Int", "Float", "ID"]

/-- The object types of the introspection system. -/
def objects : List ObjectType :=
  [schemaObject, typeObject, fieldObject, inputObject, enumValueObject, directiveObject]

/-- All definitions of the introspection system, in the order in which they are written. -/
def types : List TypeDefinition :=
  scalarNames.map (fun name => .scalar ⟨.unplaced name, none⟩) ++
    [.object schemaObject, .object typeObject, .object fieldObject, .object inputObject,
      .object enumValueObject, .enum kindEnum, .object directiveObject]

end Introspection

/-- A type has the parts that are expected, and an object type may have more fields. -/
inductive TypeDefinition.Covers : TypeDefinition → TypeDefinition → Prop where
  | object {found expected : ObjectType} {more : List (Located FieldDefinition)}
      (named : found.name.node = expected.name.node)
      (fields : found.fields.map (Reader.lookFieldDefinition undescribed) =
        expected.fields ++ more) :
      Covers (.object found) (.object expected)
  | same {found expected : TypeDefinition}
      (seen : (found.described undescribed).placeless = expected) : Covers found expected

/-- Places and descriptions aside, a schema has the types of the introspection system. -/
def Schema.HoldsIntrospection (schema : Schema) : Prop :=
  ∀ expected ∈ Introspection.types, ∃ found,
    schema.type? expected.name = some found ∧ found.Covers expected

section Parts

theorem find_field_seen (name : String) (fields : List (Located FieldDefinition)) :
    findField? name (fields.map (Reader.lookFieldDefinition undescribed)) =
      (findField? name fields).map fun field => (field.described undescribed).placeless := by
  rw [findField?, List.find?_map, findField?, Option.map_map, Option.map_map]
  rfl

/-- An object type of a schema that has the fields which are expected of it. -/
structure ObjectType.Stands (object expected : ObjectType) (schema : Schema) : Prop where
  typed : schema.type? expected.name.node = some (.object object)
  named : object.name.node = expected.name.node
  field : ∀ name definition, findField? name expected.fields = some definition →
    ∃ own, object.field? name = some own ∧ (own.described undescribed).placeless = definition

theorem TypeDefinition.Covers.as_object {found : TypeDefinition} {expected : ObjectType}
    (covers : found.Covers (.object expected)) : ∃ object more, found = .object object ∧
      object.name.node = expected.name.node ∧
      object.fields.map (Reader.lookFieldDefinition undescribed) = expected.fields ++ more := by
  cases covers with
  | object named fields => exact ⟨_, _, rfl, named, fields⟩
  | same seen =>
      cases found with
      | object object =>
          obtain rfl := TypeDefinition.object.inj seen
          refine ⟨object, [], rfl, rfl, ?_⟩
          rw [List.append_nil]
          exact (Reader.described_fields object.fields).symm
      | _ => cases seen

namespace Schema.HoldsIntrospection

variable {schema : Schema} (holds : schema.HoldsIntrospection)

include holds

theorem object (expected : ObjectType) (listed : expected ∈ Introspection.objects) :
    ∃ object : ObjectType, object.Stands expected schema := by
  have among : .object expected ∈ Introspection.types := by
    simp only [Introspection.objects, List.mem_cons, List.not_mem_nil, or_false] at listed
    simp [Introspection.types, listed]
  obtain ⟨found, typed, covers⟩ := holds _ among
  obtain ⟨object, more, rfl, named, fields⟩ := covers.as_object
  refine ⟨object, typed, named, fun name definition defined => ?_⟩
  have seen := find_field_seen name object.fields
  rw [fields, findField?, List.find?_append] at seen
  rw [findField?] at defined
  cases own : expected.fields.find? fun field => field.node.name.node == name with
  | none => simp [own] at defined
  | some field =>
      simp only [own, Option.some_or, Option.map_some, Option.some.injEq] at seen defined
      obtain ⟨own, known, same⟩ := Option.map_eq_some_iff.mp seen.symm
      exact ⟨own, known, same.trans defined⟩

theorem scalar (scalar : BuiltinScalar) :
    ∃ definition, schema.type? scalar.name = some (.scalar definition) := by
  have listed : .scalar ⟨.unplaced scalar.name, none⟩ ∈ Introspection.types := by
    refine List.mem_append_left _ (List.mem_map.mpr ⟨scalar.name, ?_, rfl⟩)
    cases scalar <;> decide
  obtain ⟨found, typed, covers⟩ := holds _ listed
  cases covers with
  | same seen =>
      cases found with
      | scalar definition => exact ⟨definition, typed⟩
      | _ => cases seen

theorem kinds : ∃ definition, schema.type? "__TypeKind" = some (.enum definition) := by
  have listed : .enum Introspection.kindEnum ∈ Introspection.types := by
    simp [Introspection.types]
  obtain ⟨found, typed, covers⟩ := holds _ listed
  cases covers with
  | same seen =>
      cases found with
      | enum definition => exact ⟨definition, typed⟩
      | _ => cases seen

end Schema.HoldsIntrospection

end Parts

section Accepted

variable {source queryName : String} {mutationName : Option String} {schema : Schema}

/-- No two types of an accepted schema have the same name. -/
theorem Schema.accepted_distinct
    (accepted : Schema.ofSource source queryName mutationName = .ok schema) :
    schema.document.DistinctTypes := by
  obtain ⟨document, -, accepted⟩ := Schema.of_source_ok_iff.mp accepted
  obtain ⟨indexed, -, -, rfl⟩ := Document.accepted_iff.mp accepted
  have distinct := Document.of_definitions_distinct_types indexed
  refine Document.DistinctTypes.map_objects (fun object => ?_)
    (distinct.map_objects (ObjectType.written_out_name · _))
  split <;> rfl

/-- The fields that introspection starts from resolve, as the types of introspection are there. -/
theorem Schema.HoldsIntrospection.entries (holds : schema.HoldsIntrospection) :
    ∀ field ∈ Introspection.entries, field.node.Resolves schema.document.kind? := by
  have object {expected : ObjectType} (listed : expected ∈ Introspection.objects) :
      (schema.document.kind? expected.name.node).isSome = true := by
    obtain ⟨object, stands⟩ := holds.object expected listed
    rw [Document.kind?, Option.isSome_map]
    exact Option.isSome_of_eq_some stands.typed
  obtain ⟨definition, found⟩ := holds.scalar .string
  have text : schema.document.kind? "String" = some .scalar :=
    congrArg (Option.map TypeDefinition.kind) found
  refine List.forall_mem_cons.mpr ⟨⟨?_, List.forall_mem_nil _⟩,
    List.forall_mem_singleton.mpr ⟨?_, List.forall_mem_singleton.mpr ?_⟩⟩
  · exact @object Introspection.schemaObject (by simp [Introspection.objects])
  · exact @object Introspection.typeObject (by simp [Introspection.objects])
  · change schema.document.kind? "String" ∈ _
    rw [text]
    exact List.mem_cons_self

/-- The types of an accepted schema resolve, the query root with its two further fields. -/
theorem Schema.accepted_resolves
    (accepted : Schema.ofSource source queryName mutationName = .ok schema)
    (holds : schema.HoldsIntrospection) :
    ∀ type ∈ schema.types, type.Resolves schema.document.kind? := by
  obtain ⟨document, -, accepted⟩ := Schema.of_source_ok_iff.mp accepted
  obtain ⟨-, -, fit, rfl⟩ := Document.accepted_iff.mp accepted
  have entries := holds.entries
  intro type among
  rw [Document.schema_kind] at entries ⊢
  rw [Schema.types, Document.schema, Document.map_objects_types] at among
  obtain ⟨base, there, rfl⟩ := List.mem_map.mp among
  have resolved := fit.resolves base there
  cases base with
  | object object =>
      rw [TypeDefinition.mapObject]
      split
      · refine ⟨fun field member => ?_, resolved.interfaces⟩
        rcases List.mem_append.mp member with own | entry
        · exact resolved.fields field own
        · exact entries field entry
      · exact resolved
  | _ => exact resolved

/-- The query root has the two fields that introspection starts from. -/
theorem Schema.accepted_root
    (accepted : Schema.ofSource source queryName mutationName = .ok schema) :
    ∃ root, schema.queryType? = some root ∧ root.name.node = queryName ∧
      root.field? "__schema" = some Introspection.schemaField ∧
      root.field? "__type" = some Introspection.typeField := by
  obtain ⟨document, -, accepted⟩ := Schema.of_source_ok_iff.mp accepted
  obtain ⟨-, -, fit, rfl⟩ := Document.accepted_iff.mp accepted
  obtain ⟨root, found⟩ := Document.merged_root_found fit.rooted
  obtain ⟨-, first, second⟩ := Introspection.with_entries_distinct_iff.mp (fit.entries root found)
  refine ⟨root.withEntries, Document.schema_query_root found, (Document.object_found found).2, ?_⟩
  have behind {name : String} (fresh : name ∉ fieldNames root.fields) :
      root.withEntries.field? name = findField? name Introspection.entries := by
    have absent := (root.field_none_iff name).mpr fresh
    rw [ObjectType.field?, findField?, Option.map_eq_none_iff] at absent
    rw [ObjectType.field?, ObjectType.withEntries, findField?, List.find?_append, absent,
      Option.none_or, findField?]
  exact ⟨(behind first).trans rfl, (behind second).trans rfl⟩

end Accepted

end GraphQL
