import GraphQL.Proofs.SchemaRoots

/-!
Extensions written into their base types.

Merging goes through the extensions one after the other and changes, for each, the first object type
of its name. Where no type name repeats, all of this comes to one change of every object type by the
extensions of its name: their fields are appended, and those interfaces that are not declared yet.
-/

namespace GraphQL

/-- The names that are not among those declared before, each once. -/
def undeclared (declared : List String) : List (Located String) → List (Located String)
  | [] => []
  | name :: rest =>
      if name.node ∈ declared then undeclared declared rest
      else name :: undeclared (declared ++ [name.node]) rest

def fieldNames (fields : List (Located FieldDefinition)) : List String :=
  fields.map fun field => field.node.name.node

namespace ObjectType

/-- No field is declared twice. -/
def DistinctFields (object : ObjectType) : Prop := (fieldNames object.fields).Nodup

def interfaceNames (object : ObjectType) : List String := object.interfaces.map (·.node)

/-- The object type with the parts of some extensions appended to its own. -/
def withParts (object : ObjectType) (extensions : List ObjectType) : ObjectType :=
  { object with
    interfaces := object.interfaces ++
      undeclared object.interfaceNames (extensions.flatMap (·.interfaces))
    fields := object.fields ++ extensions.flatMap (·.fields) }

/-- Appends the parts of those extensions that have the name of the object type. -/
def writtenOut (extensions : List (Located ObjectType)) (object : ObjectType) : ObjectType :=
  object.withParts
    ((extensions.map (·.node)).filter fun extension => extension.name.node == object.name.node)

end ObjectType

/-- Changes a type if it is an object type. -/
def TypeDefinition.mapObject (change : ObjectType → ObjectType) : TypeDefinition → TypeDefinition
  | .object definition => .object (change definition)
  | other => other

namespace Definition

def mapObject (change : ObjectType → ObjectType) : Definition → Definition
  | .type located => .type (located.map (·.mapObject change))
  | other => other

end Definition

/-- The names under which the types among some definitions are looked up. -/
def typeNames (definitions : List Definition) : List String :=
  (definitions.filterMap Definition.type?).map TypeDefinition.name

namespace Document

def mapObjects (document : Document) (change : ObjectType → ObjectType) : Document :=
  { document with definitions := document.definitions.map (Definition.mapObject change) }

/-- No type name is declared twice. -/
def DistinctTypes (document : Document) : Prop := (typeNames document.definitions).Nodup

/-- No field is declared twice in an object type. -/
def DistinctFields (document : Document) : Prop :=
  ∀ object, .object object ∈ document.types → object.DistinctFields

end Document

section Interfaces

theorem undeclared_append (declared : List String) (names more : List (Located String)) :
    undeclared declared (names ++ more) = undeclared declared names ++
      undeclared (declared ++ (undeclared declared names).map (·.node)) more := by
  induction names generalizing declared with
  | nil => simp [undeclared]
  | cons name rest ih =>
      by_cases known : name.node ∈ declared
      · simp [undeclared, known, ih]
      · simp [undeclared, known, ih, List.append_assoc]

/-- A name is left out only if it stands there already. -/
theorem undeclared_names (declared : List String) (names : List (Located String)) (name : String) :
    name ∈ declared ++ (undeclared declared names).map (·.node) ↔
      name ∈ declared ∨ name ∈ names.map (·.node) := by
  induction names generalizing declared with
  | nil => simp [undeclared]
  | cons first rest ih =>
      rw [undeclared, List.map_cons, List.mem_cons]
      split
      · rename_i there
        rw [ih]
        constructor
        · exact Or.imp_right .inr
        · rintro (old | rfl | new)
          · exact .inl old
          · exact .inl there
          · exact .inr new
      · rw [List.map_cons, List.append_cons, ih, List.mem_append, List.mem_singleton, or_assoc]

theorem add_interfaces_undeclared (object : ObjectType) (interfaces : List (Located String)) :
    object.addInterfaces interfaces =
      { object with
        interfaces := object.interfaces ++ undeclared object.interfaceNames interfaces } := by
  induction interfaces generalizing object with
  | nil => simp [ObjectType.addInterfaces, undeclared]
  | cons interface rest ih =>
      have implemented : object.implements interface.node = true ↔
          interface.node ∈ object.interfaceNames := by
        simp [ObjectType.implements, ObjectType.interfaceNames]
      rw [ObjectType.addInterfaces, List.foldl_cons, ← ObjectType.addInterfaces, ih, undeclared]
      by_cases known : interface.node ∈ object.interfaceNames
      · rw [if_pos (implemented.mpr known), if_pos known]
      · rw [if_neg (fun there => known (implemented.mp there)), if_neg known]
        simp [ObjectType.interfaceNames]

end Interfaces

namespace ObjectType

theorem field_none_iff (object : ObjectType) (name : String) :
    object.field? name = none ↔ name ∉ fieldNames object.fields := by
  simp [field?, findField?, fieldNames]

/-- Fields whose names all differ, also from those that stand there, are appended. -/
theorem add_fields_distinct {fields : List (Located FieldDefinition)} {object : ObjectType}
    (distinct : (fieldNames (object.fields ++ fields)).Nodup) :
    object.addFields fields = .ok { object with fields := object.fields ++ fields } := by
  induction fields generalizing object with
  | nil => simp [addFields]
  | cons field rest ih =>
      have fresh : object.field? field.node.name.node = none := by
        rw [field_none_iff]
        rw [fieldNames, List.map_append] at distinct
        exact fun there => (List.nodup_append.mp distinct).2.2 _ there _ List.mem_cons_self rfl
      rw [List.append_cons] at distinct ⊢
      rw [addFields, fresh]
      exact @ih { object with fields := object.fields ++ [field] } distinct

/-- Where a name would be taken twice, the field that would take it is reported. -/
theorem add_fields_repeated {fields : List (Located FieldDefinition)} {object : ObjectType}
    (distinct : object.DistinctFields)
    (repeated : ¬ (fieldNames (object.fields ++ fields)).Nodup) :
    ∃ field ∈ fields, object.addFields fields =
      .error (.parse (.duplicate .field field.node.name.node) field.node.name.span) := by
  induction fields generalizing object with
  | nil =>
      rw [List.append_nil] at repeated
      exact absurd distinct repeated
  | cons field rest ih =>
      rw [addFields]
      cases taken : object.field? field.node.name.node with
      | some other => exact ⟨field, List.mem_cons_self, rfl⟩
      | none =>
          rw [field_none_iff] at taken
          have longer : (fieldNames (object.fields ++ [field])).Nodup := by
            rw [fieldNames, List.map_append]
            refine List.nodup_append.mpr ⟨distinct, by simp, ?_⟩
            rintro name before other last rfl
            obtain rfl : name = field.node.name.node := List.mem_singleton.mp last
            exact taken before
          rw [List.append_cons] at repeated
          obtain ⟨refused, there, reported⟩ :=
            @ih { object with fields := object.fields ++ [field] } longer repeated
          exact ⟨refused, List.mem_cons_of_mem _ there, reported⟩

section Parts

variable (object : ObjectType) (extension : ObjectType) (rest : List ObjectType)

@[simp] theorem with_parts_name : (object.withParts rest).name = object.name := rfl

@[simp] theorem with_parts_fields :
    (object.withParts rest).fields = object.fields ++ rest.flatMap (·.fields) := rfl

theorem with_parts_interfaces (name : String) :
    name ∈ (object.withParts rest).interfaceNames ↔
      name ∈ object.interfaceNames ∨ ∃ part ∈ rest, name ∈ part.interfaceNames := by
  have names := undeclared_names object.interfaceNames (rest.flatMap (·.interfaces)) name
  rw [List.map_flatMap, List.mem_flatMap] at names
  rw [interfaceNames, withParts, List.map_append]
  exact names

@[simp] theorem written_out_name (extensions : List (Located ObjectType)) :
    (object.writtenOut extensions).name = object.name := rfl

theorem with_no_parts : object.withParts [] = object := by
  simp [withParts, undeclared]

/-- Parts are appended one extension after the other. -/
theorem with_parts_cons :
    object.withParts (extension :: rest) = (object.withParts [extension]).withParts rest := by
  simp [withParts, interfaceNames, undeclared_append, List.append_assoc]

theorem extend_distinct {object extension : ObjectType}
    (distinct : (object.withParts [extension]).DistinctFields) :
    object.extend extension = .ok (object.withParts [extension]) := by
  have fields : (fieldNames (object.fields ++ extension.fields)).Nodup := by
    simpa [withParts, DistinctFields] using distinct
  have added := @add_fields_distinct extension.fields
    (object.addInterfaces extension.interfaces)
  rw [add_interfaces_undeclared] at added
  rw [extend, add_interfaces_undeclared, added fields]
  simp [withParts]

theorem extend_repeated {object extension : ObjectType} (distinct : object.DistinctFields)
    (repeated : ¬ (object.withParts [extension]).DistinctFields) :
    ∃ field ∈ extension.fields, object.extend extension =
      .error (.parse (.duplicate .field field.node.name.node) field.node.name.span) := by
  rw [extend, add_interfaces_undeclared]
  refine add_fields_repeated distinct fun fields => repeated ?_
  simpa [withParts, DistinctFields] using fields

/-- Distinct fields stay so when parts are taken away. -/
theorem DistinctFields.fewer {object : ObjectType} {parts more : List ObjectType}
    (distinct : (object.withParts (parts ++ more)).DistinctFields) :
    (object.withParts parts).DistinctFields := by
  rw [DistinctFields, with_parts_fields, List.flatMap_append, ← List.append_assoc, fieldNames,
    List.map_append] at distinct
  exact (List.nodup_append.mp distinct).1

end Parts

end ObjectType

/-- Puts one object type in the place of those of a name. -/
def ObjectType.replacing (name : String) (changed other : ObjectType) : ObjectType :=
  if other.name.node = name then changed else other

section Types

variable {definitions : List Definition} {document : Document}

theorem map_object_name {change : ObjectType → ObjectType}
    (keeps : ∀ object, (change object).name = object.name) (type : TypeDefinition) :
    (type.mapObject change).name = type.name := by
  cases type with
  | object definition => exact congrArg Located.node (keeps definition)
  | _ => rfl

theorem map_object_type (change : ObjectType → ObjectType) (definition : Definition) :
    (definition.mapObject change).type? = definition.type?.map (·.mapObject change) := by
  cases definition <;> rfl

namespace Document

@[simp] theorem map_objects_types (change : ObjectType → ObjectType) :
    (document.mapObjects change).types = document.types.map (·.mapObject change) := by
  simp only [types, mapObjects, List.filterMap_map, List.map_filterMap, Function.comp_def,
    map_object_type]

theorem map_objects_congr {change other : ObjectType → ObjectType}
    (same : ∀ object, .object object ∈ document.types → change object = other object) :
    document.mapObjects change = document.mapObjects other := by
  rw [mapObjects, mapObjects]
  congr 1
  refine List.map_congr_left fun definition there => ?_
  cases definition with
  | type located =>
      obtain ⟨type, span⟩ := located
      cases type with
      | object definition =>
          have inside : .object definition ∈ document.types :=
            List.mem_filterMap.mpr ⟨_, there, rfl⟩
          simp [Definition.mapObject, Located.map, TypeDefinition.mapObject,
            same definition inside]
      | _ => rfl
  | _ => rfl

theorem map_objects_twice (first second : ObjectType → ObjectType) :
    (document.mapObjects first).mapObjects second =
      document.mapObjects fun object => second (first object) := by
  rw [mapObjects, mapObjects, mapObjects, List.map_map]
  congr 1
  refine List.map_congr_left fun definition _ => ?_
  cases definition with
  | type located =>
      obtain ⟨type, span⟩ := located
      cases type <;> rfl
  | _ => rfl

variable {change : ObjectType → ObjectType} (keeps : ∀ object, (change object).name = object.name)

include keeps

theorem map_objects_type (name : String) :
    (document.mapObjects change).type? name =
      (document.type? name).map (·.mapObject change) := by
  have named : (fun type : TypeDefinition => type.name == name) ∘ TypeDefinition.mapObject change =
      fun type => type.name == name := by
    funext type
    rw [Function.comp_apply, map_object_name keeps]
  rw [type?, type?, map_objects_types, List.find?_map]
  exact congrArg _ (congrArg (List.find? · document.types) named)

theorem map_objects_object (name : String) :
    (document.mapObjects change).object? name = (document.object? name).map change := by
  rw [object?, object?, map_objects_type keeps]
  cases document.type? name with
  | none => rfl
  | some type => cases type <;> rfl

theorem DistinctTypes.map_objects (distinct : document.DistinctTypes) :
    (document.mapObjects change).DistinctTypes := by
  have types : typeNames (document.mapObjects change).definitions =
      typeNames document.definitions := by
    change (document.mapObjects change).types.map _ = document.types.map _
    simp [map_object_name keeps]
  rwa [DistinctTypes, types]

end Document

end Types

section Lookup

variable {document : Document}

theorem Document.type_found_iff (distinct : document.DistinctTypes) {name : String}
    {type : TypeDefinition} :
    document.type? name = some type ↔ type ∈ document.types ∧ type.name = name := by
  constructor
  · intro found
    exact ⟨List.mem_of_find?_eq_some found, by simpa using List.find?_some found⟩
  · rintro ⟨there, rfl⟩
    have apart : (document.types.map TypeDefinition.name).Nodup := distinct
    obtain ⟨before, after, split⟩ := List.append_of_mem there
    rw [split, List.map_append] at apart
    have earlier : ∀ other ∈ before, ¬ other.name = type.name := fun other member same =>
      (List.nodup_append.mp apart).2.2 _ (List.mem_map_of_mem member) _ List.mem_cons_self same
    rw [Document.type?, split, List.find?_append]
    have passed : before.find? (fun other => other.name == type.name) = none := by
      simpa using earlier
    simp [passed]

theorem Document.object_typed_iff {name : String} {object : ObjectType} :
    document.object? name = some object ↔ document.type? name = some (.object object) := by
  rw [Document.object?]
  cases document.type? name with
  | none => simp
  | some type => cases type <;> simp

theorem Document.object_found {name : String} {object : ObjectType}
    (found : document.object? name = some object) :
    .object object ∈ document.types ∧ object.name.node = name := by
  rw [object_typed_iff, type?] at found
  have named := List.find?_some found
  exact ⟨List.mem_of_find?_eq_some found, beq_iff_eq.mp named⟩

theorem Document.object_found_iff (distinct : document.DistinctTypes) {name : String}
    {object : ObjectType} :
    document.object? name = some object ↔
      .object object ∈ document.types ∧ object.name.node = name := by
  rw [document.object_typed_iff, document.type_found_iff distinct]
  rfl

theorem map_object_other {definition : Definition} {change : ObjectType → ObjectType}
    (same : ∀ object, definition.type? = some (.object object) → change object = object) :
    definition.mapObject change = definition := by
  cases definition with
  | type located =>
      obtain ⟨type, span⟩ := located
      cases type with
      | object definition =>
          simp [Definition.mapObject, Located.map, TypeDefinition.mapObject, same definition rfl]
      | _ => rfl
  | _ => rfl

theorem replacing_elsewhere {definitions : List Definition} {name : String}
    (missing : name ∉ typeNames definitions) (changed : ObjectType) :
    definitions.map (Definition.mapObject (.replacing name changed)) = definitions := by
  refine (List.map_congr_left fun definition there => map_object_other ?_).trans (List.map_id _)
  intro object typed
  refine if_neg fun same => missing ?_
  exact List.mem_map.mpr ⟨.object object, List.mem_filterMap.mpr ⟨definition, there, typed⟩, same⟩

section Update

variable {definition : Definition} {rest : List Definition} {name : String}

theorem distinct_rest (distinct : (typeNames (definition :: rest)).Nodup) :
    (typeNames rest).Nodup := by
  rw [typeNames, List.filterMap_cons] at distinct
  cases typed : definition.type? with
  | none => rwa [typed] at distinct
  | some type =>
      rw [typed] at distinct
      exact (List.nodup_cons.mp distinct).2

variable (other : ∀ object, definition.type? = some (.object object) → object.name.node ≠ name)

include other

theorem object_passed (distinct : (typeNames (definition :: rest)).Nodup) (span : Span) :
    (⟨definition :: rest, span⟩ : Document).object? name =
      (⟨rest, span⟩ : Document).object? name := by
  have whole : (⟨definition :: rest, span⟩ : Document).DistinctTypes := distinct
  have later : (⟨rest, span⟩ : Document).DistinctTypes := distinct_rest distinct
  refine Option.ext fun object => ?_
  rw [Document.object_found_iff whole, Document.object_found_iff later]
  refine and_congr_left fun named => ?_
  rw [Document.types, Document.types, List.mem_filterMap, List.mem_filterMap]
  constructor
  · rintro ⟨found, there, typed⟩
    rcases List.mem_cons.mp there with rfl | later
    · exact absurd named (other object typed)
    · exact ⟨found, later, typed⟩
  · rintro ⟨found, later, typed⟩
    exact ⟨found, List.mem_cons_of_mem _ later, typed⟩

theorem update_object_passed (change : ObjectType → Except SchemaError ObjectType) :
    updateObject? name change (definition :: rest) =
      (updateObject? name change rest).map (Except.map (definition :: ·)) := by
  cases definition with
  | type located =>
      obtain ⟨type, place⟩ := located
      cases type with
      | object object => exact if_neg (other object rfl)
      | _ => rfl
  | _ => rfl

end Update

/-- Without repeated type names, the object type is changed that is found under the name. -/
theorem update_object_eq {definitions : List Definition}
    (distinct : (typeNames definitions).Nodup) (span : Span) (name : String)
    (change : ObjectType → Except SchemaError ObjectType) :
    updateObject? name change definitions =
      ((⟨definitions, span⟩ : Document).object? name).map fun object =>
        (change object).map fun changed =>
          definitions.map (Definition.mapObject (.replacing name changed)) := by
  induction definitions with
  | nil => rfl
  | cons definition rest ih =>
      by_cases here : ∃ object, definition.type? = some (.object object) ∧ object.name.node = name
      · obtain ⟨object, typed, rfl⟩ := here
        have whole : (⟨definition :: rest, span⟩ : Document).DistinctTypes := distinct
        have found := (Document.object_found_iff whole).mpr
          ⟨List.mem_filterMap.mpr ⟨definition, List.mem_cons_self, typed⟩, rfl⟩
        obtain ⟨place, rfl⟩ : ∃ place, definition = .type ⟨.object object, place⟩ := by
          cases definition with
          | type located =>
              obtain ⟨type, place⟩ := located
              cases typed
              exact ⟨place, rfl⟩
          | _ => cases typed
        have fresh : object.name.node ∉ typeNames rest := (List.nodup_cons.mp distinct).1
        rw [updateObject?, if_pos rfl, found, Option.map_some]
        cases change object with
        | error error => rfl
        | ok changed =>
            simp [Except.map, Definition.mapObject, Located.map, TypeDefinition.mapObject,
              ObjectType.replacing, replacing_elsewhere fresh changed]
      · have other : ∀ object, definition.type? = some (.object object) → object.name.node ≠ name :=
          fun object typed same => here ⟨object, typed, same⟩
        have kept (changed : ObjectType) :
            definition.mapObject (.replacing name changed) = definition :=
          map_object_other fun object typed => if_neg (other object typed)
        rw [update_object_passed other, ih (distinct_rest distinct), object_passed other distinct]
        cases (⟨rest, span⟩ : Document).object? name with
        | none => rfl
        | some object =>
            rw [Option.map_some, Option.map_some, Option.map_some]
            cases change object with
            | error error => rfl
            | ok changed => simp [Except.map, kept changed]

/-- Where the object type of a name can be changed, this is a change of all that have the name. -/
theorem update_object_found {name : String} {object : ObjectType}
    {change : ObjectType → Except SchemaError ObjectType} (outcome : ObjectType → ObjectType)
    (distinct : document.DistinctTypes) (found : document.object? name = some object)
    (changed : change object = .ok (outcome object)) :
    updateObject? name change document.definitions =
      some (.ok (document.mapObjects fun other =>
        if other.name.node = name then outcome other else other).definitions) := by
  have replaced : document.mapObjects (.replacing name (outcome object)) =
      document.mapObjects fun other => if other.name.node = name then outcome other else other := by
    refine Document.map_objects_congr fun other there => ?_
    rw [ObjectType.replacing]
    split
    · rename_i same
      have here := (document.object_found_iff distinct).mpr ⟨there, same⟩
      rw [found] at here
      cases here
      rfl
    · rfl
  rw [update_object_eq distinct document.span, found, Option.map_some, changed, ← replaced]
  rfl

end Lookup

section Merging

variable {document merged : Document}

/-- Object types that no extension names stay as they are. -/
theorem written_out_one (extension : Located ObjectType) (object : ObjectType) :
    object.writtenOut [extension] =
      if object.name.node = extension.node.name.node then object.withParts [extension.node]
      else object := by
  rw [ObjectType.writtenOut]
  by_cases same : object.name.node = extension.node.name.node
  · simp [same]
  · simp [same, Ne.symm same, ObjectType.with_no_parts]

theorem written_out_cons (extension : Located ObjectType) (rest : List (Located ObjectType))
    (object : ObjectType) :
    object.writtenOut (extension :: rest) =
      (object.writtenOut [extension]).writtenOut rest := by
  rw [written_out_one]
  by_cases same : object.name.node = extension.node.name.node
  · rw [if_pos same, ObjectType.writtenOut, ObjectType.writtenOut, ObjectType.with_parts_name,
      ← ObjectType.with_parts_cons]
    simp [same]
  · rw [if_neg same, ObjectType.writtenOut, ObjectType.writtenOut]
    simp [Ne.symm same]

namespace Document

/-- The document in which the object types hold the parts of some extensions. -/
abbrev withExtensions (document : Document) (extensions : List (Located ObjectType)) : Document :=
  document.mapObjects (ObjectType.writtenOut extensions)

theorem with_extensions_cons (extension : Located ObjectType)
    (rest : List (Located ObjectType)) :
    document.withExtensions (extension :: rest) =
      (document.withExtensions [extension]).withExtensions rest := by
  rw [withExtensions, withExtensions, withExtensions, map_objects_twice]
  exact map_objects_congr fun object _ => written_out_cons extension rest object

theorem with_no_extensions : document.withExtensions [] = document := by
  have unchanged (object : ObjectType) : object.writtenOut [] = object := object.with_no_parts
  rw [withExtensions, mapObjects]
  congr
  refine (List.map_congr_left fun definition _ => ?_).trans (List.map_id _)
  exact map_object_other fun object _ => unchanged object

/-- Every extension has the name of an object type. -/
def Extends (document : Document) (extensions : List (Located ObjectType)) : Prop :=
  ∀ extension ∈ extensions, (document.object? extension.node.name.node).isSome = true

theorem merge_extension_unknown {extension : ObjectType} (distinct : document.DistinctTypes)
    (unknown : document.object? extension.name.node = none) :
    document.mergeExtension extension =
      .error (.unknownType extension.name.node "extend type") := by
  rw [mergeExtension, update_object_eq distinct document.span, unknown]
  rfl

theorem merge_extension_known {extension : Located ObjectType} {object : ObjectType}
    (distinct : document.DistinctTypes)
    (known : document.object? extension.node.name.node = some object)
    (fields : (object.withParts [extension.node]).DistinctFields) :
    document.mergeExtension extension.node = .ok (document.withExtensions [extension]) := by
  have merged : document.mapObjects (fun other =>
      if other.name.node = extension.node.name.node then other.withParts [extension.node]
      else other) = document.withExtensions [extension] :=
    map_objects_congr fun other _ => (written_out_one extension other).symm
  rw [mergeExtension, update_object_found (·.withParts [extension.node]) distinct known, merged]
  · rfl
  · exact ObjectType.extend_distinct fields

theorem merge_extension_repeated {extension : ObjectType} {object : ObjectType}
    (distinct : document.DistinctTypes)
    (known : document.object? extension.name.node = some object)
    (apart : object.DistinctFields) (repeated : ¬ (object.withParts [extension]).DistinctFields) :
    ∃ field ∈ extension.fields, document.mergeExtension extension =
      .error (.parse (.duplicate .field field.node.name.node) field.node.name.span) := by
  obtain ⟨field, there, refused⟩ := ObjectType.extend_repeated apart repeated
  refine ⟨field, there, ?_⟩
  rw [mergeExtension, update_object_eq distinct document.span, known, Option.map_some, refused]
  rfl

/-- Extensions change no names, so they extend the same object types afterwards. -/
theorem Extends.with_extensions {extensions more : List (Located ObjectType)} :
    (document.withExtensions extensions).Extends more ↔ document.Extends more := by
  have same (name : String) : ((document.withExtensions extensions).object? name).isSome =
      (document.object? name).isSome := by
    rw [withExtensions, map_objects_object (ObjectType.written_out_name · extensions),
      Option.isSome_map]
  simp only [Extends, same]

/-- The object types that some extensions leave with distinct fields have had them before. -/
theorem DistinctFields.without {extensions more : List (Located ObjectType)}
    (distinct : (document.withExtensions (extensions ++ more)).DistinctFields) :
    (document.withExtensions extensions).DistinctFields := by
  intro object there
  rw [withExtensions, map_objects_types] at there
  obtain ⟨type, inside, same⟩ := List.mem_map.mp there
  cases type with
  | object definition => 
      cases same
      have later := distinct (definition.writtenOut (extensions ++ more)) (by
        rw [withExtensions, map_objects_types]
        exact List.mem_map.mpr ⟨_, inside, rfl⟩)
      rw [ObjectType.writtenOut, List.map_append, List.filter_append] at later
      exact later.fewer
  | _ => cases same

/-- Where the base type of an extension is found, its parts stand there afterwards. -/
theorem written_out_found {extension : Located ObjectType} {object : ObjectType}
    (found : document.object? extension.node.name.node = some object) :
    .object (object.withParts [extension.node]) ∈ (document.withExtensions [extension]).types := by
  obtain ⟨there, named⟩ := document.object_found found
  rw [withExtensions, map_objects_types]
  refine List.mem_map.mpr ⟨_, there, ?_⟩
  rw [TypeDefinition.mapObject, written_out_one, if_pos named]

/-- Extensions are merged if each has a base type and no field is declared twice. -/
theorem merge_extensions_distinct {extensions : List (Located ObjectType)}
    (distinct : document.DistinctTypes) (known : document.Extends extensions)
    (fields : (document.withExtensions extensions).DistinctFields) :
    document.mergeExtensions extensions = .ok (document.withExtensions extensions) := by
  induction extensions generalizing document with
  | nil => rw [mergeExtensions, with_no_extensions]
  | cons extension rest ih =>
      obtain ⟨present, others⟩ := List.forall_mem_cons.mp known
      obtain ⟨object, found⟩ := Option.isSome_iff_exists.mp present
      have first : (document.withExtensions [extension]).DistinctFields :=
        DistinctFields.without fields
      have merged := merge_extension_known distinct found
        (first _ (written_out_found found))
      rw [with_extensions_cons] at fields ⊢
      rw [mergeExtensions, merged]
      exact ih (distinct.map_objects (ObjectType.written_out_name · _))
        (Extends.with_extensions.mpr others) fields

section Distinct

variable (distinct : document.DistinctTypes) (apart : document.DistinctFields)

include distinct apart

/-- One extension leaves all fields distinct, or one of its own fields is reported. -/
theorem merge_extension_cases {extension : Located ObjectType} {object : ObjectType}
    (found : document.object? extension.node.name.node = some object) :
    ((document.withExtensions [extension]).DistinctFields ∧
      document.mergeExtension extension.node = .ok (document.withExtensions [extension])) ∨
    ¬ (document.withExtensions [extension]).DistinctFields ∧
      ∃ field ∈ extension.node.fields, document.mergeExtension extension.node =
        .error (.parse (.duplicate .field field.node.name.node) field.node.name.span) := by
  by_cases fields : (object.withParts [extension.node]).DistinctFields
  · refine .inl ⟨fun other there => ?_, merge_extension_known distinct found fields⟩
    rw [withExtensions, map_objects_types] at there
    obtain ⟨type, inside, same⟩ := List.mem_map.mp there
    cases type with
    | object definition =>
        cases same
        rw [written_out_one]
        split
        · rename_i named
          have here := (document.object_found_iff distinct).mpr ⟨inside, named⟩
          rw [found] at here
          cases here
          exact fields
        · exact apart definition inside
    | _ => cases same
  · have own := apart object (document.object_found found).1
    exact .inr ⟨fun all => fields (all _ (written_out_found found)),
      merge_extension_repeated distinct found own fields⟩

/-- Whatever extensions are merged, each has a base type. -/
theorem merge_extensions_extend {extensions : List (Located ObjectType)}
    (done : document.mergeExtensions extensions = .ok merged) : document.Extends extensions := by
  induction extensions generalizing document with
  | nil => exact List.forall_mem_nil _
  | cons extension rest ih =>
      rw [mergeExtensions] at done
      cases found : document.object? extension.node.name.node with
      | none =>
          rw [merge_extension_unknown distinct found] at done
          cases done
      | some object =>
          rcases merge_extension_cases distinct apart found with ⟨fields, one⟩ | ⟨-, _, -, refused⟩
          · rw [one] at done
            have others := ih (distinct.map_objects (ObjectType.written_out_name · _)) fields done
            exact List.forall_mem_cons.mpr
              ⟨Option.isSome_iff_exists.mpr ⟨object, found⟩, Extends.with_extensions.mp others⟩
          · rw [refused] at done
            cases done

/-- A field that is declared twice, in a base type and its extensions, is reported. -/
theorem merge_extensions_repeated {extensions : List (Located ObjectType)}
    (known : document.Extends extensions)
    (repeated : ¬ (document.withExtensions extensions).DistinctFields) :
    ∃ extension ∈ extensions, ∃ field ∈ extension.node.fields,
      document.mergeExtensions extensions =
        .error (.parse (.duplicate .field field.node.name.node) field.node.name.span) := by
  induction extensions generalizing document with
  | nil =>
      rw [with_no_extensions] at repeated
      exact absurd apart repeated
  | cons extension rest ih =>
      obtain ⟨present, others⟩ := List.forall_mem_cons.mp known
      obtain ⟨object, found⟩ := Option.isSome_iff_exists.mp present
      rw [mergeExtensions]
      rcases merge_extension_cases distinct apart found with ⟨fields, one⟩ | ⟨-, field, own, refused⟩
      · rw [with_extensions_cons] at repeated
        obtain ⟨later, there, field, own, refused⟩ :=
          ih (distinct.map_objects (ObjectType.written_out_name · _)) fields
            (Extends.with_extensions.mpr others) repeated
        exact ⟨later, List.mem_cons_of_mem _ there, field, own, one ▸ refused⟩
      · exact ⟨extension, List.mem_cons_self, field, own, by rw [refused]⟩

/-- Merging is writing the extensions into their base types, all at once. -/
theorem merge_extensions_ok_iff {extensions : List (Located ObjectType)} :
    document.mergeExtensions extensions = .ok merged ↔
      document.Extends extensions ∧ (document.withExtensions extensions).DistinctFields ∧
        merged = document.withExtensions extensions := by
  constructor
  · intro done
    have known := merge_extensions_extend distinct apart done
    by_cases fields : (document.withExtensions extensions).DistinctFields
    · rw [merge_extensions_distinct distinct known fields] at done
      cases done
      exact ⟨known, fields, rfl⟩
    · obtain ⟨_, _, _, _, refused⟩ := merge_extensions_repeated distinct apart known fields
      rw [refused] at done
      cases done
  · rintro ⟨known, fields, rfl⟩
    exact merge_extensions_distinct distinct known fields

end Distinct

end Document

end Merging

end GraphQL
