import GraphQL.Proofs.Collection
import GraphQL.Proofs.SchemaClosure

/-!
The possible types of interfaces and unions.

In an accepted schema an interface stands for the object types that declare it, in their definition
or in an extension, and a union for its members. Each is listed once; no other name has possible
types.
-/

namespace GraphQL

section Listing

/-- Only the first of equal names is added. -/
theorem append_new_first (names more : List String) :
    appendNew names more = names ++ (more.filter fun name => name ∉ names).eraseDups := by
  induction more generalizing names with
  | nil => simp [appendNew]
  | cons name rest ih =>
      have one := append_new_append names [name] rest
      rw [List.singleton_append, append_new_one] at one
      rw [one, ih]
      by_cases old : name ∈ names
      · rw [if_pos old, List.filter_cons_of_neg (by simpa using old)]
      · rw [if_neg old, List.filter_cons_of_pos (by simpa using old), List.eraseDups_cons,
          List.filter_filter, List.append_assoc, List.singleton_append]
        congr 4
        funext other
        rw [Bool.eq_iff_iff]
        simp [and_comm]

theorem append_new_nothing (more : List String) : appendNew [] more = more.eraseDups := by
  rw [append_new_first, List.nil_append, List.filter_eq_self.mpr (by simp)]

theorem append_new_sublist (names more : List String) :
    (appendNew names more).Sublist (names ++ more) := by
  induction more generalizing names with
  | nil => simp [appendNew]
  | cons name rest ih =>
      have one := append_new_append names [name] rest
      rw [List.singleton_append, append_new_one] at one
      rw [one]
      split
      · exact (ih names).trans ((List.sublist_cons_self name rest).append_left names)
      · have longer := ih (names ++ [name])
        rwa [← List.append_cons] at longer

end Listing

/-- What all types contribute is listed in the order of the types, each name once. -/
theorem Document.possible_types_eq (document : Document) (name : String) :
    document.possibleTypes name = appendNew [] (document.types.flatMap (possibleIn name)) := by
  have listed (types : List TypeDefinition) (names : List String) :
      types.foldl (fun names type => appendNew names (possibleIn name type)) names =
        appendNew names (types.flatMap (possibleIn name)) := by
    induction types generalizing names with
    | nil => rfl
    | cons type rest ih => rw [List.foldl_cons, ih, List.flatMap_cons, append_new_append]
  exact listed document.types []

namespace ObjectType

theorem implements_iff (object : ObjectType) (name : String) :
    object.implements name = true ↔ name ∈ object.interfaceNames := by
  simp [implements, interfaceNames]

end ObjectType

namespace Document

section Resolved

variable {document : Document} {abstractName objectName : String} {union : UnionType}
  (resolved : ∀ type ∈ document.types, type.Resolves document.kind?)
  (distinct : document.DistinctTypes)

section Objects

include resolved

/-- An object type adds its name to what it implements. -/
theorem object_adds {object : ObjectType} (there : .object object ∈ document.types)
    (listed : objectName ∈ possibleIn abstractName (.object object)) :
    objectName = object.name.node ∧ abstractName ∈ object.interfaceNames ∧
      document.kind? abstractName = some .interface := by
  rw [possibleIn] at listed
  split at listed
  · rename_i implemented
    have declared := (object.implements_iff abstractName).mp implemented
    have own : object.Resolves document.kind? := resolved _ there
    exact ⟨List.mem_singleton.mp listed, declared, own.interfaces _ declared⟩
  · cases listed

end Objects

/-- Only the union of a name adds its members to that name. -/
theorem union_adds (listed : objectName ∈ possibleIn abstractName (.union union)) :
    union.name.node = abstractName ∧ objectName ∈ union.members.map (·.node) := by
  rw [possibleIn] at listed
  split at listed
  · rename_i named
    exact ⟨named, listed⟩
  · cases listed

include distinct

/-- Object types stand in the list of an interface as they are defined. -/
theorem interface_in_order (known : document.kind? abstractName = some .interface) :
    (document.possibleTypes abstractName).Sublist (document.types.map TypeDefinition.name) := by
  have each (types : List TypeDefinition) (within : ∀ type ∈ types, type ∈ document.types) :
      (types.flatMap (possibleIn abstractName)).Sublist (types.map TypeDefinition.name) := by
    induction types with
    | nil => exact List.Sublist.refl _
    | cons type rest ih =>
        obtain ⟨there, others⟩ := List.forall_mem_cons.mp within
        have one : (possibleIn abstractName type).Sublist [type.name] := by
          cases type with
          | object object =>
              rw [possibleIn]
              split
              · exact List.Sublist.refl _
              · exact List.nil_sublist _
          | union union =>
              rw [possibleIn, if_neg]
              · exact List.nil_sublist _
              · intro named
                have found := (type_found_iff distinct).mpr ⟨there, named⟩
                rw [kind?, found] at known
                cases known
          | _ => exact List.nil_sublist _
        exact one.append (ih others)
  rw [possible_types_eq]
  exact (append_new_sublist [] _).trans (each _ fun _ there => there)

include resolved

theorem possible_type_iff :
    objectName ∈ document.possibleTypes abstractName ↔
      (document.kind? abstractName = some .interface ∧
        ∃ object, document.object? objectName = some object ∧
          abstractName ∈ object.interfaceNames) ∨
      ∃ union, document.type? abstractName = some (.union union) ∧
        objectName ∈ union.members.map (·.node) := by
  rw [possible_types_eq, mem_append_new, List.mem_flatMap]
  constructor
  · rintro (none | ⟨type, there, listed⟩)
    · cases none
    · cases type with
      | object object =>
          obtain ⟨rfl, declared, known⟩ := object_adds resolved there listed
          exact .inl ⟨known, object, (object_found_iff distinct).mpr ⟨there, rfl⟩, declared⟩
      | union union =>
          obtain ⟨named, member⟩ := union_adds listed
          exact .inr ⟨union, (type_found_iff distinct).mpr ⟨there, named⟩, member⟩
      | _ => cases listed
  · rintro (⟨-, object, found, declared⟩ | ⟨union, found, member⟩)
    · obtain ⟨there, rfl⟩ := object_found found
      refine .inr ⟨_, there, ?_⟩
      rw [possibleIn, if_pos ((object.implements_iff _).mpr declared)]
      exact List.mem_singleton.mpr rfl
    · obtain ⟨there, named⟩ := (type_found_iff distinct).mp found
      refine .inr ⟨_, there, ?_⟩
      have own : union.name.node = abstractName := named
      rw [possibleIn, if_pos own]
      exact member

/-- A union stands for its members, in their order. -/
theorem union_in_order (found : document.type? abstractName = some (.union union)) :
    document.possibleTypes abstractName = (union.members.map (·.node)).eraseDups := by
  obtain ⟨there, named⟩ := (type_found_iff distinct).mp found
  have other (type : TypeDefinition) (inside : type ∈ document.types)
      (differs : type ≠ .union union) : possibleIn abstractName type = [] := by
    refine List.eq_nil_iff_forall_not_mem.mpr fun name listed => ?_
    cases type with
    | object object =>
        obtain ⟨-, -, known⟩ := object_adds resolved inside listed
        rw [kind?, found] at known
        cases known
    | union second =>
        have again := (type_found_iff distinct).mpr ⟨inside, (union_adds listed).1⟩
        rw [found] at again
        exact differs (Option.some.inj again).symm
    | _ => cases listed
  obtain ⟨before, after, split⟩ := List.append_of_mem there
  have apart : (document.types.map TypeDefinition.name).Nodup := distinct
  rw [split, List.map_append, List.map_cons] at apart
  obtain ⟨-, alone, differ⟩ := List.nodup_append.mp apart
  have nothing (types : List TypeDefinition) (within : ∀ type ∈ types, type ∈ document.types)
      (fresh : TypeDefinition.name (.union union) ∉ types.map TypeDefinition.name) :
      types.flatMap (possibleIn abstractName) = [] :=
    List.flatMap_eq_nil_iff.mpr fun type inside => other type (within type inside) fun same =>
      fresh (same ▸ List.mem_map_of_mem inside)
  have earlier := nothing before (fun type inside => split ▸ List.mem_append_left _ inside)
    fun inside => differ _ inside _ List.mem_cons_self rfl
  have later := nothing after
    (fun type inside => split ▸ List.mem_append_right _ (List.mem_cons_of_mem _ inside))
    (List.nodup_cons.mp alone).1
  have own : union.name.node = abstractName := named
  rw [possible_types_eq, append_new_nothing, split, List.flatMap_append, List.flatMap_cons,
    earlier, later, List.nil_append, List.append_nil, possibleIn, if_pos own]

theorem possible_type_object (listed : objectName ∈ document.possibleTypes abstractName) :
    document.kind? objectName = some .object := by
  rcases (possible_type_iff resolved distinct).mp listed with
    ⟨-, object, found, -⟩ | ⟨union, found, member⟩
  · exact (object_found_kind _ _).mp (Option.isSome_iff_exists.mpr ⟨object, found⟩)
  · obtain ⟨there, -⟩ := (type_found_iff distinct).mp found
    have own : ∀ member ∈ union.members, document.kind? member.node = some .object :=
      resolved _ there
    obtain ⟨located, inside, rfl⟩ := List.mem_map.mp member
    exact own located inside

/-- Names that are not those of abstract types stand for no object types. -/
theorem no_possible_types (concrete : document.kind? abstractName ≠ some .interface ∧
    document.kind? abstractName ≠ some .union) : document.possibleTypes abstractName = [] := by
  refine List.eq_nil_iff_forall_not_mem.mpr fun name listed => ?_
  rcases (possible_type_iff resolved distinct).mp listed with ⟨known, -⟩ | ⟨union, found, -⟩
  · exact concrete.1 known
  · refine concrete.2 ?_
    rw [kind?, found]
    rfl

end Resolved

section Changed

variable {document : Document} {change : ObjectType → ObjectType}
  (keeps : ∀ object, (change object).name = object.name)

include keeps

/-- Possible types depend on names and interfaces only. -/
theorem map_objects_possible (name : String)
    (same : ∀ object, (change object).interfaces = object.interfaces) :
    (document.mapObjects change).possibleTypes name = document.possibleTypes name := by
  have each (type : TypeDefinition) :
      possibleIn name (type.mapObject change) = possibleIn name type := by
    cases type with
    | object object =>
        rw [TypeDefinition.mapObject, possibleIn, possibleIn, ObjectType.implements,
          ObjectType.implements, same, keeps]
    | _ => rfl
  rw [possible_types_eq, possible_types_eq, map_objects_types, List.flatMap_map]
  simp only [each]

theorem map_objects_union {name : String} {union : UnionType} :
    (document.mapObjects change).type? name = some (.union union) ↔
      document.type? name = some (.union union) := by
  rw [map_objects_type keeps]
  cases document.type? name with
  | none => simp
  | some type => cases type <;> simp [TypeDefinition.mapObject]

end Changed

/-- The object type of a name declares an interface, in its definition or in an extension. -/
def Declares (document : Document) (objectName interfaceName : String) : Prop :=
  ∃ object, document.object? objectName = some object ∧
    (interfaceName ∈ object.interfaceNames ∨
      ∃ extension ∈ document.extensions, extension.node.name.node = objectName ∧
        interfaceName ∈ extension.node.interfaceNames)

theorem declares_merged_iff (document : Document) (objectName interfaceName : String) :
    document.Declares objectName interfaceName ↔
      ∃ object, document.merged.object? objectName = some object ∧
        interfaceName ∈ object.interfaceNames := by
  rw [merged, map_objects_object (ObjectType.written_out_name · _), Declares]
  cases found : document.object? objectName with
  | none => simp
  | some object =>
      have named := (object_found found).2
      simp [ObjectType.writtenOut, ObjectType.with_parts_interfaces, named, and_assoc]

end Document

/-- The possible types of a schema are those that its document tells of. -/
structure Schema.ExactIndex (schema : Schema) (document : Document) : Prop where
  possible_iff : ∀ abstractName objectName, schema.isPossibleType abstractName objectName = true ↔
    (schema.document.kind? abstractName = some .interface ∧
      document.Declares objectName abstractName) ∨
    ∃ union, schema.type? abstractName = some (.union union) ∧
      objectName ∈ union.members.map (·.node)
  listed_iff : ∀ abstractName objectName, objectName ∈ schema.possibleTypes abstractName ↔
    schema.isPossibleType abstractName objectName = true
  once : ∀ name, (schema.possibleTypes name).Nodup
  definition_order : ∀ name, schema.document.kind? name = some .interface →
    (schema.possibleTypes name).Sublist (schema.types.map TypeDefinition.name)
  member_order : ∀ name union, schema.type? name = some (.union union) →
    schema.possibleTypes name = (union.members.map (·.node)).eraseDups
  objects : ∀ name, ∀ objectName ∈ schema.possibleTypes name,
    schema.document.kind? objectName = some .object
  concrete : ∀ name, schema.document.kind? name ≠ some .interface ∧
    schema.document.kind? name ≠ some .union → schema.possibleTypes name = []

/-- The schema that a fit document gives lists what the document declares. -/
theorem Document.Buildable.index_exact {document : Document} {queryName : String}
    {mutationName : Option String} (distinct : document.DistinctTypes)
    (fit : document.Buildable queryName mutationName) :
    (document.schema queryName mutationName).ExactIndex document := by
  have merged : document.merged.DistinctTypes :=
    distinct.map_objects (ObjectType.written_out_name · _)
  have resolved := fit.resolves
  rw [← document.merged_kind] at resolved
  have keeps (object : ObjectType) :
      (if object.name.node = queryName then object.withEntries else object).name =
        object.name := by
    split <;> rfl
  have kinds : (document.schema queryName mutationName).document.kind? = document.merged.kind? :=
    map_objects_kind keeps
  have possible (name : String) :
      (document.schema queryName mutationName).possibleTypes name =
        document.merged.possibleTypes name :=
    map_objects_possible keeps name fun object => by split <;> rfl
  have unions (name : String) (union : UnionType) :
      (document.schema queryName mutationName).type? name = some (.union union) ↔
        document.merged.type? name = some (.union union) :=
    map_objects_union keeps
  have listed_iff (abstractName objectName : String) :
      (document.schema queryName mutationName).isPossibleType abstractName objectName = true ↔
        objectName ∈ (document.schema queryName mutationName).possibleTypes abstractName :=
    decide_eq_true_iff
  constructor
  · intro abstractName objectName
    rw [listed_iff, possible, kinds, document.declares_merged_iff,
      possible_type_iff resolved merged]
    simp only [unions]
  · exact fun abstractName objectName => (listed_iff abstractName objectName).symm
  · intro name
    rw [Schema.possibleTypes, possible_types_eq]
    exact append_new_nodup List.nodup_nil _
  · intro name known
    exact interface_in_order (merged.map_objects keeps) known
  · intro name union found
    rw [possible]
    exact union_in_order resolved merged ((unions name union).mp found)
  · intro name objectName listed
    rw [possible] at listed
    rw [kinds]
    exact possible_type_object resolved merged listed
  · intro name concrete
    rw [kinds] at concrete
    rw [possible]
    exact no_possible_types resolved merged concrete

theorem Schema.of_source_exact {source queryName : String} {mutationName : Option String}
    {schema : Schema} (built : Schema.ofSource source queryName mutationName = .ok schema) :
    ∃ document, Document.ofText (Schema.fullText source.toList) = .ok document ∧
      schema.ExactIndex document := by
  obtain ⟨document, read, accepted⟩ := Schema.of_source_ok_iff.mp built
  obtain ⟨indexed, -, fit, rfl⟩ := Document.accepted_iff.mp accepted
  exact ⟨document, read, fit.index_exact (Document.of_definitions_distinct_types indexed)⟩

/-- The possible types of an accepted schema are exactly those that its source declares. -/
theorem possible_types_exact {source queryName : String} {mutationName : Option String}
    {schema : Schema} (built : Schema.ofSource source queryName mutationName = .ok schema) :
    ∃ document, Document.ofText (Schema.fullText source.toList) = .ok document ∧
      schema.ExactIndex document := Schema.of_source_exact built

/-- The types of pets are among those whose possible types are known exactly. -/
theorem pet_types_exact :
    ∃ (schema : Schema) (document : Document),
      Schema.ofSource petSource "Dog" (some "Cat") = .ok schema ∧
      Document.ofText (Schema.fullText petSource.toList) = .ok document ∧
      schema.ExactIndex document := by
  obtain ⟨schema, _, built, _⟩ := Schema.found_in_source pet_source_read
  obtain ⟨document, read, index⟩ := possible_types_exact built
  exact ⟨schema, document, built, read, index⟩

end GraphQL
