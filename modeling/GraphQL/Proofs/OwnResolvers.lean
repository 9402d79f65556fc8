import GraphQL.Execution.Response
import GraphQL.Proofs.HeldTypes
import GraphQL.Proofs.SourceNames

/-!
The resolvers that introspection brings along, as executors look them up.

They are added before those of the application. Where the application has no resolver for a field,
the field is looked up among them: each is the only one of its field name, except for type names.
-/

namespace GraphQL

variable {σ : Type}

section Keys

/-- A key is split at the slash behind a name without slashes. -/
theorem split_key_first {front back : List Char} (free : '/' ∉ front) :
    splitKey? (String.ofList (front ++ '/' :: back)) =
      some (String.ofList front, String.ofList back) := by
  have passed : ∀ c ∈ front, (c != '/') = true := fun c there =>
    bne_iff_ne.mpr fun same => free (same ▸ there)
  have stops (rest : List Char) :
      ('/' :: rest).takeWhile (· != '/') = [] ∧ ('/' :: rest).dropWhile (· != '/') = '/' :: rest :=
    ⟨rfl, rfl⟩
  rw [splitKey?, String.toList_ofList, List.takeWhile_append_of_pos passed,
    List.dropWhile_append_of_pos passed, (stops back).1, (stops back).2, List.append_nil]

theorem valid_without_slash {name : String} (valid : Name.isValid name = true) :
    '/' ∉ name.toList := by
  intro there
  rw [Name.isValid] at valid
  split at valid
  · cases valid
  · rename_i c rest spelled
    obtain ⟨first, others⟩ := Bool.and_eq_true_iff.mp valid
    rw [spelled] at there
    rcases List.mem_cons.mp there with rfl | later
    · exact absurd first (by decide)
    · exact absurd (List.all_eq_true.mp others _ later) (by decide)

/-- The key under which the resolver of a field is given. -/
def ResolverEntry.key (entry : ResolverEntry σ) : String :=
  entry.typeName ++ "/" ++ entry.fieldName

theorem resolver_key_spelled (entry : ResolverEntry σ) : entry.key =
    String.ofList (entry.typeName.toList ++ '/' :: entry.fieldName.toList) := by
  rw [ResolverEntry.key, ← String.toList_inj, String.toList_ofList, String.toList_append,
    String.toList_append, List.append_assoc]
  rfl

/-- A key that names a field at all names the field that it was put together from. -/
theorem resolver_key_parts {entry : ResolverEntry σ} {parts : String × String}
    (found : resolverKey? entry.key = some parts) :
    parts = (entry.typeName, entry.fieldName) := by
  rw [resolverKey?, resolver_key_spelled] at found
  by_cases slash : '/' ∈ entry.typeName.toList
  · -- The key is split within the type name, and what is behind the slash has another one.
    obtain ⟨front, back, same, free⟩ := List.eq_append_cons_of_mem slash
    rw [same, List.append_assoc, List.cons_append, split_key_first free] at found
    simp only [Option.ite_none_right_eq_some, Bool.and_eq_true] at found
    obtain ⟨⟨-, valid⟩, -⟩ := found
    have without := valid_without_slash valid
    rw [String.toList_ofList] at without
    exact absurd (List.mem_append_right back List.mem_cons_self) without
  · rw [split_key_first slash] at found
    simp only [String.ofList_toList, Option.ite_none_right_eq_some] at found
    exact (Option.some.inj found.2).symm

/-- A key that is put together from names is one that names a field. -/
theorem resolver_key_found {entry : ResolverEntry σ} (type : Name.isValid entry.typeName = true)
    (field : Name.isValid entry.fieldName = true) :
    resolverKey? entry.key = some (entry.typeName, entry.fieldName) := by
  rw [resolverKey?, resolver_key_spelled, split_key_first (valid_without_slash type)]
  simp only [String.ofList_toList, type, field, Bool.and_self, if_true]

end Keys

/-- Whether an entry is the one for a field. -/
def ResolverEntry.isFor (typeName fieldName : String) (entry : ResolverEntry σ) : Bool :=
  entry.fieldName == fieldName && entry.typeName == typeName

section Adding

variable {entries result : List (ResolverEntry σ)} {more : Resolvers σ}

/-- Entries are put in front, the last one first. -/
theorem add_resolvers_keyed {own : List (ResolverEntry σ)}
    (added : addResolvers entries (own.map (fun entry => (entry.key, entry.resolver)) ++ more) =
      .ok result) : addResolvers (own.reverse ++ entries) more = .ok result := by
  induction own generalizing entries with
  | nil => exact added
  | cons entry rest ih =>
      rw [List.map_cons, List.cons_append, addResolvers] at added
      cases keyed : resolverKey? entry.key with
      | none => simp [keyed] at added
      | some parts =>
          obtain rfl := resolver_key_parts keyed
          simp only [keyed] at added
          rw [List.reverse_cons, List.append_assoc]
          exact ih added

/-- The resolver of a field stays the same where no other is added for it. -/
theorem add_resolvers_elsewhere {typeName fieldName : String}
    (apart : ∀ given ∈ more, resolverKey? given.1 ≠ some (typeName, fieldName))
    (added : addResolvers entries more = .ok result) :
    result.find? (ResolverEntry.isFor typeName fieldName) =
      entries.find? (ResolverEntry.isFor typeName fieldName) := by
  induction more generalizing entries with
  | nil =>
      cases added
      rfl
  | cons given rest ih =>
      obtain ⟨key, resolver⟩ := given
      have other := apart _ List.mem_cons_self
      rw [addResolvers] at added
      cases keyed : resolverKey? key with
      | none => simp [keyed] at added
      | some parts =>
          simp only [keyed] at added
          have passed : ¬ ResolverEntry.isFor typeName fieldName
              ⟨parts.1, parts.2, resolver⟩ = true := by
            intro hit
            obtain ⟨field, type⟩ := Bool.and_eq_true_iff.mp hit
            exact other (keyed.trans (congrArg some
              (Prod.ext (beq_iff_eq.mp type) (beq_iff_eq.mp field))))
          rw [ih (fun given there => apart given (List.mem_cons_of_mem _ there)) added,
            List.find?_cons_of_neg passed]

/-- Resolvers are added if each key names a field. -/
theorem add_resolvers_made (named : ∀ given ∈ more, (resolverKey? given.1).isSome = true) :
    ∃ result, addResolvers entries more = .ok result := by
  induction more generalizing entries with
  | nil => exact ⟨entries, rfl⟩
  | cons given rest ih =>
      obtain ⟨key, resolver⟩ := given
      obtain ⟨first, others⟩ := List.forall_mem_cons.mp named
      obtain ⟨parts, keyed⟩ := Option.isSome_iff_exists.mp first
      rw [addResolvers]
      simp only [keyed]
      exact ih others

end Adding

namespace Introspection

/-- The resolvers of introspection by the fields that they are for, without those of type names. -/
def entryResolvers (schema : Schema) : List (ResolverEntry σ) :=
  [⟨schema.queryName, "__schema", .ofFunction fun _ => .object []⟩,
    ⟨schema.queryName, "__type", .ofFunction typeByName⟩,
    ⟨"__Schema", "types", .ofFunction fun context => .list (context.schema.types.map typeValue)⟩,
    ⟨"__Schema", "queryType", .ofFunction fun context =>
      namedValue context.schema context.schema.queryName⟩,
    ⟨"__Schema", "mutationType", .ofFunction fun context =>
      context.schema.mutationName.elim .null (namedValue context.schema)⟩,
    ⟨"__Schema", "subscriptionType", .ofFunction fun _ => .null⟩,
    ⟨"__Schema", "directives", .ofFunction directives⟩,
    ⟨"__Type", "fields", .ofFunction fields⟩, ⟨"__Type", "interfaces", .ofFunction interfaces⟩,
    ⟨"__Type", "possibleTypes", .ofFunction possibleTypes⟩,
    ⟨"__Type", "enumValues", .ofFunction enumValues⟩,
    ⟨"__Type", "inputFields", .ofFunction inputFields⟩]

def typenameEntries (schema : Schema) : List (ResolverEntry σ) :=
  (objectTypes schema).map fun object =>
    ⟨object.name.node, "__typename",
      .ofFunction fun context => .string context.objectType.name.node⟩

theorem resolvers_keyed (schema : Schema) : (resolvers schema : Resolvers σ) =
    (entryResolvers schema ++ typenameEntries schema).map
      fun entry : ResolverEntry σ => (entry.key, entry.resolver) := by
  have behind (name field : String) : name ++ "/" ++ field = name ++ ("/" ++ field) :=
    String.append_assoc
  rw [resolvers, typenameResolvers, typenameEntries, List.map_append, List.map_map]
  refine congrArg₂ (· ++ ·) ?_ (List.map_congr_left fun object _ => Prod.ext ?_ rfl)
  · simp only [entryResolvers, List.map_cons, List.map_nil, ResolverEntry.key, behind,
      String.reduceAppend]
    congr
    funext context
    cases context.schema.mutationName <;> rfl
  · exact (behind object.name.node "__typename").symm

/-- The fields that introspection resolves, each on one type alone. -/
def resolvedFields : List String :=
  ["__schema", "__type", "types", "queryType", "mutationType", "subscriptionType", "directives",
    "fields", "interfaces", "possibleTypes", "enumValues", "inputFields"]

theorem entry_resolver_fields (schema : Schema) :
    (entryResolvers schema : List (ResolverEntry σ)).map (·.fieldName) = resolvedFields := rfl

theorem entry_resolver_types {schema : Schema} {entry : ResolverEntry σ}
    (there : entry ∈ entryResolvers schema) :
    entry.typeName ∈ [schema.queryName, "__Schema", "__Type"] := by
  have types : (entryResolvers schema : List (ResolverEntry σ)).map (·.typeName) =
      List.replicate 2 schema.queryName ++ List.replicate 5 "__Schema" ++
        List.replicate 5 "__Type" := rfl
  have among := types ▸ List.mem_map_of_mem there
  simpa [List.mem_replicate] using among

theorem find_entry {entries : List (ResolverEntry σ)} {entry : ResolverEntry σ}
    (distinct : (entries.map (·.fieldName)).Nodup) (there : entry ∈ entries) :
    entries.find? (ResolverEntry.isFor entry.typeName entry.fieldName) = some entry := by
  induction entries with
  | nil => cases there
  | cons first rest ih =>
      obtain ⟨apart, others⟩ := List.nodup_cons.mp distinct
      rcases List.mem_cons.mp there with rfl | later
      · exact List.find?_cons_of_pos (by simp [ResolverEntry.isFor])
      · have passed : first.fieldName ≠ entry.fieldName := fun same =>
          apart (List.mem_map.mpr ⟨entry, later, same.symm⟩)
        rw [List.find?_cons_of_neg (by simp [ResolverEntry.isFor, passed]), ih others later]

theorem find_no_entry {entries : List (ResolverEntry σ)} {typeName fieldName : String}
    (absent : fieldName ∉ entries.map (·.fieldName)) :
    entries.find? (ResolverEntry.isFor typeName fieldName) = none := by
  refine List.find?_eq_none.mpr fun entry there hit => absent ?_
  have same := beq_iff_eq.mp (Bool.and_eq_true_iff.mp hit).1
  exact same ▸ List.mem_map_of_mem there

end Introspection

/--
Resolvers of an application that leave introspection alone: none is for an introspection type, and
none for this field of the query root.
-/
structure LeavesIntrospection (queryName entry : String) (given : Resolvers σ) : Prop where
  types : ∀ resolver ∈ given, ∀ typeName fieldName,
    resolverKey? resolver.1 = some (typeName, fieldName) →
      typeName ∉ Introspection.objects.map (·.name.node)
  root : ∀ resolver ∈ given, resolverKey? resolver.1 ≠ some (queryName, entry)

section Keyed

variable {given : Resolvers σ} {keys : List (String × String)}
  (keyed : given.map (fun given => resolverKey? given.1) = keys.map some)

include keyed

theorem keyed_among {resolver : String × Resolver σ} (there : resolver ∈ given) :
    ∃ key ∈ keys, resolverKey? resolver.1 = some key := by
  have listed : resolverKey? resolver.1 ∈ keys.map some := keyed ▸ List.mem_map_of_mem there
  obtain ⟨key, among, same⟩ := List.mem_map.mp listed
  exact ⟨key, among, same.symm⟩

/-- Whether introspection is left alone is told by the fields that the keys name. -/
theorem leaves_introspection_keyed {queryName entry : String}
    (types : ∀ key ∈ keys, key.1 ∉ Introspection.objects.map (·.name.node))
    (root : (queryName, entry) ∉ keys) : LeavesIntrospection queryName entry given where
  types := by
    intro resolver there typeName fieldName named
    obtain ⟨key, among, same⟩ := keyed_among keyed there
    obtain rfl := Option.some.inj (same.symm.trans named)
    exact types _ among
  root := by
    intro resolver there named
    obtain ⟨key, among, same⟩ := keyed_among keyed there
    exact root (Option.some.inj (same.symm.trans named) ▸ among)

theorem keys_named_of_keyed : ∀ resolver ∈ given, (resolverKey? resolver.1).isSome = true := by
  intro resolver there
  obtain ⟨_, -, same⟩ := keyed_among keyed there
  exact Option.isSome_of_eq_some same

end Keyed

/-- An executor of a source and some resolvers, by which null alone counts as absent. -/
structure Executor.BuiltFrom (executor : Executor σ) (source queryName : String)
    (mutationName : Option String) (given : Resolvers σ) : Prop where
  accepted : Schema.ofSource source queryName mutationName = .ok executor.schema
  added : addResolvers [] (Introspection.resolvers executor.schema ++ given) =
    .ok executor.resolvers
  nullish : executor.isNullish = Value.isNull

section Executors

variable {source queryName : String} {mutationName : Option String} {given : Resolvers σ}
  {executor : Executor σ}

/-- What is built from a source stays so, whatever becomes of the settings that are left. -/
theorem of_source_built (built : Executor.ofSource source queryName mutationName given =
    .ok executor) (scalars : List (String × ScalarHooks σ)) (resolveType : Value → Option String)
    (renderError : ExecutionError → String → Value) :
    ({ executor with
        scalars := scalars
        resolveType := resolveType
        renderError := renderError } : Executor σ).BuiltFrom source queryName mutationName
          given := by
  rw [Executor.ofSource] at built
  cases accepted : Schema.ofSource source queryName mutationName with
  | error error => simp [accepted] at built
  | ok schema =>
      cases added : addResolvers [] (Introspection.resolvers schema ++ given) with
      | error error => simp [accepted, added] at built
      | ok entries =>
          simp only [accepted, added, Except.ok.injEq] at built
          subst built
          exact ⟨accepted, added, rfl⟩

/-- The names of the types of a schema are valid. -/
theorem Schema.accepted_types_named {schema : Schema}
    (accepted : Schema.ofSource source queryName mutationName = .ok schema) :
    ∀ type ∈ schema.types, Name.isValid type.name = true := by
  obtain ⟨document, read, accepted⟩ := Schema.of_source_ok_iff.mp accepted
  obtain ⟨-, -, -, same⟩ := Document.accepted_iff.mp accepted
  rw [same, schema_types]
  refine List.forall_mem_map.mpr fun type among => ?_
  rw [map_object_name (completed_name _ _)]
  exact Document.of_text_types_named read type among

/-- The resolvers of introspection are for fields of the types that a schema has, or may have. -/
theorem introspection_keys_named {schema : Schema}
    (accepted : Schema.ofSource source queryName mutationName = .ok schema) :
    ∀ resolver ∈ (Introspection.resolvers schema : Resolvers σ),
      (resolverKey? resolver.1).isSome = true := by
  have types := Schema.accepted_types_named accepted
  have root : Name.isValid schema.queryName = true := by
    obtain ⟨root, rooted, -, -⟩ := Schema.accepted_root accepted
    rw [Schema.queryType?, Document.object_typed_iff] at rooted
    obtain ⟨among, named⟩ := (Document.type_found_iff (Schema.accepted_distinct accepted)).mp rooted
    exact named ▸ types _ among
  rw [Introspection.resolvers_keyed]
  refine List.forall_mem_map.mpr fun entry there => ?_
  have valid : Name.isValid entry.typeName = true ∧ Name.isValid entry.fieldName = true := by
    rcases List.mem_append.mp there with own | typename
    · have field : entry.fieldName ∈ Introspection.resolvedFields := by
        rw [← Introspection.entry_resolver_fields schema]
        exact List.mem_map_of_mem own
      have either : ∀ name ∈ [schema.queryName, "__Schema", "__Type"], Name.isValid name = true :=
        List.forall_mem_cons.mpr ⟨root, by decide⟩
      exact ⟨either _ (Introspection.entry_resolver_types own),
        (show ∀ name ∈ Introspection.resolvedFields, Name.isValid name = true by decide) _ field⟩
    · obtain ⟨object, listed, rfl⟩ := List.mem_map.mp typename
      obtain ⟨type, among, same⟩ := List.mem_filterMap.mp listed
      cases type with
      | object own =>
          cases same
          exact ⟨types _ among, show Name.isValid "__typename" = true by decide⟩
      | _ => cases same
  exact Option.isSome_of_eq_some (resolver_key_found valid.1 valid.2)

/-- An accepted schema gets its executor where the keys of the application name fields. -/
theorem executor_of_accepted {schema : Schema}
    (accepted : Schema.ofSource source queryName mutationName = .ok schema)
    (named : ∀ resolver ∈ given, (resolverKey? resolver.1).isSome = true) :
    ∃ executor, Executor.ofSource source queryName mutationName given = .ok executor ∧
      executor.schema = schema ∧ executor.BuiltFrom source queryName mutationName given := by
  obtain ⟨entries, added⟩ := @add_resolvers_made _ [] (Introspection.resolvers schema ++ given)
    (List.forall_mem_append.mpr ⟨introspection_keys_named accepted, named⟩)
  have made : Executor.ofSource source queryName mutationName given = .ok
      { schema := schema
        resolvers := entries
        scalars := []
        resolveType := fun _ => none
        isNullish := Value.isNull
        renderError := fun error _ => error.render } := by
    simp only [Executor.ofSource, accepted, added]
  exact ⟨_, made, rfl, accepted, added, rfl⟩

namespace Executor.BuiltFrom

variable (built : executor.BuiltFrom source queryName mutationName given)
  {typeName fieldName : String}
  (free : ∀ resolver ∈ given, resolverKey? resolver.1 ≠ some (typeName, fieldName))

include built

/-- The schema has the root that it was asked for. -/
theorem query_name : executor.schema.queryName = queryName := by
  obtain ⟨document, -, accepted⟩ := Schema.of_source_ok_iff.mp built.accepted
  obtain ⟨-, -, -, same⟩ := Document.accepted_iff.mp accepted
  rw [same]
  rfl

include free

theorem resolver_eq (other : fieldName ≠ "__typename") :
    executor.resolver? typeName fieldName =
      ((Introspection.entryResolvers executor.schema).reverse.find?
        (ResolverEntry.isFor typeName fieldName)).map (·.resolver) := by
  have added := built.added
  rw [Introspection.resolvers_keyed] at added
  have kept := add_resolvers_elsewhere free (add_resolvers_keyed added)
  have names : ((Introspection.typenameEntries executor.schema :
      List (ResolverEntry σ)).reverse.find? (ResolverEntry.isFor typeName fieldName)) = none := by
    refine Introspection.find_no_entry fun there => other ?_
    obtain ⟨entry, inside, rfl⟩ := List.mem_map.mp there
    obtain ⟨object, -, rfl⟩ := List.mem_map.mp (List.mem_reverse.mp inside)
    rfl
  rw [Executor.resolver?]
  change (executor.resolvers.find? (ResolverEntry.isFor typeName fieldName)).map _ = _
  rw [kept, List.append_nil, List.reverse_append, List.find?_append, names, Option.none_or]

/-- A field that introspection does not resolve has no resolver. -/
theorem unresolved (own : fieldName ∉ Introspection.resolvedFields)
    (other : fieldName ≠ "__typename") : executor.resolver? typeName fieldName = none := by
  rw [built.resolver_eq free other, Introspection.find_no_entry, Option.map_none]
  rwa [List.map_reverse, List.mem_reverse, Introspection.entry_resolver_fields]

omit free in
/-- A field that introspection resolves has the resolver that is its own. -/
theorem resolved {entry : ResolverEntry σ}
    (own : entry ∈ Introspection.entryResolvers executor.schema)
    (free : ∀ resolver ∈ given,
      resolverKey? resolver.1 ≠ some (entry.typeName, entry.fieldName)) :
    executor.resolver? entry.typeName entry.fieldName = some entry.resolver := by
  have listed : entry.fieldName ∈ Introspection.resolvedFields := by
    rw [← Introspection.entry_resolver_fields executor.schema]
    exact List.mem_map_of_mem own
  have other : entry.fieldName ≠ "__typename" := fun same => by
    rw [same] at listed
    exact absurd listed (by decide)
  have distinct : ((Introspection.entryResolvers executor.schema :
      List (ResolverEntry σ)).reverse.map (·.fieldName)).Nodup := by
    rw [List.map_reverse, Introspection.entry_resolver_fields]
    decide
  rw [built.resolver_eq free other,
    Introspection.find_entry distinct (List.mem_reverse.mpr own), Option.map_some]

end Executor.BuiltFrom

end Executors

end GraphQL
