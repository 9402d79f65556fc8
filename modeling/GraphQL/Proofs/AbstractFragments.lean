import GraphQL.Proofs.Inlining
import GraphQL.Proofs.PossibleTypes
import GraphQL.Proofs.Rewriting
import GraphQL.Proofs.SourceNames
import GraphQL.Proofs.SpelledTexts

/-!
Abstract types as the sums of their members.

On an object type a fragment applies under the name of an interface or union exactly if it applies
under the name of one of the possible types, and then under no other of these. So it may be written
once for each possible type instead. In the same way a value of an abstract type is completed as one
of the possible type that is named for it, or as none.
-/

namespace GraphQL

/-- Selections under a condition that names one member of an abstract type. -/
def onMember (places : String → Span × Span) (directives : Directives)
    (selections : List Selection) (member : String) : Selection :=
  .inline ⟨⟨some ⟨member, (places member).1⟩, directives, selections⟩, (places member).2⟩

/-- A fragment on an abstract type, and one on each of its possible types in its place. -/
inductive ListsMembers (schema : Schema) : List Selection → List Selection → Prop where
  | intro {condition : Located String} {definition directives selections span}
      (found : schema.type? condition.node = some definition)
      (abstract : definition.isAbstract = true) (places : String → Span × Span) :
      ListsMembers schema [.inline ⟨⟨some condition, directives, selections⟩, span⟩]
        ((schema.possibleTypes condition.node).map (onMember places directives selections))

section Fragments

variable {schema : Schema} {scope : RequestScope} {objectName : String}

/-- Of fragments on several object types, the one on the type at hand is all that applies. -/
theorem mentions_on_members (places : String → Span × Span) (directives : Directives)
    (selections : List Selection) {members : List String} (once : members.Nodup)
    (own : ∀ member ∈ members, schema.applies objectName member = decide (objectName = member)) :
    mentions schema scope objectName (members.map (onMember places directives selections)) =
      if scope.includes directives && decide (objectName ∈ members) then
        mentions schema scope objectName selections
      else [] := by
  induction members with
  | nil => simp [mentions]
  | cons member rest ih =>
      obtain ⟨fresh, apart⟩ := List.nodup_cons.mp once
      obtain ⟨here, others⟩ := List.forall_mem_cons.mp own
      rw [List.map_cons, mentions, ih apart others, onMember, mentionsOne, conditionApplies, here]
      cases scope.includes directives with
      | false => simp
      | true =>
          by_cases same : objectName = member
          · simp [same, fresh]
          · simp [same]

variable {document : Document} (index : schema.ExactIndex document)

include index

/-- Under the name of an object type, fragments apply to that type alone. -/
theorem applies_object {member : String} (known : schema.document.kind? member = some .object) :
    schema.applies objectName member = decide (objectName = member) := by
  have none : schema.possibleTypes member = [] := index.concrete member (by simp [known])
  have alone : schema.isPossibleType member objectName = false := by
    refine Bool.eq_false_of_not_eq_true fun listed => ?_
    have inside := (index.listed_iff member objectName).mpr listed
    rw [none] at inside
    cases inside
  rw [Schema.applies, alone, Bool.or_false]
  rfl

/-- Under the name of an abstract type, fragments apply to the possible types. -/
theorem applies_abstract {name : String} {definition : TypeDefinition}
    (found : schema.type? name = some definition) (abstract : definition.isAbstract = true)
    (known : schema.document.kind? objectName = some .object) :
    schema.applies objectName name = decide (objectName ∈ schema.possibleTypes name) := by
  have apart : (objectName == name) = false := by
    refine beq_eq_false_iff_ne.mpr fun same => ?_
    have kind : schema.document.kind? name = some definition.kind := by
      have read : schema.document.type? name = some definition := found
      rw [Document.kind?, read]
      rfl
    rw [same, kind] at known
    cases definition with
    | object => cases abstract
    | _ => cases known
  rw [Schema.applies, apart, Bool.false_or, Bool.eq_iff_iff, ← index.listed_iff, decide_eq_true_iff]

theorem listing_members_keeps_mentions (scope : RequestScope)
    (known : schema.document.kind? objectName = some .object) :
    KeepsMentions (ListsMembers schema) schema scope objectName := by
  intro before after step
  cases step with
  | @intro condition definition directives selections span found abstract places =>
      have same : mentions schema scope objectName
            [.inline ⟨⟨some condition, directives, selections⟩, span⟩] =
          mentions schema scope objectName
            ((schema.possibleTypes condition.node).map (onMember places directives selections)) := by
        rw [mentions_on_members places directives selections (index.once _)
            fun member listed => applies_object index (index.objects _ member listed),
          ← applies_abstract index found abstract known]
        simp [mentions, mentionsOne, conditionApplies]
      rw [same]
      exact .refl own_field_regroups _

end Fragments

section Schemas

variable {schema : Schema}

theorem Schema.Accepted.index (accepted : schema.Accepted) :
    ∃ document, schema.ExactIndex document := by
  obtain ⟨source, queryName, mutationName, built⟩ := accepted
  obtain ⟨document, -, index⟩ := Schema.of_source_exact built
  exact ⟨document, index⟩

theorem Document.type_named {document : Document} {name : String} {type : TypeDefinition}
    (found : document.type? name = some type) : type ∈ document.types ∧ type.name = name :=
  ⟨List.mem_of_find?_eq_some found, by simpa using List.find?_some found⟩

/-- No type of an accepted schema has the empty name. -/
theorem Schema.Accepted.named (accepted : schema.Accepted) {name : String}
    (known : (schema.document.kind? name).isSome = true) : name ≠ "" := by
  obtain ⟨source, queryName, mutationName, built⟩ := accepted
  obtain ⟨document, read, made⟩ := Schema.of_source_ok_iff.mp built
  obtain ⟨-, -, -, rfl⟩ := Document.accepted_iff.mp made
  rw [Document.schema_kind, Document.kind?, Option.isSome_map] at known
  obtain ⟨type, found⟩ := Option.isSome_iff_exists.mp known
  obtain ⟨among, rfl⟩ := Document.type_named found
  have valid := Document.of_text_types_named read type among
  intro empty
  rw [empty] at valid
  revert valid
  decide

theorem Schema.HasObject.kind {object : ObjectType} (held : schema.HasObject object) :
    schema.document.kind? object.name.node = some .object := by
  obtain ⟨name, found⟩ := held
  rw [← (Document.object_found found).2] at found
  exact (Document.object_found_kind _ _).mp (Option.isSome_iff_exists.mpr ⟨object, found⟩)

end Schemas

variable {σ : Type}

theorem Executor.root_type_held {executor : Executor σ} {kind : OperationKind} {root : ObjectType}
    (found : executor.rootType? kind = some root) : executor.schema.HasObject root := by
  cases kind with
  | query => exact ⟨_, found⟩
  | mutation =>
      obtain ⟨name, -, held⟩ := Option.bind_eq_some_iff.mp found
      exact ⟨name, held⟩

/-- Two documents are answered alike where an operation starts from the root type of its kind. -/
def Executor.AnswersAlikeAtRoots (executor : Executor σ) (document other : Document) : Prop :=
  executor.AnswersAlikeWhere
    (fun operation root _ _ => executor.rootType? operation.node.kind = some root) document other

/-- One rewriting of abstract fragments changes nothing about responses. -/
theorem Document.Rewritten.members_alike {executor : Executor σ}
    (nearsighted : executor.Nearsighted) (accepted : executor.schema.Accepted)
    {document other : Document}
    (rewritten : document.Rewritten (ListsMembers executor.schema) other) :
    executor.AnswersAlikeAtRoots document other := by
  obtain ⟨source, index⟩ := accepted.index
  intro name
  rcases rewritten.select_operation name with refused | ⟨operation, copy, picked, picked', related⟩
  · exact .inl refused
  · have kind : copy.node.kind = operation.node.kind := by
      cases related
      rfl
    refine .inr ⟨operation, copy, picked, picked', kind, fun depth root inputs journal rooted => ?_⟩
    exact congrFun (rewritten.execute_alike nearsighted executor.schema.HasObject
      (fun _ held => held) (fun values object held => listing_members_keeps_mentions index _ held.kind)
      related depth root (Executor.root_type_held rooted) inputs) journal

namespace Executor

variable {executor : Executor σ} {name : String} {definition : TypeDefinition} {value : Value}

/-- Interfaces and unions differ in nothing but the word for them. -/
theorem complete_named_abstract (found : executor.schema.type? name = some definition)
    (abstract : definition.isAbstract = true) :
    ∃ kind, ∀ run field value,
      executor.completeNamed run field name value =
        executor.completeAbstract run field kind name value := by
  have named : definition.name = name := (Document.type_named found).2
  cases definition with
  | interface interface =>
      refine ⟨"interface", fun run field value => ?_⟩
      rw [completeNamed, found, ← named]
      rfl
  | union union =>
      refine ⟨"union", fun run field value => ?_⟩
      rw [completeNamed, found, ← named]
      rfl
  | _ => cases abstract

theorem complete_at_member {member kind : String} {object : ObjectType}
    (chosen : executor.resolveType value = some member) (filled : member ≠ "")
    (possible : executor.schema.isPossibleType name member = true)
    (known : executor.schema.document.object? member = some object) (run : ObjectRunner σ)
    (field : FieldScope) :
    executor.completeAbstract run field kind name value =
      executor.completeNamed run field member value := by
  have declared : executor.schema.type? member = some (.object object) :=
    Document.object_typed_iff.mp known
  have kept : (executor.resolveType value).filter (· ≠ "") = some member := by
    simp [chosen, filled]
  rw [completeAbstract, kept, completeNamed, declared]
  simp only [possible, if_true, known]

/-- Nothing is executed where no possible type is named, and one error tells why. -/
theorem complete_at_no_member {kind : String}
    (foreign : ∀ member, executor.resolveType value = some member →
      executor.schema.isPossibleType name member = false) :
    ∃ error : CompletionError, ∀ (run : ObjectRunner σ) (field : FieldScope),
      executor.completeAbstract run field kind name value =
        Completion.nullBecause field.path error := by
  cases chosen : (executor.resolveType value).filter (· ≠ "") with
  | none =>
      refine ⟨.undeterminedType, fun run field => ?_⟩
      rw [completeAbstract, chosen]
  | some member =>
      have outside := foreign member (Option.filter_eq_some_iff.mp chosen).1
      refine ⟨.impossibleType member kind name, fun run field => ?_⟩
      rw [completeAbstract, chosen]
      simp [outside]

end Executor

/--
Abstract types are the sums of their members in every accepted schema. Fragments on interfaces and
unions may be written as fragments on their possible types, at any depth and as often as one likes:
requests get the same responses, and their executions end in the same journal, so that a context
that records the calls of callbacks has the same record. A value that is there is completed as one
of the possible type that is named for it. If none is, or another type, it is null with one error,
however objects are executed.
-/
theorem abstract_types_are_sums (executor : Executor σ) (accepted : executor.schema.Accepted) :
    (executor.Nearsighted → ∀ document other,
      Relation.ReflTransGen (Document.Rewritten (ListsMembers executor.schema)) document other →
        executor.AnswersAlikeAtRoots document other) ∧
    ∀ name definition value, executor.schema.type? name = some definition →
      definition.isAbstract = true → executor.isNullish value = false →
      (∃ member object, executor.resolveType value = some member ∧
        executor.schema.isPossibleType name member = true ∧
        executor.schema.type? member = some (.object object) ∧
        ∀ run field,
          executor.complete run field (.named name) value =
            executor.complete run field (.named member) value ∧
          executor.complete run field (.nonNull (.named name)) value =
            executor.complete run field (.nonNull (.named member)) value) ∨
      ((∀ member, executor.resolveType value = some member →
          executor.schema.isPossibleType name member = false) ∧
        ∃ error : CompletionError, ∀ run field journal,
          executor.complete run field (.named name) value journal =
            some (.ok .null, journal.note field.path (.ofMessage error.message))) := by
  constructor
  · intro nearsighted document other steps
    induction steps with
    | refl => exact .refl _ document
    | tail _ step ih =>
        exact ih.trans (fun _ _ _ _ _ same rooted => same ▸ rooted)
          (step.members_alike nearsighted accepted)
  · intro name definition value found abstract present
    obtain ⟨source, index⟩ := accepted.index
    obtain ⟨kind, named⟩ := Executor.complete_named_abstract found abstract
    by_cases possible : ∃ member, executor.resolveType value = some member ∧
        executor.schema.isPossibleType name member = true
    · left
      obtain ⟨member, chosen, listed⟩ := possible
      have known := index.objects name member ((index.listed_iff _ _).mpr listed)
      have filled : member ≠ "" := accepted.named (by rw [known]; rfl)
      obtain ⟨object, held⟩ := Option.isSome_iff_exists.mp
        ((Document.object_found_kind _ _).mpr known)
      refine ⟨member, object, chosen, listed, Document.object_typed_iff.mp held, ?_⟩
      intro run field
      have same : executor.completeBare run field (.named name) value =
          executor.completeBare run field (.named member) value := by
        rw [Executor.complete_bare_named _ _ _ _ present,
          Executor.complete_bare_named _ _ _ _ present, named,
          Executor.complete_at_member chosen filled listed held]
      constructor
      · rw [Executor.complete_nullable _ _ _ _ rfl, Executor.complete_nullable _ _ _ _ rfl, same]
      · rw [Executor.complete_non_null, Executor.complete_non_null, same]
    · right
      have foreign (member : String) (chosen : executor.resolveType value = some member) :
          executor.schema.isPossibleType name member = false :=
        Bool.eq_false_of_not_eq_true fun listed => possible ⟨member, chosen, listed⟩
      obtain ⟨error, nothing⟩ := Executor.complete_at_no_member foreign
      refine ⟨foreign, error, fun run field journal => ?_⟩
      rw [Executor.complete_nullable _ _ _ _ rfl, Executor.complete_bare_named _ _ _ _ present,
        named, nothing, Completion.absorb_apply, Completion.null_because_apply]
      rfl

/-- An executor in which the pet of every dog is a cat. -/
def petKeeper (schema : Schema) : Executor Unit where
  schema := schema
  resolvers :=
    [⟨"Dog", "pet", .ofFunction fun _ =>
      .object [("__typename", .string "Cat"), ("id", .string "Tom")]⟩]
  scalars := []
  resolveType := typenameField
  isNullish := Value.isNull
  renderError := fun error _ => error.render

theorem pet_keeper_nearsighted (schema : Schema) : (petKeeper schema).Nearsighted := by
  intro entry member
  obtain rfl := List.mem_singleton.mp member
  exact ⟨by rintro _ ⟨⟩, fun _ _ _ => rfl, by rintro _ ⟨⟩⟩

def onType (name : String) (selections : List Selection) : Selection :=
  .inline (.unplaced ⟨some (.unplaced name), none, selections⟩)

/-- A request for a pet. -/
def petRequest (selections : List Selection) : Located Operation := .unplaced
  { kind := .query
    name := none
    variableDefinitions := none
    directives := none
    selections := [kennelField "pet" (some selections)] }

def petDocument (selections : List Selection) : Document where
  definitions := [.operation (petRequest selections)]
  span := .unplaced

/-- The name of the pet in the data that a request is answered with. -/
def petName (schema : Schema) (root : ObjectType) (selections : List Selection) : Option String :=
  match (petKeeper schema).executeOperation ((petKeeper schema).runWithin 2) (petDocument selections)
      (petRequest selections) root [] ⟨(), []⟩ with
  | some (.ok data, _) => ((data.field? "pet").bind (·.field? "id")).bind Value.asString?
  | _ => none

/-- A fragment on pets, within it one on what has a name. -/
def fragmentsOnPets : List Selection := [onType "Pet" [onType "Named" [kennelField "id" none]]]

/-- The same with a fragment for each of the two members, of both types. -/
def fragmentsOnMembers : List Selection :=
  let named := [onType "Dog" [kennelField "id" none], onType "Cat" [kennelField "id" none]]
  [onType "Dog" named, onType "Cat" named]

theorem pet_members :
    ((Schema.ofSource petSource "Dog" (some "Cat")).toOption.bind fun schema => do
      let root ← schema.queryType?
      let named ← schema.type? "Named"
      let pet ← schema.type? "Pet"
      if named.isAbstract && pet.isAbstract && schema.possibleTypes "Named" == ["Dog", "Cat"] &&
          schema.possibleTypes "Pet" == ["Dog", "Cat"] &&
          petName schema root fragmentsOnPets == some "Tom" then
        some (root, named, pet)
      else none).isSome = true := by
  rw [Schema.of_source_spelled petSource
    (append_spelled String.toList_ofList String.toList_ofList)]
  decide +kernel

theorem pet_request_rewritten {rule : List Selection → List Selection → Prop}
    {selections others : List Selection} (inside : Rewritten rule selections others) :
    (petDocument selections).Rewritten rule (petDocument others) :=
  .cons (.operation (.under rfl inside .nil)) .nil

/-- Members are listed within a fragment first, and then for the fragment itself. -/
theorem fragments_on_members_listed {schema : Schema} {named pet : TypeDefinition}
    (named_found : schema.type? "Named" = some named) (named_abstract : named.isAbstract = true)
    (named_members : schema.possibleTypes "Named" = ["Dog", "Cat"])
    (pet_found : schema.type? "Pet" = some pet) (pet_abstract : pet.isAbstract = true)
    (pet_members : schema.possibleTypes "Pet" = ["Dog", "Cat"]) :
    Relation.ReflTransGen (Document.Rewritten (ListsMembers schema)) (petDocument fragmentsOnPets)
      (petDocument fragmentsOnMembers) := by
  have listed {name : String} {definition : TypeDefinition}
      (found : schema.type? name = some definition) (abstract : definition.isAbstract = true)
      (members : schema.possibleTypes name = ["Dog", "Cat"]) (selections : List Selection) :
      Rewritten (ListsMembers schema) [onType name selections]
        [onType "Dog" selections, onType "Cat" selections] := by
    have step : ListsMembers schema [onType name selections] _ :=
      .intro found abstract fun _ => (.unplaced, .unplaced)
    rw [Located.unplaced, members] at step
    exact .run step .nil
  have inner := listed named_found named_abstract named_members [kennelField "id" none]
  have outer := listed pet_found pet_abstract pet_members
    [onType "Dog" [kennelField "id" none], onType "Cat" [kennelField "id" none]]
  exact .tail (.single (pet_request_rewritten (.inline inner .nil))) (pet_request_rewritten outer)

/-- The cat is found under its own name, and where its type is not named it is null. -/
theorem pets_by_member :
    ∃ schema root object, schema.Accepted ∧ (petKeeper schema).rootType? .query = some root ∧
      petName schema root fragmentsOnMembers = some "Tom" ∧
      schema.type? "Cat" = some (.object object) ∧
      (∀ run field,
        (petKeeper schema).complete run field (.named "Pet")
            (.object [("__typename", .string "Cat")]) =
          (petKeeper schema).complete run field (.named "Cat")
            (.object [("__typename", .string "Cat")])) ∧
      ∃ error : CompletionError, ∀ run field,
        (petKeeper schema).complete run field (.named "Pet") (.string "Tom") ⟨(), []⟩ =
          some (.ok .null, (⟨(), []⟩ : Journal Unit).note field.path (.ofMessage error.message)) := by
  obtain ⟨schema, _, accepted, found⟩ := Schema.accepted_of_found pet_members
  simp only [Option.bind_eq_bind, Option.bind_eq_some_iff, Option.ite_none_right_eq_some,
    Bool.and_eq_true, beq_iff_eq, Option.some.injEq] at found
  obtain ⟨root, rooted, named, named_found, pet, pet_found,
    ⟨⟨⟨⟨named_abstract, pet_abstract⟩, named_members⟩, pet_members⟩, asked⟩, -⟩ := found
  obtain ⟨alike, completed⟩ := abstract_types_are_sums (petKeeper schema) accepted
  have same := alike (pet_keeper_nearsighted schema) _ _
    (fragments_on_members_listed named_found named_abstract named_members pet_found pet_abstract
      pet_members)
  rcases same none with ⟨_, impossible, -⟩ | ⟨_, _, picked, picked', -, runs⟩
  · cases impossible
  cases picked
  cases picked'
  have answered : petName schema root fragmentsOnMembers = some "Tom" := by
    rw [petName, runs 2 root [] ⟨(), []⟩ rooted]
    exact asked
  rcases completed "Pet" pet (.object [("__typename", .string "Cat")]) pet_found pet_abstract rfl
    with ⟨member, object, chosen, -, held, equal⟩ | ⟨foreign, -⟩
  · cases chosen
    rcases completed "Pet" pet (.string "Tom") pet_found pet_abstract rfl
      with ⟨_, _, impossible, -⟩ | ⟨-, error, null⟩
    · cases impossible
    · exact ⟨schema, root, object, accepted, rooted, answered, held,
        fun run field => (equal run field).1, error, fun run field => null run field _⟩
  · have listed := foreign "Cat" rfl
    have possible : "Cat" ∈ schema.possibleTypes "Pet" := by simp [pet_members]
    rw [Schema.isPossibleType, Document.isPossibleType] at listed
    exact absurd possible (of_decide_eq_false listed)

end GraphQL
