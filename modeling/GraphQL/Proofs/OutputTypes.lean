import GraphQL.Proofs.AbstractFragments
import GraphQL.Proofs.HeldTypes
import GraphQL.Proofs.SpelledTexts
import GraphQL.Proofs.Trace

/-!
The types at which fields are completed.

Whatever is executed, values are completed at types that are declared for fields, so no type is ever
unknown. Of the type of a field it is only asked that it exists: an object type may declare a field
with an input object, at which no value can be completed. Where no field is declared like this,
completion never finds fault with a type.
-/

namespace GraphQL

/-- The innermost type of a field is one at which values are completed. -/
def FieldDefinition.OutputTyped (kind? : String → Option TypeKind) (field : FieldDefinition) :
    Prop :=
  kind? field.type.node.innermost ∈
    [some .scalar, some .enum, some .object, some .interface, some .union]

/-- The innermost type of a field is an input object. -/
def FieldDefinition.InputTyped (kind? : String → Option TypeKind) (field : FieldDefinition) :
    Prop :=
  kind? field.type.node.innermost = some .inputObject

/-- A field whose type exists has an output type, unless it is an input object. -/
theorem FieldDefinition.Resolves.output_or_input {document : Document} {field : FieldDefinition}
    (resolved : field.Resolves document.kind?) :
    field.OutputTyped document.kind? ∨ field.InputTyped document.kind? := by
  obtain ⟨type, found⟩ := Option.isSome_iff_exists.mp
    (Option.isSome_map.symm.trans resolved.type)
  rw [OutputTyped, InputTyped, Document.kind?, found]
  cases type <;> simp [TypeDefinition.kind]

theorem FieldDefinition.OutputTyped.not_input {kind? : String → Option TypeKind}
    {field : FieldDefinition} (output : field.OutputTyped kind?) : ¬ field.InputTyped kind? := by
  intro input
  rw [InputTyped] at input
  rw [OutputTyped, input] at output
  simp at output

section Types

variable {schema : Schema}

/-- The fields that object and interface types declare. -/
def Schema.declaredFields (schema : Schema) : List (Located FieldDefinition) :=
  schema.types.flatMap fun type => type.fields?.getD []

/-- Types that fields are declared with, the field for the name of an object among them. -/
inductive Schema.FieldType (schema : Schema) (name : String) : Prop where
  | declared {field} (among : field ∈ schema.declaredFields)
      (typed : field.node.type.node.innermost = name)
  | typename (typed : typenameDefinition.type.node.innermost = name)

/-- The type of a field that may be selected is one that fields are declared with. -/
theorem Schema.HasObject.selectable {object : ObjectType} (held : schema.HasObject object)
    {name : String} {definition : FieldDefinition}
    (known : object.selectable? name = some definition) :
    schema.FieldType definition.type.node.innermost := by
  rw [ObjectType.selectable?] at known
  split at known
  · cases known
    exact .typename rfl
  · obtain ⟨field, found, rfl⟩ := Option.map_eq_some_iff.mp known
    obtain ⟨name, typed⟩ := held
    exact .declared (List.mem_flatMap.mpr
      ⟨_, (Document.object_found typed).1, List.mem_of_find?_eq_some found⟩) rfl

end Types

variable {σ : Type} {executor : Executor σ} {scope : RequestScope}

/-- The object type at which a value is executed is one of the schema. -/
theorem ObjectFor.held {value : Value} {name : String} {object : ObjectType}
    (executed : ObjectFor executor value name object) : executor.schema.HasObject object := by
  cases executed with
  | declared found => exact Schema.has_object_of_type found
  | possible _ _ _ _ found => exact ⟨_, found⟩

/-- What is carried out concerns types of fields, and object types of the schema. -/
def Task.Declared (schema : Schema) : Task → Prop
  | .complete slot _ => schema.FieldType slot.type.innermost
  | .bare slot _ => schema.FieldType slot.type.innermost
  | .items _ _ _ element _ => schema.FieldType element.innermost
  | .groups _ object _ _ _ => schema.HasObject object

/-- Values settle at types of fields. -/
def Step.Declared (schema : Schema) : Step σ → Prop
  | .settled slot _ => schema.FieldType slot.type.innermost
  | _ => True

theorem absorption_declared (schema : Schema) (slot : Slot) (result : Except Bubble Value) :
    ∀ step ∈ (absorption slot result : List (Step σ)), step.Declared schema := by
  cases result with
  | ok => simp [absorption]
  | error => simp [absorption, Step.Declared]

theorem demanded_declared (schema : Schema) (slot : Slot) (result : Except Bubble Value) :
    ∀ step ∈ (demanded slot result : List (Step σ)), step.Declared schema := by
  cases result with
  | ok value =>
      rw [demanded]
      split <;> simp [Step.Declared]
  | error => simp [demanded, Step.Declared]

/-- Wherever execution gets to, values settle at types that fields are declared with. -/
theorem Traced.declared {task : Task} {journal later : Journal σ} {steps : List (Step σ)}
    {result : Except Bubble Value}
    (traced : Traced executor scope task journal steps result later)
    (declared : task.Declared executor.schema) :
    ∀ step ∈ steps, step.Declared executor.schema := by
  induction traced with
  | optional _ _ ih =>
      exact List.forall_mem_append.mpr ⟨ih declared, absorption_declared _ _ _⟩
  | required _ ih => exact List.forall_mem_append.mpr ⟨ih declared, demanded_declared _ _ _⟩
  | absent => exact List.forall_mem_nil _
  | settled _ _ => exact List.forall_mem_singleton.mpr declared
  | nested _ _ ih => exact ih declared
  | list _ _ ih => exact ih declared
  | object _ executed _ ih => exact List.forall_mem_cons.mpr ⟨trivial, ih executed.held⟩
  | noItems => exact List.forall_mem_nil _
  | item _ _ head tail => exact List.forall_mem_append.mpr ⟨head declared, tail declared⟩
  | itemBubbled _ ih => exact ih declared
  | noGroups => exact List.forall_mem_nil _
  | undefinedField _ _ ih => exact ih declared
  | field known _ _ _ _ head tail =>
      exact List.forall_mem_cons.mpr ⟨trivial, List.forall_mem_append.mpr
        ⟨head (Schema.HasObject.selectable declared known), tail declared⟩⟩
  | fieldBubbled known _ _ _ ih =>
      exact List.forall_mem_cons.mpr ⟨trivial, ih (Schema.HasObject.selectable declared known)⟩

/-- Why completion makes a value null where it settles; the application's hooks are not asked. -/
inductive Refuses (executor : Executor σ) : TypeRef → Value → CompletionError → Prop where
  | notAList {element value} (mismatch : value.asList? = none) :
      Refuses executor (.list element) value .notAList
  | undetermined {name definition value} (found : executor.schema.type? name = some definition)
      (abstract : definition.isAbstract = true)
      (unnamed : (executor.resolveType value).filter (· ≠ "") = none) :
      Refuses executor (.named name) value .undeterminedType
  | impossible {name definition objectName kind value}
      (found : executor.schema.type? name = some definition)
      (abstract : definition.isAbstract = true)
      (chosen : executor.resolveType value = some objectName)
      (foreign : objectName ∉ executor.schema.possibleTypes definition.name ∨
        executor.schema.document.object? objectName = none) :
      Refuses executor (.named name) value (.impossibleType objectName kind definition.name)
  | notAnOutputType {name definition value}
      (declared : executor.schema.type? name = some (.inputObject definition)) :
      Refuses executor (.named name) value (.notAnOutputType name)
  | unknownType {name value} (undeclared : executor.schema.type? name = none) :
      Refuses executor (.named name) value (.unknownType name)

/--
What a value leaves in the journal where it settles: nothing, the error of a hook, or why it is
refused, which is as the condition says.
-/
inductive Records (executor : Executor σ) (condition : CompletionError → Prop) (field : FieldScope)
    (type : TypeRef) (value : Value) (journal later : Journal σ) : Prop where
  | nothing (same : later.errors = journal.errors)
  | hooked {name hooks error context} (custom : type = .named name)
      (registered : executor.scalar? name = some hooks)
      (ran : hooks.serialize value journal.context = some (.error error, context))
      (noted : later = (journal.resume context).note field.path error)
  | refused {error} (refuses : Refuses executor type value error) (fits : condition error)
      (noted : later = journal.note field.path (.ofMessage error.message))

/-- There is no other way to settle, and each refusal is as is said of all of them. -/
theorem Settles.records {condition : CompletionError → Prop} {field : FieldScope} {type : TypeRef}
    {value result : Value} {journal later : Journal σ}
    (settles : Settles executor field type value journal result later)
    (fits : ∀ error, Refuses executor type value error → condition error) :
    Records executor condition field type value journal later := by
  have refused {error : CompletionError} (refuses : Refuses executor type value error) :
      Records executor condition field type value journal
        (journal.note field.path (.ofMessage error.message)) :=
    .refused refuses (fits _ refuses) rfl
  cases settles with
  | builtin => exact .nothing rfl
  | plain => exact .nothing rfl
  | written => exact .nothing rfl
  | enum => exact .nothing rfl
  | unwritten _ _ registered ran => exact .hooked rfl registered ran rfl
  | notAList mismatch => exact refused (.notAList mismatch)
  | undetermined found abstract unnamed => exact refused (.undetermined found abstract unnamed)
  | impossible found abstract chosen foreign =>
      exact refused (.impossible found abstract chosen foreign)
  | notAnOutputType declared => exact refused (.notAnOutputType declared)
  | unknownType undeclared => exact refused (.unknownType undeclared)

/-- Errors that find fault with the type that a field is declared with. -/
def CompletionError.FaultsType : CompletionError → Prop
  | .notAnOutputType _ | .unknownType _ => True
  | _ => False

/-- Fault is found with a named type, where it does not exist or is an input object. -/
theorem Refuses.faults {type : TypeRef} {value : Value} {error : CompletionError}
    (refuses : Refuses executor type value error) (faults : error.FaultsType) :
    executor.schema.type? type.innermost = none ∧ error = .unknownType type.innermost ∨
      executor.schema.document.kind? type.innermost = some .inputObject ∧
        error = .notAnOutputType type.innermost := by
  cases refuses with
  | notAnOutputType declared =>
      exact .inr ⟨congrArg (Option.map TypeDefinition.kind) declared, rfl⟩
  | unknownType undeclared => exact .inl ⟨undeclared, rfl⟩
  | _ => exact faults.elim

section Accepted

variable {schema : Schema}

/-- The type of each field of an accepted schema exists. -/
theorem Schema.Accepted.fields_typed (accepted : schema.Accepted) :
    ∀ field ∈ schema.declaredFields, field.node.Resolves schema.document.kind? := by
  obtain ⟨source, queryName, mutationName, built⟩ := accepted
  intro field among
  obtain ⟨type, declared, inside⟩ := List.mem_flatMap.mp among
  exact (Schema.accepted_resolves built (Schema.accepted_holds built) type declared).output field
    inside

/-- A type that a field is declared with exists, and is an input object only where that is declared. -/
theorem Schema.Accepted.field_type (accepted : schema.Accepted) {name : String}
    (typed : schema.FieldType name) :
    schema.type? name ≠ none ∧ (schema.document.kind? name = some .inputObject →
      ∃ field ∈ schema.declaredFields, field.node.InputTyped schema.document.kind? ∧
        field.node.type.node.innermost = name) := by
  cases typed with
  | declared among typed =>
      subst typed
      have known := (accepted.fields_typed _ among).type
      rw [Document.kind?, Option.isSome_map] at known
      exact ⟨Option.isSome_iff_ne_none.mp known, fun input => ⟨_, among, input, rfl⟩⟩
  | typename typed =>
      obtain ⟨source, queryName, mutationName, built⟩ := accepted
      obtain ⟨definition, found⟩ := (Schema.accepted_holds built).scalar .string
      have scalar : schema.type? name = some (.scalar definition) := typed ▸ found
      refine ⟨by simp [scalar], fun input => ?_⟩
      have kind : schema.document.kind? name = some .scalar :=
        congrArg (Option.map TypeDefinition.kind) scalar
      rw [kind] at input
      cases input

end Accepted

/-- Fault is found only with a type that is an input object, and that a field is declared with. -/
def Schema.FaultsInputs (schema : Schema) (error : CompletionError) : Prop :=
  error.FaultsType → ∃ field ∈ schema.declaredFields,
    field.node.InputTyped schema.document.kind? ∧
      error = .notAnOutputType field.node.type.node.innermost

/--
The types of all fields of an accepted schema exist: they are output types, or else input objects. In
whatever is executed, a value that settles is refused for its type only if a field is declared with
that type, which is an input object. Where all fields have output types, no value is ever refused for
its type.
-/
theorem values_settle_at_declared_types (executor : Executor σ)
    (accepted : executor.schema.Accepted) :
    (∀ field ∈ executor.schema.declaredFields,
      field.node.OutputTyped executor.schema.document.kind? ∨
        field.node.InputTyped executor.schema.document.kind?) ∧
    ∀ depth document operation root inputs journal result later,
      executor.rootType? operation.node.kind = some root →
      executor.executeOperation (executor.runWithin depth) document operation root inputs journal =
        some (result, later) →
      ∃ values started steps outcome,
        Traced executor ⟨document, values⟩ (executor.rootTask ⟨document, values⟩ operation root)
          started steps outcome later ∧
        result = .ok (orNull outcome) ∧
        ∀ slot value, .settled slot value ∈ steps → ∀ before after,
          Step.Takes executor ⟨document, values⟩ (.settled slot value) before after →
            Records executor executor.schema.FaultsInputs slot.field slot.type value before after ∧
            ((∀ field ∈ executor.schema.declaredFields,
                field.node.OutputTyped executor.schema.document.kind?) →
              Records executor (fun error => ¬ error.FaultsType) slot.field slot.type value before
                after) := by
  refine ⟨fun field among => (accepted.fields_typed field among).output_or_input, ?_⟩
  intro depth document operation root inputs journal result later rooted finished
  obtain ⟨values, started, steps, outcome, -, traced, same⟩ := operation_traced finished
  refine ⟨values, started, steps, outcome, traced, same, fun slot value among before after takes => ?_⟩
  have typed : executor.schema.FieldType slot.type.innermost :=
    traced.declared (Executor.root_type_held rooted) _ among
  obtain ⟨known, inputs⟩ := accepted.field_type typed
  have fits (error : CompletionError) (refuses : Refuses executor slot.type value error) :
      executor.schema.FaultsInputs error := by
    intro faults
    rcases refuses.faults faults with ⟨missing, -⟩ | ⟨input, same⟩
    · exact absurd missing known
    · obtain ⟨field, declared, given, named⟩ := inputs input
      exact ⟨field, declared, given, named ▸ same⟩
  obtain ⟨-, settled, settles⟩ := takes
  refine ⟨settles.records fits, fun output => settles.records fun error refuses faults => ?_⟩
  obtain ⟨field, declared, given, -⟩ := fits error refuses faults
  exact (output field declared).not_input given

/-- A schema whose root has a field of an input object. -/
def shelfSource : String := "input Box{size:Int}type Shelf{box:Box}"

def shelfKeeper (schema : Schema) : Executor Unit where
  schema := schema
  resolvers := [⟨"Shelf", "box", .ofFunction fun _ => .int 1⟩]
  scalars := []
  resolveType := typenameField
  isNullish := Value.isNull
  renderError := fun error _ => error.render

/-- A request for the box. -/
def shelfRequest : Located Operation := .unplaced
  { kind := .query
    name := none
    variableDefinitions := none
    directives := none
    selections := [kennelField "box" none] }

/-- How the request is answered, and what is recorded. -/
def shelfRun (schema : Schema) (root : ObjectType) :
    Option (Except Bubble Value × Journal Unit) :=
  (shelfKeeper schema).executeOperation ((shelfKeeper schema).runWithin 2)
    ⟨[.operation shelfRequest], .unplaced⟩ shelfRequest root [] ⟨(), []⟩

theorem shelf_asked :
    ((Schema.ofSource shelfSource "Shelf" none).toOption.bind fun schema => do
      let root ← schema.queryType?
      let run ← shelfRun schema root
      if schema.document.kind? "Box" == some .inputObject &&
          run.2.errors.map (·.error.message) == ["Type Box is not an output type"] then
        some (root, run)
      else none).isSome = true := by
  rw [Schema.of_source_spelled shelfSource String.toList_ofList]
  decide +kernel

/-- The schema is accepted, and yet the box is refused for its type, with which a field is declared. -/
theorem box_refused_for_its_type :
    ∃ schema root result later values steps,
      schema.Accepted ∧ shelfRun schema root = some (result, later) ∧
      later.errors.map (·.error.message) = ["Type Box is not an output type"] ∧
      schema.document.kind? "Box" = some .inputObject ∧
      ∀ slot value, .settled slot value ∈ (steps : List (Step Unit)) → ∀ before after,
        Step.Takes (shelfKeeper schema) ⟨⟨[.operation shelfRequest], .unplaced⟩, values⟩
            (.settled slot value) before after →
          Records (shelfKeeper schema) schema.FaultsInputs slot.field slot.type value before
            after := by
  obtain ⟨schema, _, accepted, found⟩ := Schema.accepted_of_found shelf_asked
  simp only [Option.bind_eq_bind, Option.bind_eq_some_iff, Option.ite_none_right_eq_some,
    Bool.and_eq_true, beq_iff_eq] at found
  obtain ⟨root, rooted, ⟨result, later⟩, ran, ⟨kind, recorded⟩, -⟩ := found
  obtain ⟨values, _, steps, _, -, -, records⟩ :=
    (values_settle_at_declared_types (shelfKeeper schema) accepted).2 2 _ shelfRequest root []
      ⟨(), []⟩ result later rooted ran
  exact ⟨schema, root, result, later, values, steps, accepted, ran, recorded, kind,
    fun slot value among before after takes => (records slot value among before after takes).1⟩

end GraphQL
