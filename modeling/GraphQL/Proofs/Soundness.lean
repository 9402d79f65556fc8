import GraphQL.Proofs.Completion
import GraphQL.Proofs.Derivation

/-!
Every run that finishes is a derivation.

Completion is followed along its type, and execution along its groups and then along its depth.
-/

namespace GraphQL

variable {σ : Type}

theorem Value.eq_null {value : Value} (null : value.isNull = true) : value = .null := by
  cases value with
  | null => rfl
  | _ => cases null

namespace Executor

/-- Objects are executed by derivations only. -/
def DerivedBy (executor : Executor σ) (scope : RequestScope) (run : ObjectRunner σ) : Prop :=
  ∀ object source path selectionSets journal result later,
    run object source path selectionSets journal = some (result, later) →
      Runs executor scope
        (.groups object source path (executor.groupsBelow scope object selectionSets))
        journal (result.map Value.object) later

variable {executor : Executor σ} {scope : RequestScope} {run : ObjectRunner σ}

theorem complete_object_runs (derived : DerivedBy executor scope run) {field : FieldScope}
    {name : String} {object : ObjectType} {value : Value} {journal later : Journal σ}
    {result : Except Bubble Value} (present : executor.isNullish value = false)
    (executed : ObjectFor executor value name object)
    (finished : completeObject run field object value journal = some (result, later)) :
    Runs executor scope (.bare field (.named name) value) journal result later := by
  rw [completeObject] at finished
  rcases Action.bind_finished finished with ⟨fields, middle, ran, rest⟩ | ⟨_, rfl, ran⟩
  · cases rest
    exact .object present executed (derived _ _ _ _ _ _ _ ran)
  · exact .object present executed (derived _ _ _ _ _ _ _ ran)

theorem serialize_scalar_settles {field : FieldScope} {name : String} {definition : ScalarType}
    {value : Value} {journal later : Journal σ} {result : Except Bubble Value}
    (declared : executor.schema.type? name = some (.scalar definition))
    (custom : BuiltinScalar.ofName? name = none)
    (finished : executor.serializeScalar field name value journal = some (result, later)) :
    ∃ settled, result = .ok settled ∧
      Settles executor field (.named name) value journal settled later := by
  rw [serializeScalar] at finished
  cases hooked : executor.scalar? name with
  | none =>
      simp only [hooked] at finished
      cases finished
      exact ⟨value, rfl, .plain declared custom hooked⟩
  | some hooks =>
      simp only [hooked] at finished
      rcases Action.bind_finished finished with ⟨seen, middle, ran, rest⟩ | ⟨_, -, ran⟩
      · obtain ⟨outcome, context, same, serialized, rfl⟩ := Completion.observe_finished ran
        obtain rfl : seen = outcome := Except.ok.inj same
        cases seen with
        | ok written =>
            cases rest
            exact ⟨written, rfl, .written declared custom hooked serialized⟩
        | error error =>
            cases rest
            exact ⟨.null, rfl, .unwritten declared custom hooked serialized⟩
      · obtain ⟨outcome, context, impossible, -⟩ := Completion.observe_finished ran
        cases impossible

theorem complete_abstract_runs (derived : DerivedBy executor scope run) {field : FieldScope}
    {name kind : String} {definition : TypeDefinition} {value : Value} {journal later : Journal σ}
    {result : Except Bubble Value} (present : executor.isNullish value = false)
    (found : executor.schema.type? name = some definition)
    (abstract : definition.isAbstract = true)
    (finished : executor.completeAbstract run field kind definition.name value journal =
      some (result, later)) :
    Runs executor scope (.bare field (.named name) value) journal result later := by
  rw [completeAbstract] at finished
  cases named : (executor.resolveType value).filter (· ≠ "") with
  | none =>
      simp only [named, Completion.null_because_apply] at finished
      cases finished
      exact .settled present (.undetermined found abstract named)
  | some objectName =>
      have chosen : executor.resolveType value = some objectName :=
        (Option.filter_eq_some_iff.mp named).1
      simp only [named] at finished
      by_cases member : executor.schema.isPossibleType definition.name objectName = true
      · rw [if_pos member] at finished
        cases known : executor.schema.document.object? objectName with
        | none =>
            simp only [known, Completion.null_because_apply] at finished
            cases finished
            exact .settled present (.impossible found abstract chosen (.inr known))
        | some object =>
            simp only [known] at finished
            exact complete_object_runs derived present
              (.possible found abstract chosen (of_decide_eq_true member) known) finished
      · rw [if_neg member, Completion.null_because_apply] at finished
        cases finished
        refine .settled present (.impossible found abstract chosen (.inl ?_))
        exact fun inside => member (decide_eq_true inside)

theorem complete_named_runs (derived : DerivedBy executor scope run) {field : FieldScope}
    {name : String} {value : Value} {journal later : Journal σ} {result : Except Bubble Value}
    (present : executor.isNullish value = false)
    (finished : executor.completeNamed run field name value journal = some (result, later)) :
    Runs executor scope (.bare field (.named name) value) journal result later := by
  rw [completeNamed] at finished
  cases found : executor.schema.type? name with
  | none =>
      simp only [found, Completion.null_because_apply] at finished
      cases finished
      exact .settled present (.unknownType found)
  | some definition =>
      cases definition with
      | scalar definition =>
          simp only [found] at finished
          cases named : BuiltinScalar.ofName? name with
          | some scalar =>
              simp only [named] at finished
              cases finished
              exact .settled present (.builtin found named)
          | none =>
              simp only [named] at finished
              obtain ⟨settled, rfl, settles⟩ := serialize_scalar_settles found named finished
              exact .settled present settles
      | enum definition =>
          have written : executor.completeNamed run field name value journal =
              some (.ok (enumText value), journal) := by
            simp only [completeNamed, found, enumText]
            cases value.toEnumName? <;> rfl
          rw [completeNamed, finished] at written
          cases written
          exact .settled present (.enum found)
      | object object =>
          simp only [found] at finished
          exact complete_object_runs derived present (.declared found) finished
      | interface interface =>
          simp only [found] at finished
          exact complete_abstract_runs derived present found rfl finished
      | union union =>
          simp only [found] at finished
          exact complete_abstract_runs derived present found rfl finished
      | inputObject definition =>
          simp only [found, Completion.null_because_apply] at finished
          cases finished
          exact .settled present (.notAnOutputType found)

theorem over_items_runs {field : FieldScope} {element : TypeRef}
    (each : ∀ value journal result later,
      executor.complete run field element value journal = some (result, later) →
        Runs executor scope (.complete field element value) journal result later)
    {values : List Value} {journal later : Journal σ} {result : Except Bubble (List Value)}
    (finished : Completion.overItems (executor.complete run field element) values journal =
      some (result, later)) :
    Runs executor scope (.items field element values) journal (result.map Value.list) later := by
  induction values generalizing journal result with
  | nil =>
      cases finished
      exact .noItems
  | cons value values ih =>
      rw [Completion.overItems] at finished
      rcases Action.bind_finished finished with ⟨first, middle, head, rest⟩ | ⟨_, rfl, head⟩
      · rcases Action.bind_finished rest with ⟨others, last, tail, done⟩ | ⟨_, rfl, tail⟩
        · cases done
          exact .item (each _ _ _ _ head) (ih tail)
        · exact .itemsBubbled (each _ _ _ _ head) (ih tail)
      · exact .itemBubbled (each _ _ _ _ head)

theorem required_runs {field : FieldScope} {inner : TypeRef} {value : Value}
    {completion : Completion σ Value} {journal later : Journal σ} {result : Except Bubble Value}
    (bare : ∀ result later, completion journal = some (result, later) →
      Runs executor scope (.bare field inner value) journal result later)
    (finished : field.required completion journal = some (result, later)) :
    Runs executor scope (.complete field (.nonNull inner) value) journal result later := by
  rw [FieldScope.required_apply, Option.map_eq_some_iff] at finished
  obtain ⟨⟨middle, reached⟩, ran, demanded⟩ := finished
  have derivation := bare middle reached ran
  cases middle with
  | error _ =>
      cases demanded
      exact .passed derivation
  | ok found =>
      by_cases null : found.isNull = true
      · simp only [FieldScope.demand, null, if_true] at demanded
        cases demanded
        obtain rfl := Value.eq_null null
        exact .violated derivation
      · simp only [FieldScope.demand, null] at demanded
        cases demanded
        exact .present (by simpa using null) derivation

theorem absorb_runs {field : FieldScope} {type : TypeRef} {value : Value}
    {completion : Completion σ Value} {journal later : Journal σ} {result : Except Bubble Value}
    (optional : type.isNonNull = false)
    (bare : ∀ result later, completion journal = some (result, later) →
      Runs executor scope (.bare field type value) journal result later)
    (finished : Completion.absorb completion journal = some (result, later)) :
    Runs executor scope (.complete field type value) journal result later := by
  rw [Completion.absorb_apply, Option.map_eq_some_iff] at finished
  obtain ⟨⟨middle, reached⟩, ran, absorbed⟩ := finished
  have derivation := bare middle reached ran
  cases absorbed
  cases middle with
  | ok found => exact .nullable optional derivation
  | error _ => exact .absorbed optional derivation

theorem complete_nullable_runs {field : FieldScope} {type : TypeRef}
    (optional : type.isNonNull = false)
    (bare : ∀ value journal result later,
      executor.completeBare run field type value journal = some (result, later) →
        Runs executor scope (.bare field type value) journal result later) :
    ∀ value journal result later,
      executor.complete run field type value journal = some (result, later) →
        Runs executor scope (.complete field type value) journal result later := by
  intro value journal result later finished
  rw [complete_nullable executor run field value optional] at finished
  exact absorb_runs optional (bare value journal) finished

/-- What counts as absent is settled at every type, so only the other values need a derivation. -/
theorem bare_runs_of_present {field : FieldScope} {type : TypeRef}
    (present : ∀ value journal result later, executor.isNullish value = false →
      executor.completeBare run field type value journal = some (result, later) →
        Runs executor scope (.bare field type value) journal result later) :
    ∀ value journal result later,
      executor.completeBare run field type value journal = some (result, later) →
        Runs executor scope (.bare field type value) journal result later := by
  intro value journal result later finished
  cases nullish : executor.isNullish value with
  | true =>
      rw [complete_bare_nullish executor run field _ nullish] at finished
      cases finished
      exact .absent nullish
  | false => exact present value journal result later nullish finished

theorem bare_named_runs (derived : DerivedBy executor scope run) (field : FieldScope)
    (name : String) (value : Value) (journal : Journal σ) (result : Except Bubble Value)
    (later : Journal σ) (present : executor.isNullish value = false)
    (finished : executor.completeBare run field (.named name) value journal =
      some (result, later)) :
    Runs executor scope (.bare field (.named name) value) journal result later := by
  rw [complete_bare_named executor run field name present] at finished
  exact complete_named_runs derived present finished

theorem bare_list_runs {field : FieldScope} {element : TypeRef}
    (each : ∀ value journal result later,
      executor.complete run field element value journal = some (result, later) →
        Runs executor scope (.complete field element value) journal result later)
    (value : Value) (journal : Journal σ) (result : Except Bubble Value) (later : Journal σ)
    (present : executor.isNullish value = false)
    (finished : executor.completeBare run field (.list element) value journal =
      some (result, later)) :
    Runs executor scope (.bare field (.list element) value) journal result later := by
  cases listed : value.asList? with
  | none =>
      rw [complete_bare_not_list executor run field element present listed,
        Completion.null_because_apply] at finished
      cases finished
      exact .settled present (.notAList listed)
  | some values =>
      obtain rfl : value = .list values := by
        cases value <;> simp_all [Value.asList?]
      rw [complete_bare_list executor run field element present] at finished
      rcases Action.bind_finished finished with ⟨completed, middle, ran, done⟩ | ⟨_, rfl, ran⟩
      · cases done
        exact .list present (over_items_runs each ran)
      · exact .list present (over_items_runs each ran)

/-- Completion at a type follows the rules, both before and after nulls are treated. -/
theorem complete_runs (derived : DerivedBy executor scope run) (field : FieldScope)
    (type : TypeRef) :
    (∀ value journal result later,
      executor.completeBare run field type value journal = some (result, later) →
        Runs executor scope (.bare field type value) journal result later) ∧
    (∀ value journal result later,
      executor.complete run field type value journal = some (result, later) →
        Runs executor scope (.complete field type value) journal result later) := by
  induction type with
  | named name =>
      have bare := bare_runs_of_present (bare_named_runs derived field name)
      exact ⟨bare, complete_nullable_runs rfl bare⟩
  | list element ih =>
      have bare := bare_runs_of_present (bare_list_runs ih.2)
      exact ⟨bare, complete_nullable_runs rfl bare⟩
  | nonNull inner ih =>
      have guarded : ∀ value journal result later,
          executor.complete run field (.nonNull inner) value journal = some (result, later) →
            Runs executor scope (.complete field (.nonNull inner) value) journal result later := by
        intro value journal result later finished
        rw [complete_non_null] at finished
        exact required_runs (ih.1 value journal) finished
      refine ⟨bare_runs_of_present ?_, guarded⟩
      intro value journal result later present finished
      rw [complete_bare_non_null executor run field inner present] at finished
      exact .nested present (guarded value journal result later finished)

/-- A field is resolved first; whatever comes of that is completed. -/
theorem execute_group_runs (derived : DerivedBy executor scope run) {depth : Nat}
    {object : ObjectType} {source : Value} {path : FieldPath} {group : FieldGroup}
    {definition : FieldDefinition} {journal later : Journal σ} {result : Except Bubble Value}
    (finished : executor.executeGroup scope (executor.execute depth) run object source path group
      definition journal = some (result, later)) :
    ∃ value resolved,
      Resolves executor scope object source path group definition journal value resolved ∧
        Runs executor scope (.complete (group.scope object path) definition.type.node value)
          resolved result later := by
  rw [executeGroup] at finished
  rcases Action.bind_finished finished with ⟨seen, middle, ran, rest⟩ | ⟨_, -, ran⟩
  · obtain ⟨outcome, context, same, resolved, rfl⟩ := Completion.observe_finished ran
    obtain rfl : seen = outcome := Except.ok.inj same
    cases seen with
    | ok value =>
        exact ⟨value, _, .returned resolved, (complete_runs derived _ _).2 _ _ _ _ rest⟩
    | error error =>
        exact ⟨.null, _, .failed resolved, (complete_runs derived _ _).2 _ _ _ _ rest⟩
  · obtain ⟨outcome, context, impossible, -⟩ := Completion.observe_finished ran
    cases impossible

theorem execute_groups_runs (derived : DerivedBy executor scope run) {depth : Nat}
    {object : ObjectType} {source : Value} {path : FieldPath} {groups : List FieldGroup}
    {journal later : Journal σ} {result : Except Bubble Object}
    (finished : executor.executeGroups scope (executor.execute depth) run object source path groups
      journal = some (result, later)) :
    Runs executor scope (.groups object source path groups) journal
      (result.map Value.object) later := by
  induction groups generalizing journal result with
  | nil =>
      cases finished
      exact .noGroups
  | cons group groups ih =>
      rw [executeGroups] at finished
      cases known : object.selectable? group.first.node.name.node with
      | none =>
          simp only [known] at finished
          exact .undefinedField known (ih finished)
      | some definition =>
          simp only [known] at finished
          rcases Action.bind_finished finished with ⟨first, middle, head, rest⟩ | ⟨_, rfl, head⟩
          · obtain ⟨value, resolved, resolves, completes⟩ := execute_group_runs derived head
            rcases Action.bind_finished rest with ⟨others, last, tail, done⟩ | ⟨_, rfl, tail⟩
            · cases done
              exact .field known resolves completes (ih tail)
            · exact .fieldsBubbled known resolves completes (ih tail)
          · obtain ⟨value, resolved, resolves, completes⟩ := execute_group_runs derived head
            exact .fieldBubbled known resolves completes

/-- Every object that is executed, at whatever depth, has a derivation. -/
theorem run_within_runs (executor : Executor σ) (depth : Nat) (scope : RequestScope) :
    DerivedBy executor scope (executor.runWithin depth scope) := by
  induction depth with
  | zero =>
      intro object source path selectionSets journal result later finished
      cases finished
  | succ depth ih =>
      intro object source path selectionSets journal result later finished
      exact execute_groups_runs ih finished

end Executor

end GraphQL
