import GraphQL.Proofs.Completion
import GraphQL.Proofs.FiniteDefaults
import GraphQL.Execution.Response

/-!
Executions that settle once their bounds are large enough.

Objects nest up to a bound, and the requests that callbacks make nest up to bounds of their own. An
execution settles if all bounds beyond some number give it one outcome. What is executed settles if
its callbacks do and if it does for the objects below.
-/

namespace GraphQL

variable {σ τ ε ε' α β ι κ : Type}

/-- Bounds of some kind, with what it takes for a bound to be beyond a number. -/
structure Growth (ι : Type) where
  beyond : Nat → ι → Prop
  lower : ∀ {floor more bound}, floor ≤ more → beyond more bound → beyond floor bound
  unlimited : ∀ floor, ∃ bound, beyond floor bound

/-- In every context an action has one outcome under all large bounds. -/
def Growth.Settles (growth : Growth ι) (action : ι → Action σ ε α) : Prop :=
  ∀ context, ∃ floor outcome, ∀ bound, growth.beyond floor bound →
    action bound context = some outcome

namespace Growth.Settles

variable {growth : Growth ι}

/-- What ends does not depend on any bound. -/
theorem of_ends {action : Action σ ε α} (ends : Ends action) :
    growth.Settles fun _ => action := by
  intro context
  obtain ⟨outcome, ran⟩ := Option.isSome_iff_exists.mp (ends context)
  exact ⟨0, outcome, fun _ _ => ran⟩

theorem pure (value : α) : growth.Settles fun _ => (Pure.pure value : Action σ ε α) :=
  of_ends fun _ => rfl

/-- Only what happens under large bounds matters. -/
theorem congr {action other : ι → Action σ ε α} (settles : growth.Settles action)
    (same : ∀ bound, growth.beyond 0 bound → other bound = action bound) :
    growth.Settles other := by
  intro context
  obtain ⟨floor, outcome, settled⟩ := settles context
  refine ⟨floor, outcome, fun bound beyond => ?_⟩
  rw [same bound (growth.lower (Nat.zero_le floor) beyond)]
  exact settled bound beyond

/-- What settles under some bounds settles under others that are beyond numbers only with them. -/
theorem along {other : Growth κ} {action : κ → Action σ ε α} (settles : other.Settles action)
    (bounds : ι → κ)
    (beyond : ∀ floor bound, growth.beyond floor bound → other.beyond floor (bounds bound)) :
    growth.Settles fun bound => action (bounds bound) := by
  intro context
  obtain ⟨floor, outcome, settled⟩ := settles context
  exact ⟨floor, outcome, fun bound large => settled _ (beyond floor bound large)⟩

/-- If what values are like is known, it may be relied on in what follows. -/
theorem bind {action : ι → Action σ ε α} {next : ι → α → Action σ ε β} {property : α → Prop}
    (first : growth.Settles action) (ensured : ∀ bound, Ensures (action bound) property)
    (second : ∀ value, property value → growth.Settles fun bound => next bound value) :
    growth.Settles fun bound => action bound >>= next bound := by
  intro context
  obtain ⟨floor, ⟨result, later⟩, settled⟩ := first context
  cases result with
  | error error =>
      refine ⟨floor, (.error error, later), fun bound beyond => ?_⟩
      dsimp only
      rw [Action.bind_apply, settled bound beyond]
  | ok value =>
      obtain ⟨bound, large⟩ := growth.unlimited floor
      have holds := (ensured bound).holds _ _ _ (settled bound large)
      obtain ⟨above, outcome, ended⟩ := second value holds later
      refine ⟨max floor above, outcome, fun bound beyond => ?_⟩
      dsimp only
      rw [Action.bind_apply, settled bound (growth.lower (Nat.le_max_left _ _) beyond)]
      exact ended bound (growth.lower (Nat.le_max_right _ _) beyond)

theorem and_then {action : ι → Action σ ε α} {next : ι → α → Action σ ε β}
    (first : growth.Settles action)
    (second : ∀ value, growth.Settles fun bound => next bound value) :
    growth.Settles fun bound => action bound >>= next bound :=
  first.bind (fun bound => .trivial (action bound)) fun value _ => second value

/-- An action that does nothing but change the outcome of another one. -/
theorem mapped {action : ι → Action σ ε α} {other : ι → Action τ ε' β}
    (settles : growth.Settles action) (view : τ → σ)
    (change : τ → Except ε α × σ → Except ε' β × τ)
    (same : ∀ bound context,
      other bound context = (action bound (view context)).map (change context)) :
    growth.Settles other := by
  intro context
  obtain ⟨floor, outcome, settled⟩ := settles (view context)
  refine ⟨floor, change context outcome, fun bound beyond => ?_⟩
  rw [same, settled bound beyond, Option.map_some]

theorem adapt (change : ε → ε') {action : ι → Action σ ε α} (settles : growth.Settles action) :
    growth.Settles fun bound => (ExceptT.adapt change (action bound) : Action σ ε' α) :=
  settles.mapped id _ fun bound context => Action.adapt_apply change (action bound) context

theorem observe {action : ι → Action σ ε α} (settles : growth.Settles action) :
    growth.Settles fun bound => Completion.observe (action bound) :=
  settles.mapped Journal.context _ fun bound => Completion.observe_apply (action bound)

theorem absorb {completion : ι → Completion σ Value} (settles : growth.Settles completion) :
    growth.Settles fun bound => Completion.absorb (completion bound) :=
  settles.mapped id _ fun bound => Completion.absorb_apply (completion bound)

theorem required (field : FieldScope) {completion : ι → Completion σ Value}
    (settles : growth.Settles completion) :
    growth.Settles fun bound => field.required (completion bound) :=
  settles.mapped id _ fun bound => field.required_apply (completion bound)

theorem guarded (field : FieldScope) (type : TypeRef) {completion : ι → Completion σ Value}
    (settles : growth.Settles completion) :
    growth.Settles fun bound => field.guarded type (completion bound) := by
  unfold FieldScope.guarded
  split
  · exact settles.required field
  · exact settles.absorb

theorem over_items {complete : ι → Value → Completion σ Value} {items : List Value}
    (each : ∀ item ∈ items, growth.Settles fun bound => complete bound item) :
    growth.Settles fun bound => Completion.overItems (complete bound) items := by
  induction items with
  | nil => exact .pure []
  | cons item rest ih =>
      exact (each item List.mem_cons_self).and_then fun first =>
        (ih fun other member => each other (List.mem_cons_of_mem _ member)).and_then fun others =>
          .pure (first :: others)

end Growth.Settles

/-- A value itself, or an element of a list that is part of it. -/
inductive Value.ListPart : Value → Value → Prop where
  | whole {value} : ListPart value value
  | element {items item part} (member : item ∈ items) (within : ListPart item part) :
      ListPart (.list items) part

/-- An object type that values of a named type may be executed at. -/
inductive Schema.ObjectAt (schema : Schema) (name : String) (object : ObjectType) : Prop where
  | declared (found : schema.type? name = some (.object object))
  | possible {definition objectName} (found : schema.type? name = some definition)
      (abstract : definition.isAbstract = true)
      (member : schema.isPossibleType name objectName = true)
      (object_found : schema.document.object? objectName = some object)

section Completing

variable {executor : Executor σ} {growth : Growth ι} {run : ι → ObjectRunner σ}

theorem complete_object_settles {scope : FieldScope} {object : ObjectType} {value : Value}
    (below : growth.Settles fun bound => run bound object value scope.path scope.selectionSets) :
    growth.Settles fun bound => Executor.completeObject (run bound) scope object value :=
  below.and_then fun fields => .pure (Value.object fields)

theorem complete_abstract_settles {scope : FieldScope} {kind name : String} {value : Value}
    {definition : TypeDefinition} (declared : executor.schema.type? name = some definition)
    (abstract : definition.isAbstract = true)
    (below : ∀ object, executor.schema.ObjectAt name object →
      growth.Settles fun bound => run bound object value scope.path scope.selectionSets) :
    growth.Settles fun bound => executor.completeAbstract (run bound) scope kind name value := by
  unfold Executor.completeAbstract
  split
  · exact .of_ends fun _ => rfl
  · dsimp only
    split
    · rename_i possible
      split
      · exact .of_ends fun _ => rfl
      · rename_i object found
        exact complete_object_settles (below object (.possible declared abstract possible found))
    · exact .of_ends fun _ => rfl

variable (returns : ∀ name, ∀ hooks ∈ executor.scalar? name, hooks.Return)

include returns

theorem complete_named_settles {scope : FieldScope} {name : String} {value : Value}
    (below : ∀ object, executor.schema.ObjectAt name object →
      growth.Settles fun bound => run bound object value scope.path scope.selectionSets) :
    growth.Settles fun bound => executor.completeNamed (run bound) scope name value := by
  unfold Executor.completeNamed
  split
  · cases BuiltinScalar.ofName? name with
    | some scalar => exact .pure _
    | none =>
        dsimp only
        unfold Executor.serializeScalar
        cases registered : executor.scalar? name with
        | none => exact .pure value
        | some hooks =>
            have written := (returns name hooks registered).serialize value
            refine (Growth.Settles.of_ends written).observe.and_then fun result => ?_
            cases result with
            | ok value => exact .pure value
            | error error => exact .of_ends fun _ => rfl
  · split
    · exact .pure _
    · exact .pure _
  · rename_i object found
    exact complete_object_settles (below object (.declared found))
  · rename_i interface found
    have matching := List.find?_some found
    have named : interface.name.node = name := eq_of_beq matching
    rw [named]
    exact complete_abstract_settles found rfl below
  · rename_i union found
    have matching := List.find?_some found
    have named : union.name.node = name := eq_of_beq matching
    rw [named]
    exact complete_abstract_settles found rfl below
  · exact .of_ends fun _ => rfl
  · exact .of_ends fun _ => rfl

/-- A value is completed once the objects are executed that are found in it at the type. -/
theorem complete_bare_settles (scope : FieldScope) {type : TypeRef} {value : Value}
    (below : ∀ part, value.ListPart part → executor.isNullish part = false →
      ∀ object, executor.schema.ObjectAt type.innermost object →
        growth.Settles fun bound => run bound object part scope.path scope.selectionSets) :
    growth.Settles fun bound => executor.completeBare (run bound) scope type value := by
  induction type generalizing value with
  | named name =>
      unfold Executor.completeBare
      split
      · exact .pure Value.null
      · rename_i present
        exact complete_named_settles returns (below value .whole (by simpa using present))
  | nonNull inner ih =>
      unfold Executor.completeBare
      split
      · exact .pure Value.null
      · exact (ih below).required scope
  | list element ih =>
      unfold Executor.completeBare
      split
      · exact .pure Value.null
      · dsimp only
        split
        · rename_i items _
          have each : ∀ item ∈ items, growth.Settles fun bound =>
              scope.guarded element (executor.completeBare (run bound) scope element item) :=
            fun item member =>
              (ih fun part within => below part (.element member within)).guarded scope element
          exact (Growth.Settles.over_items each).and_then fun completed => .pure (Value.list completed)
        · exact .of_ends fun _ => rfl

end Completing

/-- Depths of requests; larger ones are beyond. -/
def requestDepths : Growth Nat where
  beyond floor depth := floor ≤ depth
  lower := Nat.le_trans
  unlimited floor := ⟨floor, Nat.le_refl floor⟩

/-- A callback returns, and all requests that it makes do, once they may nest deep enough. -/
def Executor.Returns (executor : Executor σ)
    (callback : (Request → Action σ RequestError Value) → Action σ ε α) : Prop :=
  requestDepths.Settles fun depth => callback (executor.execute depth)

/-- A resolver and its hooks return, whatever an executor asks them about its schema. -/
structure Resolver.Return (resolver : Resolver σ) (executor : Executor σ) : Prop where
  before : ∀ hook ∈ resolver.before, ∀ context : FieldContext σ,
    context.schema = executor.schema →
      executor.Returns fun execute => hook { context with execute := execute }
  resolve : ∀ context : FieldContext σ, context.schema = executor.schema →
    executor.Returns fun execute => resolver.resolve { context with execute := execute }
  after : ∀ hook ∈ resolver.after, ∀ context : FieldContext σ,
    context.schema = executor.schema → ∀ value,
      executor.Returns fun execute => hook { context with execute := execute } value

structure Executor.CallbacksReturn (executor : Executor σ) : Prop where
  resolvers : ∀ entry ∈ executor.resolvers, entry.resolver.Return executor
  scalars : ∀ entry ∈ executor.scalars, entry.2.Return

theorem Executor.CallbacksReturn.hooks {executor : Executor σ} (returns : executor.CallbacksReturn)
    (name : String) (hooks : ScalarHooks σ) (registered : hooks ∈ executor.scalar? name) :
    hooks.Return :=
  returns.scalars _ (lookup_member registered)

theorem Executor.CallbacksReturn.reads {executor : Executor σ} (returns : executor.CallbacksReturn)
    (name : String) (hooks : ScalarHooks σ) (registered : hooks ∈ executor.scalar? name) :
    hooks.ReadsEnd :=
  (returns.hooks name hooks registered).reads_end

/-- A value that a field may be resolved to; without a resolver that is what the source has. -/
def Executor.FieldMayBe (executor : Executor σ) (object : ObjectType) (source : Value)
    (name : String) (value : Value) : Prop :=
  executor.resolver? object.name.node name = none → value = (source.field? name).getD .null

section Executing

variable {executor : Executor σ} {growth : Growth ι} {requests : ι → Nat}
  (enough : ∀ floor bound, growth.beyond floor bound → floor ≤ requests bound)

include enough

theorem Executor.Returns.settles
    {callback : (Request → Action σ RequestError Value) → Action σ ε α}
    (returns : executor.Returns callback) :
    growth.Settles fun bound => callback (executor.execute (requests bound)) :=
  Growth.Settles.along returns requests enough

theorem run_resolver_settles {resolver : Resolver σ} (returns : resolver.Return executor)
    {context : FieldContext σ} (asked : context.schema = executor.schema) :
    growth.Settles fun bound => Executor.runResolver resolver
      { context with execute := executor.execute (requests bound) } := by
  have resolves (source : Value) : growth.Settles fun bound =>
      resolver.resolve { context with
        source := source
        execute := executor.execute (requests bound) } :=
    (returns.resolve { context with source := source } asked).settles enough
  unfold Executor.runResolver
  cases replaced : resolver.before
  case' none => refine (Growth.Settles.pure context.source).and_then fun source => ?_
  case' some before =>
    refine ((returns.before before replaced context asked).settles enough).and_then
      fun source => ?_
  all_goals
    refine (resolves source).and_then fun value => ?_
    cases hooked : resolver.after with
    | none => exact .pure value
    | some after =>
        exact (returns.after after hooked { context with source := source } asked value).settles
          enough

variable (returns : executor.CallbacksReturn) (finite : executor.FiniteDefaults)

include returns finite

theorem resolve_value_settles (scope : RequestScope) (object : ObjectType) (source : Value)
    (field : Located Field) (definition : FieldDefinition) :
    growth.Settles fun bound => executor.resolveValue scope (executor.execute (requests bound))
      object source field definition := by
  unfold Executor.resolveValue
  cases found : executor.resolver? object.name.node field.node.name.node with
  | none =>
      simp only [found]
      exact .pure _
  | some resolver =>
      simp only [found]
      obtain ⟨entry, at_entry, rfl⟩ := Option.map_eq_some_iff.mp found
      have arguments := coerce_arguments_end returns.reads finite scope.variableValues field.node
        definition.arguments
      refine (Growth.Settles.of_ends (arguments.adapt _)).and_then fun coerced => ?_
      have registered := returns.resolvers entry (List.mem_of_find?_eq_some at_entry)
      let context : FieldContext σ := ⟨executor.schema, scope.document, object, field, coerced,
        source, executor.execute 0⟩
      exact run_resolver_settles enough registered (show context.schema = executor.schema from rfl)

omit enough returns finite in
/-- Without a resolver a field has the value that the source has for it. -/
theorem resolve_value_may_be (scope : RequestScope)
    (execute : Request → Action σ RequestError Value) (object : ObjectType) (source : Value)
    (field : Located Field) (definition : FieldDefinition) :
    Ensures (Completion.observe (executor.resolveValue scope execute object source field
        definition))
      fun resolved => executor.FieldMayBe object source field.node.name.node (orNull resolved) := by
  refine ⟨fun journal resolved later ran plain => ?_⟩
  obtain ⟨outcome, context, same, resolving, -⟩ := Completion.observe_finished ran
  simp only [Executor.resolveValue, plain] at resolving
  cases resolving
  cases same
  rfl

theorem execute_group_settles {run : ι → ObjectRunner σ} (scope : RequestScope)
    (object : ObjectType) (source : Value) (path : FieldPath) (group : FieldGroup)
    (definition : FieldDefinition)
    (below : ∀ value, executor.FieldMayBe object source group.first.node.name.node value →
      ∀ part, value.ListPart part → executor.isNullish part = false →
        ∀ inner, executor.schema.ObjectAt definition.type.node.innermost inner → ∀ inside,
          growth.Settles fun bound => run bound inner part inside group.selectionSets) :
    growth.Settles fun bound => executor.executeGroup scope (executor.execute (requests bound))
      (run bound) object source path group definition := by
  unfold Executor.executeGroup
  have resolved := resolve_value_settles enough returns finite scope object source group.first
    definition
  refine resolved.observe.bind (fun bound => resolve_value_may_be scope _ object source _ _)
    fun result may_be => ?_
  let field : FieldScope := ⟨object.name.node, group.first.node.name.node,
    ⟨path.keys ++ [group.key], group.first.node.name.span.start⟩, group.selectionSets⟩
  have completes : growth.Settles fun bound =>
      executor.complete (run bound) field definition.type.node (orNull result) :=
    (complete_bare_settles returns.hooks field fun part within present inner at_type =>
      below _ may_be part within present inner at_type _).guarded field _
  cases result with
  | ok value => exact completes
  | error error =>
      have recorded : growth.Settles fun _ =>
          (Completion.record field.path error : Completion σ Unit) := .of_ends fun _ => rfl
      exact recorded.and_then fun _ => completes

/-- Groups are executed once their fields are resolved and what is below them is executed. -/
theorem execute_groups_settles {run : ι → ObjectRunner σ} (scope : RequestScope)
    (object : ObjectType) (source : Value) (path : FieldPath) (groups : List FieldGroup)
    (below : ∀ group ∈ groups,
      ∀ definition, object.selectable? group.first.node.name.node = some definition →
        ∀ value, executor.FieldMayBe object source group.first.node.name.node value →
          ∀ part, value.ListPart part → executor.isNullish part = false →
            ∀ inner, executor.schema.ObjectAt definition.type.node.innermost inner → ∀ inside,
              growth.Settles fun bound => run bound inner part inside group.selectionSets) :
    growth.Settles fun bound => executor.executeGroups scope (executor.execute (requests bound))
      (run bound) object source path groups := by
  induction groups with
  | nil => exact .pure []
  | cons group rest ih =>
      have others := ih fun other member => below other (List.mem_cons_of_mem _ member)
      unfold Executor.executeGroups
      cases defined : object.selectable? group.first.node.name.node with
      | none => exact others
      | some definition =>
          have first := execute_group_settles enough returns finite scope object source path group
            definition (below group List.mem_cons_self definition defined)
          exact first.and_then fun value => others.and_then fun fields =>
            .pure ((group.key, value) :: fields)

end Executing

end GraphQL
