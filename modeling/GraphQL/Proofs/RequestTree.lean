import GraphQL.Proofs.Completion
import GraphQL.Proofs.Derivation
import Mathlib.Data.List.Forall2

/-!
Requests that differ in nothing that callbacks get to see.

Resolvers are handed the document and the field that they answer for. Where none of them looks at
the document or below its field, two requests have the same response if they collect groups that are
alike at every object: with the same keys, the same first field up to its selections, and selections
that are alike again.
-/

namespace GraphQL

variable {σ : Type}

/-- A field without what is selected below it. -/
def Field.bare (field : Field) : Field := { field with selections := none }

/-- A resolver is asked the same, apart from the document and what is selected below the field. -/
structure FieldContext.Alike (left right : FieldContext σ) : Prop where
  schema : left.schema = right.schema
  objectType : left.objectType = right.objectType
  field : left.field.map Field.bare = right.field.map Field.bare
  arguments : left.arguments = right.arguments
  source : left.source = right.source
  execute : left.execute = right.execute

/-- A resolver that looks neither at the document nor below its field. -/
structure Resolver.Nearsighted (resolver : Resolver σ) : Prop where
  before : ∀ hook ∈ resolver.before, ∀ left right, FieldContext.Alike left right →
    hook left = hook right
  resolve : ∀ left right, FieldContext.Alike left right →
    resolver.resolve left = resolver.resolve right
  after : ∀ hook ∈ resolver.after, ∀ left right, FieldContext.Alike left right →
    hook left = hook right

def Executor.Nearsighted (executor : Executor σ) : Prop :=
  ∀ entry ∈ executor.resolvers, entry.resolver.Nearsighted

/-- Two groups that are executed alike if what is selected below them is. -/
structure FieldGroup.Alike (alike : List (List Selection) → List (List Selection) → Prop)
    (left right : FieldGroup) : Prop where
  key : left.key = right.key
  first : left.first.map Field.bare = right.first.map Field.bare
  below : alike left.selectionSets right.selectionSets

/-- Selection sets that are alike ask for groups that are alike, in two requests. -/
structure RequestScope.Alike (schema : Schema)
    (alike : List (List Selection) → List (List Selection) → Prop) (left right : RequestScope) :
    Prop where
  variableValues : left.variableValues = right.variableValues
  groups : ∀ objectName ls rs, alike ls rs →
    List.Forall₂ (FieldGroup.Alike alike) (collectFields schema left objectName ls)
      (collectFields schema right objectName rs)

/-- An object type that a schema holds under some name. -/
def Schema.HasObject (schema : Schema) (object : ObjectType) : Prop :=
  ∃ name, schema.document.object? name = some object

theorem Schema.has_object_of_type {schema : Schema} {name : String} {object : ObjectType}
    (found : schema.type? name = some (.object object)) : schema.HasObject object := by
  have known : schema.document.type? name = some (.object object) := found
  exact ⟨name, by rw [Document.object?, known]⟩

/--
The same on some object types alone. These hold all that the schema holds, so that execution does
not leave them.
-/
structure RequestScope.AlikeOn (reached : ObjectType → Prop) (schema : Schema)
    (alike : List (List Selection) → List (List Selection) → Prop) (left right : RequestScope) :
    Prop where
  variableValues : left.variableValues = right.variableValues
  closed : ∀ object, schema.HasObject object → reached object
  groups : ∀ object, reached object → ∀ ls rs, alike ls rs →
    List.Forall₂ (FieldGroup.Alike alike) (collectFields schema left object.name.node ls)
      (collectFields schema right object.name.node rs)

theorem RequestScope.Alike.everywhere {schema : Schema}
    {alike : List (List Selection) → List (List Selection) → Prop} {left right : RequestScope}
    (scopes : left.Alike schema alike right) :
    left.AlikeOn (fun _ => True) schema alike right where
  variableValues := scopes.variableValues
  closed _ _ := .intro
  groups object _ := scopes.groups object.name.node

section Fields

variable {executor : Executor σ}

theorem bare_name {left right : Located Field}
    (same : left.map Field.bare = right.map Field.bare) : left.node.name = right.node.name :=
  congrArg (fun field => field.node.name) same

theorem bare_arguments {left right : Located Field}
    (same : left.map Field.bare = right.map Field.bare) :
    left.node.arguments = right.node.arguments :=
  congrArg (fun field => field.node.arguments) same

/-- Arguments are read off those of the field alone. -/
theorem coerce_arguments_bare (executor : Executor σ) (values : Object) {left right : Located Field}
    (same : left.map Field.bare = right.map Field.bare)
    (arguments : List (Located InputDefinition)) :
    executor.coerceArguments values left.node arguments =
      executor.coerceArguments values right.node arguments := by
  have given (name : String) : left.node.argument? name = right.node.argument? name := by
    rw [Field.argument?, Field.argument?, bare_arguments same]
  induction arguments with
  | nil => rfl
  | cons argument rest ih =>
      rw [Executor.coerceArguments, Executor.coerceArguments, Executor.coerceArgument,
        Executor.coerceArgument, given, ih]

theorem run_resolver_alike {resolver : Resolver σ} (nearsighted : resolver.Nearsighted)
    {left right : FieldContext σ} (alike : left.Alike right) :
    Executor.runResolver resolver left = Executor.runResolver resolver right := by
  have seen (source : Value) :
      FieldContext.Alike { left with source := source } { right with source := source } :=
    { alike with source := rfl }
  unfold Executor.runResolver
  cases replaced : resolver.before
  case' none => dsimp only; rw [alike.source]
  case' some before => dsimp only; rw [nearsighted.before before replaced left right alike]
  -- Whatever the source is now, both go on with it.
  all_goals
    congr 1
    funext source
    rw [nearsighted.resolve _ _ (seen source)]
    congr 1
    funext value
    cases hooked : resolver.after with
    | none => rfl
    | some after => exact congrFun (nearsighted.after after hooked _ _ (seen source)) value

theorem resolve_value_alike (nearsighted : executor.Nearsighted) {left right : RequestScope}
    (values : left.variableValues = right.variableValues)
    (execute : Request → Action σ RequestError Value) (object : ObjectType) (source : Value)
    {field other : Located Field} (same : field.map Field.bare = other.map Field.bare)
    (definition : FieldDefinition) :
    executor.resolveValue left execute object source field definition =
      executor.resolveValue right execute object source other definition := by
  rw [Executor.resolveValue, Executor.resolveValue, ← bare_name same, values,
    coerce_arguments_bare executor right.variableValues same definition.arguments]
  cases found : executor.resolver? object.name.node field.node.name.node with
  | none => rfl
  | some resolver =>
      obtain ⟨entry, at_entry, rfl⟩ := Option.map_eq_some_iff.mp found
      dsimp only
      congr 1
      funext arguments
      exact run_resolver_alike (nearsighted entry (List.mem_of_find?_eq_some at_entry))
        ⟨rfl, rfl, same, rfl, rfl, rfl⟩

end Fields

section Objects

variable {executor : Executor σ} {run other : ObjectRunner σ} {field : FieldScope}
  {sets : List (List Selection)}
  (runs : ∀ object, executor.schema.HasObject object → ∀ value,
    run object value field.path field.selectionSets = other object value field.path sets)

include runs

theorem complete_object_alike {object : ObjectType} (held : executor.schema.HasObject object)
    (value : Value) :
    Executor.completeObject run field object value =
      Executor.completeObject other { field with selectionSets := sets } object value := by
  rw [Executor.completeObject, Executor.completeObject, runs object held]

theorem complete_abstract_alike (kind name : String) (value : Value) :
    executor.completeAbstract run field kind name value =
      executor.completeAbstract other { field with selectionSets := sets } kind name value := by
  unfold Executor.completeAbstract
  cases (executor.resolveType value).filter (· ≠ "") with
  | none => rfl
  | some objectName =>
      dsimp only
      split
      · cases found : executor.schema.document.object? objectName with
        | none => rfl
        | some object => exact complete_object_alike runs ⟨objectName, found⟩ value
      · rfl

theorem complete_named_alike (name : String) (value : Value) :
    executor.completeNamed run field name value =
      executor.completeNamed other { field with selectionSets := sets } name value := by
  unfold Executor.completeNamed
  cases found : executor.schema.type? name with
  | none => rfl
  | some definition =>
      cases definition with
      | scalar scalar => rfl
      | enum enum => rfl
      | inputObject input => rfl
      | object object => exact complete_object_alike runs (Schema.has_object_of_type found) value
      | interface interface => exact complete_abstract_alike runs _ _ value
      | union union => exact complete_abstract_alike runs _ _ value

theorem complete_bare_alike (type : TypeRef) (value : Value) :
    executor.completeBare run field type value =
      executor.completeBare other { field with selectionSets := sets } type value := by
  induction type generalizing value with
  | named name =>
      rw [Executor.completeBare, Executor.completeBare, complete_named_alike runs name value]
  | nonNull inner ih =>
      rw [Executor.completeBare, Executor.completeBare, ih]
      rfl
  | list element ih =>
      have each : (fun item =>
            field.guarded element (executor.completeBare run field element item)) =
          fun item => FieldScope.guarded { field with selectionSets := sets } element
            (executor.completeBare other { field with selectionSets := sets } element item) := by
        funext item
        rw [ih]
        rfl
      cases value with
      | list items => simp only [Executor.completeBare, each]
      | _ => rfl

theorem complete_alike (type : TypeRef) (value : Value) :
    executor.complete run field type value =
      executor.complete other { field with selectionSets := sets } type value := by
  rw [Executor.complete, Executor.complete, complete_bare_alike runs]
  rfl

end Objects

section Runs

variable {executor : Executor σ} (nearsighted : executor.Nearsighted)
  {reached : ObjectType → Prop} {left right : RequestScope}
  {alike : List (List Selection) → List (List Selection) → Prop}
  (scopes : left.AlikeOn reached executor.schema alike right)

include nearsighted scopes

theorem execute_group_alike (execute : Request → Action σ RequestError Value)
    {run other : ObjectRunner σ}
    (runs : ∀ object, reached object → ∀ value path ls rs, alike ls rs →
      run object value path ls = other object value path rs)
    (object : ObjectType) (source : Value) (path : FieldPath) {group copy : FieldGroup}
    (related : group.Alike alike copy) (definition : FieldDefinition) :
    executor.executeGroup left execute run object source path group definition =
      executor.executeGroup right execute other object source path copy definition := by
  have resolved := resolve_value_alike nearsighted scopes.variableValues execute object source
    related.first definition
  have completed (value : Value) :
      executor.complete run (group.scope object path) definition.type.node value =
        executor.complete other (copy.scope object path) definition.type.node value := by
    have placed : copy.scope object path =
        { group.scope object path with selectionSets := copy.selectionSets } := by
      rw [FieldGroup.scope, FieldGroup.scope, bare_name related.first, related.key]
    rw [placed]
    exact complete_alike (fun object held value =>
      runs object (scopes.closed object held) value _ _ _ related.below) _ value
  simp only [FieldGroup.scope, bare_name related.first, related.key] at completed
  simp only [Executor.executeGroup, resolved, bare_name related.first, related.key, completed]

theorem execute_groups_alike {execute : Request → Action σ RequestError Value}
    {run other : ObjectRunner σ}
    (runs : ∀ object, reached object → ∀ value path ls rs, alike ls rs →
      run object value path ls = other object value path rs)
    (object : ObjectType) (source : Value) (path : FieldPath) {groups copies : List FieldGroup}
    (related : List.Forall₂ (FieldGroup.Alike alike) groups copies) :
    executor.executeGroups left execute run object source path groups =
      executor.executeGroups right execute other object source path copies := by
  induction related with
  | nil => rfl
  | cons first _ ih =>
      rename_i group copy _ _ _
      rw [Executor.executeGroups, Executor.executeGroups, bare_name first.first, ih, first.key]
      cases object.selectable? copy.first.node.name.node with
      | none => rfl
      | some definition =>
          have same := execute_group_alike nearsighted scopes execute runs object source path
            first definition
          simp only [same]

/-- Objects are executed alike in both requests, at whatever depth. -/
theorem run_within_alike (depth : Nat) {object : ObjectType} (here : reached object)
    (source : Value) (path : FieldPath) {ls rs : List (List Selection)} (asked : alike ls rs) :
    executor.runWithin depth left object source path ls =
      executor.runWithin depth right object source path rs := by
  induction depth generalizing object source path ls rs with
  | zero => rfl
  | succ depth ih =>
      exact execute_groups_alike nearsighted scopes
        (fun object here value path ls rs asked => ih here value path asked) object source path
        (scopes.groups object here ls rs asked)

end Runs

/-- An operation with other selections. -/
def Operation.selecting (selections : List Selection) (operation : Operation) : Operation :=
  { operation with selections := selections }

section Operations

variable {executor : Executor σ} (nearsighted : executor.Nearsighted)
  {operation : Located Operation} {selections : List Selection}

include nearsighted

/-- Alike selections on a root type have the same data. -/
theorem root_data_alike {reached : ObjectType → Prop} {left right : RequestScope}
    {alike : List (List Selection) → List (List Selection) → Prop}
    (scopes : left.AlikeOn reached executor.schema alike right)
    (asked : alike [operation.node.selections] [selections]) (depth : Nat) (root : ObjectType)
    (here : reached root) :
    Executor.rootData (executor.runWithin depth left) operation root =
      Executor.rootData (executor.runWithin depth right)
        (operation.map (Operation.selecting selections)) root := by
  rw [Executor.rootData, Executor.rootData,
    run_within_alike nearsighted scopes depth here _ _ asked]
  rfl

/--
An operation is executed alike in two documents, if its selections and all that they lead to are
alike whatever the values of the variables are.
-/
theorem execute_operation_alike_on {reached : ObjectType → Prop} {document other : Document}
    {alike : Object → List (List Selection) → List (List Selection) → Prop}
    (scopes : ∀ values,
      RequestScope.AlikeOn reached executor.schema (alike values) ⟨document, values⟩
        ⟨other, values⟩)
    (asked : ∀ values, alike values [operation.node.selections] [selections]) (depth : Nat)
    (root : ObjectType) (here : reached root) (inputs : Object) :
    executor.executeOperation (executor.runWithin depth) document operation root inputs =
      executor.executeOperation (executor.runWithin depth) other
        (operation.map (Operation.selecting selections)) root inputs := by
  have same (values : Object) :=
    root_data_alike nearsighted (scopes values) (asked values) depth root here
  rw [Executor.executeOperation, Executor.executeOperation]
  simp only [same]
  rfl

theorem execute_operation_alike {document other : Document}
    {alike : Object → List (List Selection) → List (List Selection) → Prop}
    (scopes : ∀ values,
      RequestScope.Alike executor.schema (alike values) ⟨document, values⟩ ⟨other, values⟩)
    (asked : ∀ values, alike values [operation.node.selections] [selections]) (depth : Nat)
    (root : ObjectType) (inputs : Object) :
    executor.executeOperation (executor.runWithin depth) document operation root inputs =
      executor.executeOperation (executor.runWithin depth) other
        (operation.map (Operation.selecting selections)) root inputs :=
  execute_operation_alike_on nearsighted (fun values => (scopes values).everywhere) asked depth
    root .intro inputs

end Operations

end GraphQL
