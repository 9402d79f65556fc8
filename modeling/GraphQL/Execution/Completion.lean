import GraphQL.Execution.Collection

/-!
Resolving fields and completing their values against their types.

A null where none may be is recorded once and then travels upward as a bubble, to the nearest place
that may be null. All other failures are recorded at their field, which becomes null. Fields are
resolved one after another, each with all that is below it.
-/

namespace GraphQL

/-- The application's context and the errors recorded so far. -/
structure Journal (σ : Type) where
  context : σ
  errors : List ExecutionError

/-- A null on its way up; the error that tells of it is already recorded. -/
inductive Bubble where
  | bubble
  deriving DecidableEq, Repr

abbrev Completion (σ α : Type) := Action (Journal σ) Bubble α

/-- Response keys from the root, and the place of the last one. -/
structure FieldPath where
  keys : List String
  location : Position

variable {σ : Type}

namespace Completion

/-- Runs an action on the context and hands its failure over as a result. -/
def observe {ε α : Type} (action : Action σ ε α) : Completion σ (Except ε α) := fun journal =>
  match action journal.context with
  | none => none
  | some (result, context) => some (.ok result, { journal with context := context })

def record (path : FieldPath) (error : FieldError) : Completion σ Unit := fun journal =>
  some (.ok (), { journal with errors := journal.errors ++ [⟨path.location, path.keys, error⟩] })

/-- Records why a field is null, and makes it so. -/
def nullBecause (path : FieldPath) (error : CompletionError) : Completion σ Value := do
  record path (.ofMessage error.message)
  pure .null

/-- Where null may stand, a bubble becomes null. -/
def absorb (completion : Completion σ Value) : Completion σ Value := fun journal =>
  match completion journal with
  | some (.error .bubble, later) => some (.ok .null, later)
  | other => other

/-- Applies a completion to every item in turn; a bubble ends it. -/
def overItems (complete : Value → Completion σ Value) : List Value → Completion σ (List Value)
  | [] => pure []
  | item :: rest => do
      let first ← complete item
      let others ← overItems complete rest
      pure (first :: others)

end Completion

structure FieldScope where
  typeName : String
  fieldName : String
  path : FieldPath
  selectionSets : List (List Selection)

/-- Executes selection sets on an object type and a source value. -/
abbrev ObjectRunner (σ : Type) :=
  ObjectType → Value → FieldPath → List (List Selection) → Completion σ Object

/-- Where null may not stand, it is recorded and becomes a bubble. -/
def FieldScope.required (scope : FieldScope) (completion : Completion σ Value) :
    Completion σ Value := do
  let value ← completion
  if value.isNull then
    let error := CompletionError.nullForNonNull scope.typeName scope.fieldName
    Completion.record scope.path (.ofMessage error.message)
    throw Bubble.bubble
  else pure value

/-- Treats null as the type says: non-null types pass bubbles on, the others absorb them. -/
def FieldScope.guarded (scope : FieldScope) (type : TypeRef) (completion : Completion σ Value) :
    Completion σ Value :=
  if type.isNonNull then scope.required completion else Completion.absorb completion

namespace Executor

def serializeScalar (executor : Executor σ) (scope : FieldScope) (name : String)
    (value : Value) : Completion σ Value :=
  match executor.scalar? name with
  | none => pure value
  | some hooks => do
      match ← Completion.observe (hooks.serialize value) with
      | .ok written => pure written
      | .error error => do
          Completion.record scope.path error
          pure .null

def completeObject (run : ObjectRunner σ) (scope : FieldScope) (object : ObjectType)
    (value : Value) : Completion σ Value := do
  let fields ← run object value scope.path scope.selectionSets
  pure (.object fields)

/-- Completes a value at the object type that the application names for it. -/
def completeAbstract (executor : Executor σ) (run : ObjectRunner σ) (scope : FieldScope)
    (kind abstractName : String) (value : Value) : Completion σ Value :=
  match (executor.resolveType value).filter (· ≠ "") with
  | none => Completion.nullBecause scope.path .undeterminedType
  | some objectName =>
      let impossible := CompletionError.impossibleType objectName kind abstractName
      if executor.schema.isPossibleType abstractName objectName then
        match executor.schema.document.object? objectName with
        | none => Completion.nullBecause scope.path impossible
        | some object => completeObject run scope object value
      else Completion.nullBecause scope.path impossible

def completeNamed (executor : Executor σ) (run : ObjectRunner σ) (scope : FieldScope)
    (name : String) (value : Value) : Completion σ Value :=
  match executor.schema.type? name with
  | some (.scalar _) =>
      match BuiltinScalar.ofName? name with
      | some scalar => pure ((scalar.coerce value).getD .null)
      | none => executor.serializeScalar scope name value
  | some (.enum _) =>
      match value.toEnumName? with
      | some text => pure (.string text)
      | none => pure .null
  | some (.object object) => completeObject run scope object value
  | some (.interface interface) =>
      executor.completeAbstract run scope "interface" interface.name.node value
  | some (.union union) => executor.completeAbstract run scope "union" union.name.node value
  | some (.inputObject _) => Completion.nullBecause scope.path (.notAnOutputType name)
  | none => Completion.nullBecause scope.path (.unknownType name)

/-- Completes a value, without yet saying what becomes of a null or bubble at its type. -/
def completeBare (executor : Executor σ) (run : ObjectRunner σ) (scope : FieldScope) :
    TypeRef → Value → Completion σ Value
  | type, value =>
      if executor.isNullish value then pure .null
      else
        match type with
        | .named name => executor.completeNamed run scope name value
        | .nonNull inner => scope.required (completeBare executor run scope inner value)
        | .list element =>
            match value with
            | .list items => do
                let completed ← Completion.overItems
                  (fun item => scope.guarded element
                    (completeBare executor run scope element item))
                  items
                pure (.list completed)
            | _ => Completion.nullBecause scope.path .notAList

def complete (executor : Executor σ) (run : ObjectRunner σ) (scope : FieldScope)
    (type : TypeRef) (value : Value) : Completion σ Value :=
  scope.guarded type (executor.completeBare run scope type value)

/-- Runs a resolver with its hooks; each failure ends it. -/
def runResolver (resolver : Resolver σ) (context : FieldContext σ) :
    Action σ FieldError Value := do
  let source ←
    match resolver.before with
    | none => pure context.source
    | some before => before context
  let seen := { context with source := source }
  let value ← resolver.resolve seen
  match resolver.after with
  | none => pure value
  | some after => after seen value

/-- The value of a field before completion. -/
def resolveValue (executor : Executor σ) (scope : RequestScope)
    (execute : Request → Action σ RequestError Value) (object : ObjectType) (source : Value)
    (field : Located Field) (definition : FieldDefinition) : Action σ FieldError Value :=
  let name := field.node.name.node
  match executor.resolver? object.name.node name with
  | none => pure ((source.field? name).getD .null)
  | some resolver => do
      let arguments ← ExceptT.adapt (fun error => FieldError.ofMessage error.message)
        (executor.coerceArguments scope.variableValues field.node definition.arguments)
      runResolver resolver
        { schema := executor.schema
          document := scope.document
          objectType := object
          field := field
          arguments := arguments
          source := source
          execute := execute }

def executeGroup (executor : Executor σ) (scope : RequestScope)
    (execute : Request → Action σ RequestError Value) (run : ObjectRunner σ)
    (object : ObjectType) (source : Value) (path : FieldPath) (group : FieldGroup)
    (definition : FieldDefinition) : Completion σ Value := do
  let name := group.first.node.name
  let fieldPath : FieldPath := ⟨path.keys ++ [group.key], name.span.start⟩
  let resolved ← Completion.observe
    (executor.resolveValue scope execute object source group.first definition)
  let value ←
    match resolved with
    | .ok value => pure value
    | .error error => do
        Completion.record fieldPath error
        pure .null
  executor.complete run ⟨object.name.node, name.node, fieldPath, group.selectionSets⟩
    definition.type.node value

end Executor

/-- The field that every object has. -/
def typenameDefinition : FieldDefinition where
  name := .unplaced "__typename"
  description := none
  arguments := []
  type := .unplaced (.nonNull (.named "String"))
  deprecation := .current

/-- The definition of a field that may be selected on an object type. -/
def ObjectType.selectable? (object : ObjectType) (name : String) : Option FieldDefinition :=
  if name = "__typename" then some typenameDefinition else object.field? name

namespace Executor

/-- Executes groups one after another; fields that are not defined are passed over. -/
def executeGroups (executor : Executor σ) (scope : RequestScope)
    (execute : Request → Action σ RequestError Value) (run : ObjectRunner σ)
    (object : ObjectType) (source : Value) (path : FieldPath) :
    List FieldGroup → Completion σ Object
  | [] => pure []
  | group :: rest =>
      match object.selectable? group.first.node.name.node with
      | none => executeGroups executor scope execute run object source path rest
      | some definition => do
          let value ←
            executor.executeGroup scope execute run object source path group definition
          let fields ← executeGroups executor scope execute run object source path rest
          pure ((group.key, value) :: fields)

/-- Executes selection sets on an object, given how objects below it are executed. -/
def executeObject (executor : Executor σ) (scope : RequestScope)
    (execute : Request → Action σ RequestError Value) (run : ObjectRunner σ) : ObjectRunner σ :=
  fun object source path selectionSets =>
    executor.executeGroups scope execute run object source path
      (collectFields executor.schema scope object.name.node selectionSets)

end Executor

end GraphQL
