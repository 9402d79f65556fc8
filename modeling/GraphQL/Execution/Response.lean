import GraphQL.Execution.Completion
import GraphQL.Introspection.Resolvers
import GraphQL.Json.Reading
import GraphQL.Schema.Build

/-!
Executing requests.

A request is read, one of its operations is picked, its variables are made to fit, and its selection
set is executed on the root type. The response holds the data and, if any were recorded, the errors.
A request that does not say what to execute gets a response with errors alone. Objects, and requests
that resolvers make, may nest up to a depth that the caller chooses.
-/

namespace GraphQL

variable {σ : Type}

/-- The operation of a name; without a name, or with an empty one, the only operation. -/
def Document.selectOperation (document : Document) (name : Option String) :
    Except RequestError (Located Operation) :=
  match name.filter (· ≠ "") with
  | some chosen =>
      match document.operation? chosen with
      | some operation => .ok operation
      | none => .error (.unknownOperation chosen)
  | none =>
      match document.operations with
      | [] => .error .noOperation
      | [operation] => .ok operation
      | _ :: _ :: _ => .error .severalOperations

/-- Where errors of variables are reported: at the operation's name, or where it starts. -/
def operationPlace (operation : Located Operation) : Position :=
  match operation.node.name with
  | some name => name.span.start
  | none => operation.span.start

namespace Executor

/-- The object type that operations of a kind start from. -/
def rootType? (executor : Executor σ) : OperationKind → Option ObjectType
  | .query => executor.schema.queryType?
  | .mutation => executor.schema.mutationType?

/-- The values of variables in declared order; each failure is recorded and leaves one out. -/
def coerceVariables (executor : Executor σ) (inputs : Object) (place : Position) :
    List VariableDefinition → Completion σ Object
  | [] => pure []
  | definition :: rest => do
      match ← Completion.observe (executor.coerceVariable inputs definition) with
      | .error error => do
          Completion.record ⟨[], place⟩ (.ofMessage error.message)
          coerceVariables executor inputs place rest
      | .ok none => coerceVariables executor inputs place rest
      | .ok (some value) => do
          let others ← coerceVariables executor inputs place rest
          pure ((definition.name.node, value) :: others)

/-- The data of an operation whose variables have values; null where a bubble reaches the root. -/
def rootData (run : ObjectRunner σ) (operation : Located Operation) (root : ObjectType) :
    Completion σ Value :=
  Completion.absorb do
    let fields ← run root (.object []) ⟨[], operation.span.start⟩ [operation.node.selections]
    pure (.object fields)

/-- The data of an operation, whose variables are made to fit first. -/
def executeOperation (executor : Executor σ) (run : RequestScope → ObjectRunner σ)
    (document : Document) (operation : Located Operation) (root : ObjectType)
    (inputs : Object) : Completion σ Value := do
  let definitions := (operation.node.variableDefinitions.map (·.node)).getD []
  let variableValues ← executor.coerceVariables inputs (operationPlace operation) definitions
  rootData (run ⟨document, variableValues⟩) operation root

/-- The response to an operation: its data, then the rendered errors if there are any. -/
def responseOf (executor : Executor σ) (source : String) (data : Value)
    (errors : List ExecutionError) : Value :=
  .object
    (("data", data) ::
      (if errors.isEmpty then []
        else [("errors", .list (errors.map fun error => executor.renderError error source))]))

/-- The response to a request, given how objects are executed. -/
def respond (executor : Executor σ) (run : RequestScope → ObjectRunner σ) (request : Request) :
    Action σ RequestError Value :=
  match Document.ofSource request.source with
  | .error error => throw (.parse error)
  | .ok document =>
      match document.selectOperation request.operationName with
      | .error error => pure error.response
      | .ok operation =>
          match executor.rootType? operation.node.kind with
          | none => pure RequestError.mutationsNotSupported.response
          | some root => fun context =>
              match executor.executeOperation run document operation root request.variableValues
                  ⟨context, []⟩ with
              | none => none
              | some (outcome, journal) =>
                  let data :=
                    match outcome with
                    | .ok value => value
                    | .error .bubble => .null
                  some (.ok (executor.responseOf request.source data journal.errors),
                    journal.context)

/-- Executes objects that nest up to a depth. -/
def runWithin (executor : Executor σ) : Nat → RequestScope → ObjectRunner σ
  | 0, _, _, _, _, _ => unfinished
  | depth + 1, scope, object, source, path, selectionSets =>
      executor.executeObject scope
        (executor.respond fun inner object source path selectionSets =>
          runWithin executor depth inner object source path selectionSets)
        (fun object source path selectionSets =>
          runWithin executor depth scope object source path selectionSets)
        object source path selectionSets

/-- Executes a request, up to a depth of nested objects. -/
def execute (executor : Executor σ) (depth : Nat) (request : Request) :
    Action σ RequestError Value :=
  executor.respond (executor.runWithin depth) request

/-- Executes a request whose variables are JSON; anything but an object gives no variables. -/
def executeJson (executor : Executor σ) (depth : Nat) (source : String) (values : Json)
    (operationName : Option String) : Action σ RequestError Json := do
  let inputs := ((Value.ofJson values).asObject?).getD []
  let response ← executor.execute depth ⟨source, inputs, operationName⟩
  pure response.toSortedJson

/-- Everything there is to know about the schema. -/
def introspect (executor : Executor σ) (depth : Nat) : Action σ RequestError Value := do
  let response ← executor.execute depth
    ⟨Introspection.requestText, [], some Introspection.requestName⟩
  pure ((response.field? "data").getD .null)

/-- Everything there is to know about the schema, as indented JSON text. -/
def printSchema (executor : Executor σ) (depth : Nat) : Action σ RequestError String := do
  let data ← executor.introspect depth
  pure data.toSortedJson.pretty

/--
Builds an executor from a schema source, the names of the root types and resolvers. Introspection
and type names have resolvers of their own, which later ones may replace.
-/
def ofSource (source queryName : String) (mutationName : Option String)
    (resolvers : Resolvers σ) : Except RequestError (Executor σ) :=
  match Schema.ofSource source queryName mutationName with
  | .error error => .error (.schema error)
  | .ok schema =>
      match addResolvers [] (Introspection.resolvers schema ++ resolvers) with
      | .error error => .error (.schema error)
      | .ok entries =>
          .ok
            { schema := schema
              resolvers := entries
              scalars := []
              resolveType := fun _ => none
              isNullish := Value.isNull
              renderError := fun error _ => error.render }

end Executor

end GraphQL
