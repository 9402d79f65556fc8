import GraphQL.Execution.Error

/-!
Executors: a schema with everything that the application brings along.

Callbacks are actions on a context that the application chooses. An action ends with a result or a
failure and leaves the context as it changed it; it has no outcome at all where execution reached
the depth that it was bounded by. Fields without a resolver are looked up in their source value.
-/

namespace GraphQL

/-- A computation on a state, which may fail, or reach the bound of the execution it is part of. -/
abbrev Action (σ ε α : Type) := ExceptT ε (StateT σ Option) α

/-- What a client sends. -/
structure Request where
  source : String
  variableValues : Object
  operationName : Option String

/-- What a resolver gets to see. -/
structure FieldContext (σ : Type) where
  schema : Schema
  document : Document
  objectType : ObjectType
  field : Located Field
  arguments : Object
  source : Value
  /-- Runs a request of its own on the same executor and context. -/
  execute : Request → Action σ RequestError Value

/-- The value of an argument; arguments that count as absent have none. -/
def FieldContext.argument? {σ : Type} (context : FieldContext σ) (name : String) : Option Value :=
  context.arguments.get? name

/-- How a field gets its value: `before` replaces the source, `after` replaces the value. -/
structure Resolver (σ : Type) where
  before : Option (FieldContext σ → Action σ FieldError Value)
  resolve : FieldContext σ → Action σ FieldError Value
  after : Option (FieldContext σ → Value → Action σ FieldError Value)

/-- A resolver that succeeds without touching the context. -/
def Resolver.ofFunction {σ : Type} (f : FieldContext σ → Value) : Resolver σ where
  before := none
  resolve := fun context => pure (f context)
  after := none

/-- Reading and writing of a scalar that the application defines. -/
structure ScalarHooks (σ : Type) where
  parseValue : Value → Action σ FieldError Value
  parseLiteral : Literal → Action σ FieldError Value
  serialize : Value → Action σ FieldError Value

/-- Resolvers under keys of the form `Type/field`; later ones take the place of earlier ones. -/
abbrev Resolvers (σ : Type) := List (String × Resolver σ)

structure ResolverEntry (σ : Type) where
  typeName : String
  fieldName : String
  resolver : Resolver σ

structure Executor (σ : Type) where
  schema : Schema
  /-- The latest entry first. -/
  resolvers : List (ResolverEntry σ)
  /-- The latest entry first. -/
  scalars : List (String × ScalarHooks σ)
  resolveType : Value → Option String
  isNullish : Value → Bool
  renderError : ExecutionError → String → Value

/-- Splits a key at its first slash. -/
def splitKey? (key : String) : Option (String × String) :=
  let typeName := key.toList.takeWhile (· != '/')
  match key.toList.dropWhile (· != '/') with
  | [] => none
  | _ :: fieldName => some (String.ofList typeName, String.ofList fieldName)

/-- The type and field that a key names. -/
def resolverKey? (key : String) : Option (String × String) :=
  match splitKey? key with
  | none => none
  | some (typeName, fieldName) =>
      if Name.isValid typeName && Name.isValid fieldName then some (typeName, fieldName) else none

/-- Puts resolvers in front of earlier entries, unless a key names no field. -/
def addResolvers {σ : Type} (entries : List (ResolverEntry σ)) :
    Resolvers σ → Except SchemaError (List (ResolverEntry σ))
  | [] => .ok entries
  | (key, resolver) :: rest =>
      match resolverKey? key with
      | none => .error (.invalidResolverKey key)
      | some (typeName, fieldName) => addResolvers (⟨typeName, fieldName, resolver⟩ :: entries) rest

/-- The policy that the empty string counts as absent too. -/
def isNullOrEmpty (value : Value) : Bool :=
  value.isNull || value.asString? == some ""

namespace Executor

variable {σ : Type}

def resolver? (executor : Executor σ) (typeName fieldName : String) : Option (Resolver σ) :=
  (executor.resolvers.find? fun entry =>
    entry.fieldName == fieldName && entry.typeName == typeName).map (·.resolver)

def scalar? (executor : Executor σ) (name : String) : Option (ScalarHooks σ) :=
  executor.scalars.lookup name

/-- Sets how a scalar is read and written. -/
def withScalar (executor : Executor σ) (name : String) (hooks : ScalarHooks σ) : Executor σ :=
  { executor with scalars := (name, hooks) :: executor.scalars }

end Executor

end GraphQL
