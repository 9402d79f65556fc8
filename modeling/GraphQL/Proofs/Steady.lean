import GraphQL.Proofs.ActionLaw

/-!
Actions whose results do not depend on the context.

An action may read and change the context of the application and still always end in the same way.
Where the callbacks of an application are like that, so are the coercion of arguments and the
resolving of fields.
-/

namespace GraphQL

variable {σ ε ε' α β : Type}

/-- How an action ends, whatever becomes of the context. -/
def outcome (action : Action σ ε α) (context : σ) : Option (Except ε α) :=
  (action context).map Prod.fst

/-- An action ends in the same way in every context. -/
def Steady (action : Action σ ε α) : Prop :=
  ∀ first second, outcome action first = outcome action second

namespace Steady

theorem pure (value : α) : Steady (Pure.pure value : Action σ ε α) := fun _ _ => rfl

theorem throw (error : ε) : Steady (MonadExcept.throw error : Action σ ε α) := fun _ _ => rfl

theorem unfinished : Steady (GraphQL.unfinished : Action σ ε α) := fun _ _ => rfl

/-- Where the first part always ends in one way, so does the whole, or it goes on in one way. -/
theorem bind {action : Action σ ε α} {next : α → Action σ ε β} (first : Steady action)
    (second : ∀ value, Steady (next value)) : Steady (action >>= next) := by
  intro left right
  have same := first left right
  simp only [outcome] at same ⊢
  rw [Action.bind_apply, Action.bind_apply]
  cases ran : action left with
  | none =>
      rw [ran] at same
      cases ran' : action right with
      | none => rfl
      | some reached => simp [ran'] at same
  | some reached =>
      obtain ⟨result, later⟩ := reached
      rw [ran] at same
      cases ran' : action right with
      | none => simp [ran'] at same
      | some reached' =>
          obtain ⟨result', later'⟩ := reached'
          obtain rfl : result = result' := by simpa [ran'] using same
          cases result with
          | error error => rfl
          | ok value => exact second value later later'

theorem adapt (change : ε → ε') {action : Action σ ε α} (steady : Steady action) :
    Steady (ExceptT.adapt change action : Action σ ε' α) := by
  intro left right
  have mapped (context : σ) : outcome (ExceptT.adapt change action : Action σ ε' α) context =
      (outcome action context).map (Except.mapError change) := by
    rw [outcome, Action.adapt_apply, outcome, Option.map_map, Option.map_map]
    rfl
  rw [mapped, mapped, steady left right]

end Steady

/-- A resolver answers what it is asked in the same way in every context. -/
structure Resolver.Steadfast (resolver : Resolver σ) (asked : FieldContext σ → Prop) : Prop where
  before : ∀ hook ∈ resolver.before, ∀ context, asked context → Steady (hook context)
  resolve : ∀ context, asked context → Steady (resolver.resolve context)
  after : ∀ hook ∈ resolver.after, ∀ context, asked context →
    ∀ value, Steady (hook context value)

structure ScalarHooks.Steadfast (hooks : ScalarHooks σ) : Prop where
  parseValue : ∀ value, Steady (hooks.parseValue value)
  parseLiteral : ∀ literal, Steady (hooks.parseLiteral literal)
  serialize : ∀ value, Steady (hooks.serialize value)

/--
No callback lets its result depend on the context. A result may depend on all that the callback is
given: a resolver on its field and arguments and the source, a hook on what it reads or writes.
-/
structure Executor.Steadfast (executor : Executor σ) : Prop where
  resolvers : ∀ entry ∈ executor.resolvers, entry.resolver.Steadfast executor.Asks
  scalars : ∀ entry ∈ executor.scalars, entry.2.Steadfast

variable {executor : Executor σ}

theorem Executor.Steadfast.hooks (steady : executor.Steadfast) {name : String}
    {hooks : ScalarHooks σ} (found : executor.scalar? name = some hooks) : hooks.Steadfast :=
  steady.scalars _ (lookup_member found)

/-- Steadiness is handed on from the parts of an action to the whole. -/
def steadyLaw : ActionLaw σ where
  holds := Steady
  pure := .pure
  throw := .throw
  unfinished := .unfinished
  bind := .bind
  adapt := .adapt

theorem Executor.Steadfast.governed (steady : executor.Steadfast) :
    steadyLaw.Governs executor where
  resolvers entry registered :=
    have answers := steady.resolvers entry registered
    ⟨answers.before, answers.resolve, answers.after⟩
  parseValue entry registered := (steady.scalars entry registered).parseValue
  parseLiteral entry registered := (steady.scalars entry registered).parseLiteral
  serialize entry registered := (steady.scalars entry registered).serialize

/-- What a field resolves to depends on nothing but the request and the source. -/
theorem Executor.resolve_value_steady (steady : executor.Steadfast) (scope : RequestScope)
    (depth : Nat) (object : ObjectType) (source : Value) (field : Located Field)
    (definition : FieldDefinition) :
    Steady (executor.resolveValue scope (executor.execute depth) object source field
      definition) :=
  steady.governed.resolve_value scope depth object source field definition

end GraphQL
