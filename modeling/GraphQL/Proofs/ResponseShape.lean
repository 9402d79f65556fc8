import GraphQL.Proofs.ErrorLog
import GraphQL.Proofs.SchemaClosure

/-!
The two shapes of a response.

A text that cannot be read gets no response. A request that does not say what to execute gets a
response with one error alone, and nothing of the application is run for it. Every other response
starts with its data, followed by the recorded errors if there are any; null data has an error.
-/

namespace GraphQL

variable {σ : Type}

/-- The operation that a request names; without a name, or with an empty one, the only operation. -/
inductive Document.Chooses (document : Document) : Option String → Located Operation → Prop where
  | named {name operation} (given : name ≠ "") (found : document.operation? name = some operation) :
      document.Chooses (some name) operation
  | alone {name operation} (anonymous : name = none ∨ name = some "")
      (single : document.operations = [operation]) : document.Chooses name operation

/-- A request does not say what to execute. -/
inductive NothingToExecute (schema : Schema) (document : Document) : Option String → Prop where
  | undefined {name} (given : name ≠ "")
      (missing : ∀ operation ∈ document.operations,
        operation.node.name.map (·.node) ≠ some name) :
      NothingToExecute schema document (some name)
  | ambiguous {name} (anonymous : name = none ∨ name = some "")
      (count : document.operations.length ≠ 1) : NothingToExecute schema document name
  | rootless {name operation} (chosen : document.Chooses name operation)
      (mutation : operation.node.kind = .mutation) (unconfigured : schema.mutationName = none) :
      NothingToExecute schema document name

namespace Document

variable {document : Document} {name : Option String}

theorem chooses_functional {first second : Located Operation}
    (left : document.Chooses name first) (right : document.Chooses name second) :
    first = second := by
  cases left with
  | named given found =>
      cases right with
      | named _ found' => exact Option.some.inj (found.symm.trans found')
      | alone anonymous _ => simp [given] at anonymous
  | alone anonymous single =>
      cases right with
      | named given _ => simp [given] at anonymous
      | alone _ single' => simpa using single.symm.trans single'

theorem select_chosen {operation : Located Operation}
    (chosen : document.Chooses name operation) : document.selectOperation name = .ok operation := by
  cases chosen with
  | named given found => simp [selectOperation, Option.filter, given, found]
  | alone anonymous single =>
      rcases anonymous with rfl | rfl
      · simp [selectOperation, single]
      · simp [selectOperation, Option.filter, single]

/-- Selecting an operation by its index or by counting finds the one that is chosen. -/
theorem select_operation_cases (document : Document) (name : Option String) :
    (∃ operation, document.selectOperation name = .ok operation ∧
        document.Chooses name operation) ∨
      ∃ error, document.selectOperation name = .error error ∧
        ∀ schema, NothingToExecute schema document name := by
  rw [selectOperation]
  cases filtered : name.filter (· ≠ "") with
  | some chosen =>
      obtain ⟨rfl, given⟩ := Option.filter_eq_some_iff.mp filtered
      cases found : document.operation? chosen with
      | some operation =>
          exact .inl ⟨operation, by simp [found], .named (of_decide_eq_true given) found⟩
      | none =>
          refine .inr ⟨.unknownOperation chosen, by simp [found],
            fun schema => .undefined (of_decide_eq_true given) ?_⟩
          intro operation member same
          have absent := List.find?_eq_none.mp found operation member
          simp [same] at absent
  | none =>
      have anonymous : name = none ∨ name = some "" := by
        cases name with
        | none => exact .inl rfl
        | some text => exact .inr (by simpa [Option.filter] using filtered)
      match listed : document.operations with
      | [] =>
          exact .inr ⟨_, rfl, fun schema => .ambiguous anonymous (by simp [listed])⟩
      | [operation] => exact .inl ⟨operation, rfl, .alone anonymous listed⟩
      | _ :: _ :: _ =>
          exact .inr ⟨_, rfl, fun schema => .ambiguous anonymous (by simp [listed])⟩

end Document

/-- The response that holds nothing but one message. -/
def messageAlone (message : String) : Value :=
  .object [("errors", .list [.object [("message", .string message)]])]

/-- The response that holds data, and the rendered errors if there are any. -/
def dataFirst (data : Value) (rendered : List Value) : Value :=
  .object (("data", data) :: if rendered = [] then [] else [("errors", .list rendered)])

theorem response_of_data_first (executor : Executor σ) (source : String) (data : Value)
    (errors : List ExecutionError) :
    executor.responseOf source data errors =
      dataFirst data (errors.map fun error => executor.renderError error source) := by
  cases errors <;> rfl

namespace Executor

variable {executor : Executor σ}

/-- The data is null only where a bubble reached the root, and every bubble was recorded. -/
theorem null_data_recorded {depth : Nat} {document : Document} {operation : Located Operation}
    {root : ObjectType} {inputs : Object} {context : σ} {journal : Journal σ}
    {result : Except Bubble Value}
    (finished : executor.executeOperation (executor.runWithin depth) document operation root inputs
      ⟨context, []⟩ = some (result, journal)) :
    ∃ data, result = .ok data ∧ (data = .null → journal.errors ≠ []) := by
  rw [executeOperation] at finished
  rcases Action.bind_finished finished with ⟨values, middle, -, rest⟩ | ⟨_, rfl, ran⟩
  · obtain ⟨outcome, rfl, runs⟩ := root_data_runs rest
    refine ⟨_, rfl, fun null => ?_⟩
    obtain ⟨added, gained, recorded⟩ := runs.gains
    rw [gained]
    cases outcome with
    | error rising =>
        cases rising
        simp [recorded rfl]
    | ok value =>
        obtain ⟨fields, rfl, -⟩ := runs.groups_object
        cases null
  · obtain ⟨values, added, impossible, -⟩ := coerce_variables_gains ran
    cases impossible

/-- How an operation is answered: not at all where running it reached the bound of its depth. -/
inductive AnswersOperation (executor : Executor σ) (depth : Nat) (request : Request)
    (document : Document) (operation : Located Operation) (root : ObjectType) (context : σ) :
    Prop where
  | unfinished
      (bounded : executor.executeOperation (executor.runWithin depth) document operation root
        request.variableValues ⟨context, []⟩ = none)
      (silent : executor.execute depth request context = none)
  | finished (data : Value) (journal : Journal σ)
      (ran : executor.executeOperation (executor.runWithin depth) document operation root
        request.variableValues ⟨context, []⟩ = some (.ok data, journal))
      (answered : executor.execute depth request context =
        some (.ok (dataFirst data
          (journal.errors.map fun error => executor.renderError error request.source)),
          journal.context))
      (recorded : data = .null → journal.errors ≠ [])

/-- A request that says what to execute is answered with the data of its operation first. -/
theorem execute_selected {request : Request} {document : Document}
    {operation : Located Operation} {root : ObjectType}
    (read : Document.ofSource request.source = .ok document)
    (selected : document.selectOperation request.operationName = .ok operation)
    (rooted : executor.rootType? operation.node.kind = some root) (depth : Nat) (context : σ) :
    executor.AnswersOperation depth request document operation root context := by
  cases ran : executor.executeOperation (executor.runWithin depth) document operation root
      request.variableValues ⟨context, []⟩ with
  | none =>
      refine .unfinished ran ?_
      simp only [execute, respond, read, selected, rooted, ran]
  | some outcome =>
      obtain ⟨reached, journal⟩ := outcome
      obtain ⟨data, rfl, recorded⟩ := null_data_recorded ran
      refine .finished data journal ran ?_ recorded
      simp only [execute, respond, read, selected, rooted, ran, response_of_data_first]

/-- What a request may be answered with: one message, or the data and errors of its operation. -/
inductive AnswersRequest (executor : Executor σ) (depth : Nat) (request : Request) (context : σ) :
    Value → Prop where
  | message (text : String)
      (unexecuted : ∀ document operation, Document.ofSource request.source = .ok document →
        document.Chooses request.operationName operation →
          executor.rootType? operation.node.kind = none) :
      AnswersRequest executor depth request context (messageAlone text)
  | data {document operation root data journal}
      (read : Document.ofSource request.source = .ok document)
      (chosen : document.Chooses request.operationName operation)
      (rooted : executor.rootType? operation.node.kind = some root)
      (ran : executor.executeOperation (executor.runWithin depth) document operation root
        request.variableValues ⟨context, []⟩ = some (.ok data, journal)) :
      AnswersRequest executor depth request context
        (dataFirst data
          (journal.errors.map fun error => executor.renderError error request.source))

theorem execute_answers {depth : Nat} {request : Request} {context later : σ} {response : Value}
    (finished : executor.execute depth request context = some (.ok response, later)) :
    executor.AnswersRequest depth request context response := by
  cases read : Document.ofSource request.source with
  | error error =>
      simp only [execute, respond, read] at finished
      cases finished
  | ok document =>
      rcases document.select_operation_cases request.operationName with
        ⟨operation, selected, chosen⟩ | ⟨error, refused, -⟩
      · cases rooted : executor.rootType? operation.node.kind with
        | none =>
            simp only [execute, respond, read, selected, rooted] at finished
            cases finished
            apply AnswersRequest.message
            intro other operation' read' chosen'
            cases read.symm.trans read'
            rw [← Document.chooses_functional chosen chosen']
            exact rooted
        | some root =>
            cases execute_selected read selected rooted depth context with
            | unfinished _ silent =>
                rw [silent] at finished
                cases finished
            | finished data journal ran answered _ =>
                rw [answered] at finished
                cases finished
                exact .data read chosen rooted ran
      · simp only [execute, respond, read, refused] at finished
        cases finished
        apply AnswersRequest.message
        intro other operation read' chosen
        cases read.symm.trans read'
        rw [Document.select_chosen chosen] at refused
        cases refused

end Executor

end GraphQL
