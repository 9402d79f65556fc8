import GraphQL.Proofs.ErrorLog
import GraphQL.Proofs.HookProtocol

/-!
Executions step by step.

A trace lists what happens in the course of an execution: objects are entered, their fields get
values, values are settled, and nulls that may not stand rise through slots until one of these
absorbs them. Every run that finishes has a trace, and the steps of a trace account for all that is
done to the journal.
-/

namespace GraphQL

variable {σ : Type}

/-- One way down from a slot: to the entry of a response key, or to an item of a list. -/
inductive Segment where
  | key (name : String)
  | index (n : Nat)
  deriving DecidableEq, Repr

/-- The way from the root to a part of the response. -/
abbrev Place := List Segment

/-- A place where values are completed at a type, for a field. -/
structure Slot where
  place : Place
  field : FieldScope
  type : TypeRef

inductive Step (σ : Type) where
  /-- An object is entered, to be executed as the groups say. -/
  | object (place : Place) (type : ObjectType) (source : Value) (groups : List FieldGroup)
  /-- A field of the object at a place gets its value. -/
  | field (place : Place) (path : FieldPath) (attempt : Attempt σ)
  /-- A value is completed that has no objects or items below it. -/
  | settled (slot : Slot) (value : Value)
  /-- A null that may not stand is recorded. -/
  | violated (slot : Slot)
  /-- A slot where null may not stand passes a bubble on. -/
  | passed (slot : Slot)
  /-- A slot where null may stand becomes null in place of a bubble. -/
  | absorbed (slot : Slot)

/-- What is carried out, and where; items are counted from the start of their list. -/
inductive Task where
  | complete (slot : Slot) (value : Value)
  | bare (slot : Slot) (value : Value)
  | items (place : Place) (index : Nat) (field : FieldScope) (element : TypeRef)
      (values : List Value)
  | groups (place : Place) (object : ObjectType) (source : Value) (path : FieldPath)
      (groups : List FieldGroup)

def Task.work : Task → Work
  | .complete slot value => .complete slot.field slot.type value
  | .bare slot value => .bare slot.field slot.type value
  | .items _ _ field element values => .items field element values
  | .groups _ object source path asked => .groups object source path asked

namespace Task

variable {task : Task} {field : FieldScope} {type : TypeRef} {value : Value}

theorem of_complete (same : task.work = .complete field type value) :
    ∃ place, task = .complete ⟨place, field, type⟩ value := by
  cases task with
  | complete slot value =>
      cases same
      exact ⟨slot.place, rfl⟩
  | _ => cases same

theorem of_bare (same : task.work = .bare field type value) :
    ∃ place, task = .bare ⟨place, field, type⟩ value := by
  cases task with
  | bare slot value =>
      cases same
      exact ⟨slot.place, rfl⟩
  | _ => cases same

theorem of_items {values : List Value} (same : task.work = .items field type values) :
    ∃ place index, task = .items place index field type values := by
  cases task with
  | items place index field element values =>
      cases same
      exact ⟨place, index, rfl⟩
  | _ => cases same

theorem of_groups {object : ObjectType} {path : FieldPath} {groups : List FieldGroup}
    (same : task.work = .groups object value path groups) :
    ∃ place, task = .groups place object value path groups := by
  cases task with
  | groups place object source path groups =>
      cases same
      exact ⟨place, rfl⟩
  | _ => cases same

end Task

/-- The work as it is run, up to a depth of nested objects. -/
def Executor.carryOut (executor : Executor σ) (depth : Nat) (scope : RequestScope) :
    Work → Completion σ Value
  | .complete field type value =>
      executor.complete (executor.runWithin depth scope) field type value
  | .bare field type value =>
      executor.completeBare (executor.runWithin depth scope) field type value
  | .items field element values => do
      let completed ← Completion.overItems
        (executor.complete (executor.runWithin depth scope) field element) values
      pure (.list completed)
  | .groups object source path groups => do
      let fields ← executor.executeGroups scope (executor.execute depth)
        (executor.runWithin depth scope) object source path groups
      pure (.object fields)

/-- The journal once a field has got its value: a failure is recorded at the field. -/
def Attempt.leave (attempt : Attempt σ) (path : FieldPath) (journal : Journal σ) : Journal σ :=
  match attempt.result with
  | .ok _ => journal.resume attempt.finish
  | .error error =>
      (journal.resume attempt.finish).note (attempt.group.scope attempt.object path).path error

/-- What becomes of a bubble where null may stand. -/
def absorption (slot : Slot) : Except Bubble Value → List (Step σ)
  | .ok _ => []
  | .error .bubble => [.absorbed slot]

/-- What becomes of nulls and bubbles where null may not stand. -/
def demanded (slot : Slot) : Except Bubble Value → List (Step σ)
  | .ok value => if value.isNull then [.violated slot] else []
  | .error .bubble => [.passed slot]

/-- A list with one more item in front. -/
def Value.withItem (first : Value) : Value → Value
  | .list others => .list (first :: others)
  | other => other

/-- An object with one more entry in front. -/
def Value.withEntry (key : String) (first : Value) : Value → Value
  | .object others => .object ((key, first) :: others)
  | other => other

/-- How work takes one journal to another, step by step. -/
inductive Traced (executor : Executor σ) (scope : RequestScope) :
    Task → Journal σ → List (Step σ) → Except Bubble Value → Journal σ → Prop where
  | optional {slot value journal steps result later}
      (optional : slot.type.isNonNull = false)
      (inner : Traced executor scope (.bare slot value) journal steps result later) :
      Traced executor scope (.complete slot value) journal
        (steps ++ absorption slot result) (.ok (orNull result)) later
  | required {place field type value journal steps result later}
      (inner : Traced executor scope (.bare ⟨place, field, type⟩ value) journal steps result
        later) :
      Traced executor scope (.complete ⟨place, field, .nonNull type⟩ value) journal
        (steps ++ demanded ⟨place, field, .nonNull type⟩ result)
        (field.demand (result, later)).1 (field.demand (result, later)).2
  | absent {slot value journal} (nullish : executor.isNullish value = true) :
      Traced executor scope (.bare slot value) journal [] (.ok .null) journal
  | settled {slot value journal result later} (present : executor.isNullish value = false)
      (settles : Settles executor slot.field slot.type value journal result later) :
      Traced executor scope (.bare slot value) journal [.settled slot value] (.ok result)
        later
  | nested {place field type value journal steps result later}
      (present : executor.isNullish value = false)
      (inner : Traced executor scope (.complete ⟨place, field, .nonNull type⟩ value) journal steps
        result later) :
      Traced executor scope (.bare ⟨place, field, .nonNull type⟩ value) journal steps result later
  | list {place field element values journal steps result later}
      (present : executor.isNullish (.list values) = false)
      (inner : Traced executor scope (.items place 0 field element values) journal steps result
        later) :
      Traced executor scope (.bare ⟨place, field, .list element⟩ (.list values)) journal steps
        result later
  | object {place field name value object journal steps result later}
      (present : executor.isNullish value = false)
      (executed : ObjectFor executor value name object)
      (inner : Traced executor scope (.groups place object value field.path
        (executor.groupsBelow scope object field.selectionSets)) journal steps result later) :
      Traced executor scope (.bare ⟨place, field, .named name⟩ value) journal
        (.object place object value (executor.groupsBelow scope object field.selectionSets) ::
          steps)
        result later
  | noItems {place index field element journal} :
      Traced executor scope (.items place index field element []) journal [] (.ok (.list []))
        journal
  | item {place index field element value values journal steps first middle more result later}
      (head : Traced executor scope (.complete ⟨place ++ [.index index], field, element⟩ value)
        journal steps (.ok first) middle)
      (tail : Traced executor scope (.items place (index + 1) field element values) middle more
        result later) :
      Traced executor scope (.items place index field element (value :: values)) journal
        (steps ++ more) (result.map (Value.withItem first)) later
  | itemBubbled {place index field element value values journal steps later}
      (head : Traced executor scope (.complete ⟨place ++ [.index index], field, element⟩ value)
        journal steps (.error .bubble) later) :
      Traced executor scope (.items place index field element (value :: values)) journal steps
        (.error .bubble) later
  | noGroups {place object source path journal} :
      Traced executor scope (.groups place object source path []) journal [] (.ok (.object []))
        journal
  | undefinedField {place object source path group groups journal steps result later}
      (unknown : object.selectable? group.first.node.name.node = none)
      (tail : Traced executor scope (.groups place object source path groups) journal steps result
        later) :
      Traced executor scope (.groups place object source path (group :: groups)) journal steps
        result later
  | field {place path groups journal steps first middle more result later depth}
      {attempt : Attempt σ}
      (known : attempt.object.selectable? attempt.group.first.node.name.node =
        some attempt.definition)
      (made : attempt.Made executor scope (executor.execute depth))
      (started : attempt.start = journal.context)
      (head : Traced executor scope
        (.complete ⟨place ++ [.key attempt.group.key], attempt.group.scope attempt.object path,
          attempt.definition.type.node⟩ (orNull attempt.result))
        (attempt.leave path journal) steps (.ok first) middle)
      (tail : Traced executor scope (.groups place attempt.object attempt.source path groups)
        middle more result later) :
      Traced executor scope
        (.groups place attempt.object attempt.source path (attempt.group :: groups)) journal
        (.field place path attempt :: (steps ++ more))
        (result.map (Value.withEntry attempt.group.key first)) later
  | fieldBubbled {place path groups journal steps later depth} {attempt : Attempt σ}
      (known : attempt.object.selectable? attempt.group.first.node.name.node =
        some attempt.definition)
      (made : attempt.Made executor scope (executor.execute depth))
      (started : attempt.start = journal.context)
      (head : Traced executor scope
        (.complete ⟨place ++ [.key attempt.group.key], attempt.group.scope attempt.object path,
          attempt.definition.type.node⟩ (orNull attempt.result))
        (attempt.leave path journal) steps (.error .bubble) later) :
      Traced executor scope
        (.groups place attempt.object attempt.source path (attempt.group :: groups)) journal
        (.field place path attempt :: steps) (.error .bubble) later

section Runs

variable {executor : Executor σ} {scope : RequestScope}

/-- What is carried out is derived from the rules. -/
theorem carry_out_runs {depth : Nat} {work : Work} {journal later : Journal σ}
    {result : Except Bubble Value}
    (finished : executor.carryOut depth scope work journal = some (result, later)) :
    Runs executor scope work journal result later := by
  have derived := executor.run_within_runs depth scope
  cases work with
  | complete field type value => exact (Executor.complete_runs derived field type).2 _ _ _ _ finished
  | bare field type value => exact (Executor.complete_runs derived field type).1 _ _ _ _ finished
  | items field element values =>
      have each := (Executor.complete_runs derived field element).2
      rcases Action.bind_finished finished with ⟨completed, middle, ran, done⟩ | ⟨_, rfl, ran⟩
      · cases done
        exact Executor.over_items_runs each ran
      · exact Executor.over_items_runs each ran
  | groups object source path groups =>
      rcases Action.bind_finished finished with ⟨fields, middle, ran, done⟩ | ⟨_, rfl, ran⟩
      · cases done
        exact Executor.execute_groups_runs derived ran
      · exact Executor.execute_groups_runs derived ran

/-- A field that gets its value is attempted. -/
theorem Resolves.attempt {object : ObjectType} {source value : Value} {path : FieldPath}
    {group : FieldGroup} {definition : FieldDefinition} {journal later : Journal σ}
    (resolves : Resolves executor scope object source path group definition journal value later) :
    ∃ depth calls result finish,
      Attempt.Made executor scope (executor.execute depth)
        ⟨object, source, group, definition, journal.context, calls, result, finish⟩ ∧
      value = orNull result ∧
      later = Attempt.leave
        ⟨object, source, group, definition, journal.context, calls, result, finish⟩ path
        journal := by
  cases resolves with
  | @returned depth _ _ _ ran =>
      obtain ⟨calls, made⟩ := resolve_value_iff.mp ran
      exact ⟨depth, calls, _, _, made, rfl, rfl⟩
  | @failed depth _ _ _ ran =>
      obtain ⟨calls, made⟩ := resolve_value_iff.mp ran
      exact ⟨depth, calls, _, _, made, rfl, rfl⟩

/-- Whatever runs has a trace. -/
theorem Runs.traced {work : Work} {journal later : Journal σ} {result : Except Bubble Value}
    (runs : Runs executor scope work journal result later) (task : Task) (same : task.work = work) :
    ∃ steps, Traced executor scope task journal steps result later := by
  induction runs generalizing task with
  | nullable optional _ ih =>
      obtain ⟨place, rfl⟩ := Task.of_complete same
      obtain ⟨steps, inner⟩ := ih (.bare ⟨place, _, _⟩ _) rfl
      exact ⟨_, .optional optional inner⟩
  | absorbed optional _ ih =>
      obtain ⟨place, rfl⟩ := Task.of_complete same
      obtain ⟨steps, inner⟩ := ih (.bare ⟨place, _, _⟩ _) rfl
      exact ⟨_, .optional optional inner⟩
  | @present field type value journal result later nonNull _ ih =>
      obtain ⟨place, rfl⟩ := Task.of_complete same
      obtain ⟨steps, inner⟩ := ih (.bare ⟨place, _, _⟩ _) rfl
      have kept : field.demand (.ok result, later) = (.ok result, later) := by
        simp [FieldScope.demand, nonNull]
      have traced := Traced.required inner
      rw [kept] at traced
      exact ⟨_, traced⟩
  | violated _ ih =>
      obtain ⟨place, rfl⟩ := Task.of_complete same
      obtain ⟨steps, inner⟩ := ih (.bare ⟨place, _, _⟩ _) rfl
      exact ⟨_, .required inner⟩
  | passed _ ih =>
      obtain ⟨place, rfl⟩ := Task.of_complete same
      obtain ⟨steps, inner⟩ := ih (.bare ⟨place, _, _⟩ _) rfl
      exact ⟨_, .required inner⟩
  | absent nullish =>
      obtain ⟨place, rfl⟩ := Task.of_bare same
      exact ⟨_, .absent nullish⟩
  | settled present settles =>
      obtain ⟨place, rfl⟩ := Task.of_bare same
      exact ⟨_, .settled present settles⟩
  | nested present _ ih =>
      obtain ⟨place, rfl⟩ := Task.of_bare same
      obtain ⟨steps, inner⟩ := ih (.complete ⟨place, _, _⟩ _) rfl
      exact ⟨_, .nested present inner⟩
  | list present _ ih =>
      obtain ⟨place, rfl⟩ := Task.of_bare same
      obtain ⟨steps, inner⟩ := ih (.items place 0 _ _ _) rfl
      exact ⟨_, .list present inner⟩
  | object present executed _ ih =>
      obtain ⟨place, rfl⟩ := Task.of_bare same
      obtain ⟨steps, inner⟩ := ih (.groups place _ _ _ _) rfl
      exact ⟨_, .object present executed inner⟩
  | noItems =>
      obtain ⟨place, index, rfl⟩ := Task.of_items same
      exact ⟨_, .noItems⟩
  | item _ _ head tail =>
      obtain ⟨place, index, rfl⟩ := Task.of_items same
      obtain ⟨steps, first⟩ := head (.complete ⟨place ++ [.index index], _, _⟩ _) rfl
      obtain ⟨more, rest⟩ := tail (.items place (index + 1) _ _ _) rfl
      exact ⟨_, .item first rest⟩
  | itemBubbled _ ih =>
      obtain ⟨place, index, rfl⟩ := Task.of_items same
      obtain ⟨steps, first⟩ := ih (.complete ⟨place ++ [.index index], _, _⟩ _) rfl
      exact ⟨_, .itemBubbled first⟩
  | itemsBubbled _ _ head tail =>
      obtain ⟨place, index, rfl⟩ := Task.of_items same
      obtain ⟨steps, first⟩ := head (.complete ⟨place ++ [.index index], _, _⟩ _) rfl
      obtain ⟨more, rest⟩ := tail (.items place (index + 1) _ _ _) rfl
      exact ⟨_, .item first rest⟩
  | noGroups =>
      obtain ⟨place, rfl⟩ := Task.of_groups same
      exact ⟨_, .noGroups⟩
  | undefinedField unknown _ ih =>
      obtain ⟨place, rfl⟩ := Task.of_groups same
      obtain ⟨steps, rest⟩ := ih (.groups place _ _ _ _) rfl
      exact ⟨_, .undefinedField unknown rest⟩
  | @field _ _ _ group _ _ _ _ _ _ _ _ _ known resolves _ _ head tail =>
      obtain ⟨place, rfl⟩ := Task.of_groups same
      obtain ⟨depth, calls, result, finish, made, rfl, rfl⟩ := resolves.attempt
      obtain ⟨steps, first⟩ := head (.complete ⟨place ++ [.key group.key], _, _⟩ _) rfl
      obtain ⟨more, rest⟩ := tail (.groups place _ _ _ _) rfl
      exact ⟨_, .field known made rfl first rest⟩
  | @fieldBubbled _ _ _ group _ _ _ _ _ _ known resolves _ ih =>
      obtain ⟨place, rfl⟩ := Task.of_groups same
      obtain ⟨depth, calls, result, finish, made, rfl, rfl⟩ := resolves.attempt
      obtain ⟨steps, first⟩ := ih (.complete ⟨place ++ [.key group.key], _, _⟩ _) rfl
      exact ⟨_, .fieldBubbled known made rfl first⟩
  | @fieldsBubbled _ _ _ group _ _ _ _ _ _ _ _ known resolves _ _ head tail =>
      obtain ⟨place, rfl⟩ := Task.of_groups same
      obtain ⟨depth, calls, result, finish, made, rfl, rfl⟩ := resolves.attempt
      obtain ⟨steps, first⟩ := head (.complete ⟨place ++ [.key group.key], _, _⟩ _) rfl
      obtain ⟨more, rest⟩ := tail (.groups place _ _ _ _) rfl
      exact ⟨_, .field known made rfl first rest⟩

/-- Whatever is carried out has a trace. -/
theorem carry_out_traced {depth : Nat} {task : Task} {journal later : Journal σ}
    {result : Except Bubble Value}
    (finished : executor.carryOut depth scope task.work journal = some (result, later)) :
    ∃ steps, Traced executor scope task journal steps result later :=
  (carry_out_runs finished).traced task rfl

end Runs

/-- The record that a step leaves of a null that may not stand. -/
def Slot.note (slot : Slot) (journal : Journal σ) : Journal σ :=
  journal.note slot.field.path
    (.ofMessage (CompletionError.nullForNonNull slot.field.typeName slot.field.fieldName).message)

/-- What a single step does to the journal; only fields and settled values run callbacks. -/
def Step.Takes (executor : Executor σ) (scope : RequestScope) (step : Step σ)
    (journal later : Journal σ) : Prop :=
  match step with
  | .object _ type _ groups =>
      later = journal ∧ ∃ sets, groups = executor.groupsBelow scope type sets
  | .field _ path attempt =>
      (∃ depth, attempt.Made executor scope (executor.execute depth)) ∧
        attempt.object.selectable? attempt.group.first.node.name.node = some attempt.definition ∧
        attempt.start = journal.context ∧ later = attempt.leave path journal
  | .settled slot value =>
      executor.isNullish value = false ∧
        ∃ result, Settles executor slot.field slot.type value journal result later
  | .violated slot => later = slot.note journal
  | .passed _ => later = journal
  | .absorbed _ => later = journal

/-- A journal is changed by one step after the other, and by nothing else. -/
inductive Accounts (executor : Executor σ) (scope : RequestScope) :
    Journal σ → List (Step σ) → Journal σ → Prop where
  | nil {journal} : Accounts executor scope journal [] journal
  | cons {journal step middle steps later} (first : step.Takes executor scope journal middle)
      (rest : Accounts executor scope middle steps later) :
      Accounts executor scope journal (step :: steps) later

namespace Accounts

variable {executor : Executor σ} {scope : RequestScope} {journal middle later : Journal σ}
  {steps more : List (Step σ)}

theorem single {step : Step σ} (takes : step.Takes executor scope journal later) :
    Accounts executor scope journal [step] later := .cons takes .nil

theorem append (first : Accounts executor scope journal steps middle)
    (second : Accounts executor scope middle more later) :
    Accounts executor scope journal (steps ++ more) later := by
  induction first with
  | nil => exact second
  | cons takes _ ih => exact .cons takes (ih second)

theorem split (accounts : Accounts executor scope journal (steps ++ more) later) :
    ∃ middle, Accounts executor scope journal steps middle ∧
      Accounts executor scope middle more later := by
  induction steps generalizing journal with
  | nil => exact ⟨journal, .nil, accounts⟩
  | cons step rest ih =>
      cases accounts with
      | cons takes remaining =>
          obtain ⟨middle, front, behind⟩ := ih remaining
          exact ⟨middle, .cons takes front, behind⟩

end Accounts

/-- The steps of a trace account for all that is done to the journal. -/
theorem Traced.accounts {executor : Executor σ} {scope : RequestScope} {task : Task}
    {journal later : Journal σ} {steps : List (Step σ)} {result : Except Bubble Value}
    (traced : Traced executor scope task journal steps result later) :
    Accounts executor scope journal steps later := by
  induction traced with
  | @optional slot _ _ _ result _ _ _ ih =>
      refine ih.append ?_
      cases result with
      | ok _ => exact .nil
      | error _ => exact .single rfl
  | @required place field type _ _ _ result later _ ih =>
      refine ih.append ?_
      cases result with
      | error _ => exact .single rfl
      | ok value =>
          by_cases null : value.isNull = true
          · simp only [demanded, FieldScope.demand, null, if_true]
            exact .single rfl
          · simp only [demanded, FieldScope.demand, null]
            exact .nil
  | absent => exact .nil
  | settled present settles => exact .single ⟨present, _, settles⟩
  | nested _ _ ih => exact ih
  | list _ _ ih => exact ih
  | object _ _ _ ih => exact .cons ⟨rfl, _, rfl⟩ ih
  | noItems => exact .nil
  | item _ _ head tail => exact head.append tail
  | itemBubbled _ ih => exact ih
  | noGroups => exact .nil
  | undefinedField _ _ ih => exact ih
  | field known made started _ _ head tail =>
      exact .cons ⟨⟨_, made⟩, known, started, rfl⟩ (head.append tail)
  | fieldBubbled known made started _ ih => exact .cons ⟨⟨_, made⟩, known, started, rfl⟩ ih

/-- The selections of an operation on its root type. -/
def Executor.rootTask (executor : Executor σ) (scope : RequestScope)
    (operation : Located Operation) (root : ObjectType) : Task :=
  .groups [] root (.object []) ⟨[], operation.span.start⟩
    (executor.groupsBelow scope root [operation.node.selections])

/-- An operation is executed to what its trace ends in, and to null where that is a bubble. -/
theorem operation_traced {executor : Executor σ} {depth : Nat} {document : Document}
    {operation : Located Operation} {root : ObjectType} {inputs : Object}
    {journal later : Journal σ} {result : Except Bubble Value}
    (finished : executor.executeOperation (executor.runWithin depth) document operation root inputs
      journal = some (result, later)) :
    ∃ values started steps outcome,
      executor.coerceVariables inputs (operationPlace operation)
        ((operation.node.variableDefinitions.map (·.node)).getD []) journal =
          some (.ok values, started) ∧
      Traced executor ⟨document, values⟩ (executor.rootTask ⟨document, values⟩ operation root)
        started steps outcome later ∧
      result = .ok (orNull outcome) := by
  rw [Executor.executeOperation] at finished
  rcases Action.bind_finished finished with ⟨values, started, coerced, rest⟩ | ⟨error, -, coerced⟩
  · obtain ⟨outcome, same, runs⟩ := root_data_runs rest
    obtain ⟨steps, traced⟩ := runs.traced (executor.rootTask ⟨document, values⟩ operation root) rfl
    exact ⟨values, started, steps, outcome, coerced, traced, same⟩
  · obtain ⟨_, _, impossible, -⟩ := coerce_variables_gains coerced
    cases impossible

end GraphQL
