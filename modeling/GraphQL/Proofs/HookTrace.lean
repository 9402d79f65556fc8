import GraphQL.Proofs.ActionLaw
import GraphQL.Proofs.AttemptedFields

/-!
The calls of resolvers over a whole execution.

A trace tells which callbacks of resolvers were run, in order. A context that keeps a log of calls
has those of the trace in it, and no others. In the trace of an operation each field of an object
that is entered has one attempt at most, and each attempt follows the protocol of its resolver.
-/

namespace GraphQL

variable {σ τ : Type}

/-- The calls of resolvers in a step. -/
def Step.calls : Step σ → List (Call σ)
  | .field _ _ attempt => attempt.calls
  | _ => []

/-- Callbacks of resolvers sign a log, each in its own way; those of scalars do not touch it. -/
structure Executor.Signs (executor : Executor σ) (log : σ → List τ) (sign : Call σ → List τ) :
    Prop where
  calls : ∀ entry ∈ executor.resolvers, ∀ call, Call.Made entry.resolver call →
    log call.finish = log call.start ++ sign call
  reads : (keepLaw log).Reads executor fun _ => True
  writes : ∀ entry ∈ executor.scalars, ∀ value, (keepLaw log).holds (entry.2.serialize value)

section Logs

variable {executor : Executor σ} {scope : RequestScope} {log : σ → List τ}
  {sign : Call σ → List τ} (signs : executor.Signs log sign)

include signs

theorem Protocol.signed {entry : ResolverEntry σ} (registered : entry ∈ executor.resolvers)
    {seen : FieldContext σ} {context later : σ} {calls : List (Call σ)}
    {result : Except FieldError Value}
    (protocol : Protocol entry.resolver seen context calls result later) :
    log later = log context ++ calls.flatMap sign := by
  have signed := signs.calls entry registered
  have offered {seen : FieldContext σ} {hook : Hook} {otherwise : Value} {context later : σ}
      {calls : List (Call σ)} {result : Except FieldError Value}
      (offers : Offers entry.resolver seen hook otherwise context calls result later) :
      log later = log context ++ calls.flatMap sign := by
    cases offers with
    | missing => simp
    | made made => simpa using signed _ made
  cases protocol with
  | notReplaced before => exact offered before
  | notResolved before made =>
      have resolved := signed _ made
      rw [List.flatMap_append, ← List.append_assoc, ← offered before]
      simpa using resolved
  | resolved before made after =>
      have resolved := signed _ made
      dsimp only at resolved
      rw [List.flatMap_append, List.flatMap_cons, ← List.append_assoc, ← List.append_assoc,
        ← offered before, ← resolved]
      exact offered after

theorem Attempt.Made.signed {execute : Request → Action σ RequestError Value} {attempt : Attempt σ}
    (made : attempt.Made executor scope execute) :
    log attempt.finish = log attempt.start ++ attempt.calls.flatMap sign := by
  have kept {arguments : List (Located InputDefinition)} (values : Object) (field : Field)
      {context later : σ} {result : Except InputError Object}
      (coerced : executor.coerceArguments values field arguments context = some (result, later)) :
      log later = log context :=
    ActionLaw.coerce_arguments signs.reads values field arguments (fun _ _ => trivial) _ _ _ coerced
  cases made with
  | looked => simp
  | refused _ coerced => simpa using kept _ _ coerced
  | called registered coerced protocol =>
      obtain ⟨entry, found, rfl⟩ := Option.map_eq_some_iff.mp registered
      have signed := protocol.signed signs (List.mem_of_find?_eq_some found)
      rw [kept _ _ coerced] at signed
      exact signed

theorem Step.Takes.signed {step : Step σ} {journal later : Journal σ}
    (takes : step.Takes executor scope journal later) :
    log later.context = log journal.context ++ step.calls.flatMap sign := by
  cases step with
  | object =>
      obtain ⟨rfl, -⟩ := takes
      simp [calls]
  | field place path attempt =>
      obtain ⟨⟨depth, made⟩, -, started, rfl⟩ := takes
      have signed := made.signed signs
      have left : (attempt.leave path journal).context = attempt.finish := by
        rw [Attempt.leave]
        cases attempt.result <;> rfl
      rw [left, calls, ← started, signed]
  | settled slot value =>
      obtain ⟨place, field, type⟩ := slot
      obtain ⟨-, result, settles⟩ := takes
      have kept : log later.context = log journal.context := by
        cases settles with
        | written _ _ hooked ran => exact signs.writes _ (lookup_member hooked) _ _ _ _ ran
        | unwritten _ _ hooked ran => exact signs.writes _ (lookup_member hooked) _ _ _ _ ran
        | _ => rfl
      simpa [calls] using kept
  | violated slot =>
      obtain rfl : later = slot.note journal := takes
      simp [calls, Slot.note, Journal.note]
  | passed | absorbed =>
      obtain rfl : later = journal := takes
      simp [calls]

/-- What is logged in the course of a trace are the calls of its steps. -/
theorem Accounts.signed {journal later : Journal σ} {steps : List (Step σ)}
    (accounts : Accounts executor scope journal steps later) :
    log later.context = log journal.context ++ (steps.flatMap Step.calls).flatMap sign := by
  induction accounts with
  | nil => simp
  | cons takes _ ih =>
      rw [ih, takes.signed signs, List.flatMap_cons, List.flatMap_append, List.append_assoc]

end Logs

/-- What the trace of an operation tells of fields: each has one attempt, made as it should be. -/
structure AttemptsFields (executor : Executor σ) (scope : RequestScope) (steps : List (Step σ)) :
    Prop where
  orderly : Orderly (fun _ => False) steps
  once : ∀ place object source groups, .object place object source groups ∈ steps →
    ((attemptsAt place steps).map (·.group.key)).Nodup
  made : ∀ place path attempt, .field place path attempt ∈ steps →
    (∃ depth, attempt.Made executor scope (executor.execute depth)) ∧
      attempt.object.selectable? attempt.group.first.node.name.node = some attempt.definition

section Operations

variable {executor : Executor σ} {scope : RequestScope}

theorem Accounts.taken {journal later : Journal σ} {steps : List (Step σ)}
    (accounts : Accounts executor scope journal steps later) {step : Step σ}
    (member : step ∈ steps) : ∃ before after, step.Takes executor scope before after := by
  induction accounts with
  | nil => cases member
  | cons takes _ ih =>
      rcases List.mem_cons.mp member with rfl | later
      · exact ⟨_, _, takes⟩
      · exact ih later

theorem attempts_fields {journal later : Journal σ} {steps : List (Step σ)}
    (orderly : Orderly (fun _ => False) steps)
    (accounts : Accounts executor scope journal steps later) :
    AttemptsFields executor scope steps where
  orderly := orderly
  once place object source groups member := by
    obtain ⟨before, after, -, sets, rfl⟩ := accounts.taken member
    have distinct := groups_below_distinct executor scope object sets
    have order := (orderly.executed place object source _ member).order
    have keys := (order.sublist.trans List.filter_sublist).map (·.key)
    rw [List.map_map] at keys
    exact keys.nodup distinct
  made place path attempt member := by
    obtain ⟨before, after, made, known, -⟩ := accounts.taken member
    exact ⟨made, known⟩

/-- The objects and fields of an operation, in whose trace its root comes first. -/
theorem Traced.operation {operation : Located Operation} {root : ObjectType}
    {journal later : Journal σ} {steps : List (Step σ)} {outcome : Except Bubble Value}
    (traced : Traced executor scope (executor.rootTask scope operation root) journal steps outcome
      later) :
    Accounts executor scope journal
        (.object [] root (.object [])
          (executor.groupsBelow scope root [operation.node.selections]) :: steps) later ∧
      AttemptsFields executor scope
        (.object [] root (.object [])
          (executor.groupsBelow scope root [operation.node.selections]) :: steps) := by
  have entered : Step.Takes executor scope (.object [] root (.object [])
      (executor.groupsBelow scope root [operation.node.selections])) journal journal := ⟨rfl, _, rfl⟩
  have accounts := Accounts.cons entered traced.accounts
  have distinct := groups_below_distinct executor scope root [operation.node.selections]
  exact ⟨accounts,
    attempts_fields ((traced.orderly distinct).enter traced.within traced.executes) accounts⟩

end Operations

section Groups

variable {executor : Executor σ} {scope : RequestScope}
  {execute : Request → Action σ RequestError Value} {run : ObjectRunner σ} {object : ObjectType}
  {source : Value} {path : FieldPath} {group : FieldGroup} {definition : FieldDefinition}
  {journal : Journal σ} {context : σ}

/-- A field is completed with what was resolved, and with null where that failed. -/
theorem execute_group_resolved {result : Except FieldError Value}
    (resolved : executor.resolveValue scope execute object source group.first definition
      journal.context = some (result, context)) :
    executor.executeGroup scope execute run object source path group definition journal =
      executor.complete run (group.scope object path) definition.type.node (orNull result)
        (match result with
          | .ok _ => journal.resume context
          | .error error => (journal.resume context).note (group.scope object path).path error) := by
  have observed : Completion.observe (executor.resolveValue scope execute object source group.first
      definition) journal = some (.ok result, journal.resume context) := by
    rw [Completion.observe_apply, resolved]
    rfl
  rw [Executor.executeGroup, Action.bind_apply, observed]
  cases result with
  | ok value => rfl
  | error error => rfl

end Groups

/--
Resolvers and their hooks keep to a protocol. A field that has no resolver is looked up. Otherwise
its arguments come first, and if these fail no callback of the field is run; then the callbacks run
in their order, each at most once and all of them unless one fails, and they see the same of the
field but for the source. A failure adds one record, at the field, which is completed as null. In
the trace of an operation every field of an object that is entered has one attempt for its response
key, from the first group of the object on, unless a bubble leaves the object; and a context that
keeps a log of calls has those of the trace in its log.
-/
theorem hooks_keep_to_protocol (executor : Executor σ) :
    (∀ scope execute object source group definition context result later,
      executor.resolveValue scope execute object source group.first definition context =
          some (result, later) ↔
        ∃ calls, Attempt.Made executor scope execute
          ⟨object, source, group, definition, context, calls, result, later⟩) ∧
    (∀ (resolver : Resolver σ) seen context calls result later,
      Protocol resolver seen context calls result later →
        calls.map (·.hook.stage) <+: resolver.stages ∧
        (∀ value, result = .ok value → calls.map (·.hook.stage) = resolver.stages) ∧
        ∀ call ∈ calls, ∃ source, call.seen = seen.withSource source) ∧
    (∀ scope execute run object source path (group : FieldGroup) definition journal error context,
      executor.resolveValue scope execute object source group.first definition journal.context =
          some (.error error, context) →
        executor.executeGroup scope execute run object source path group definition journal =
          executor.complete run (group.scope object path) definition.type.node .null
            ((journal.resume context).note (group.scope object path).path error)) ∧
    ∀ depth document operation root inputs journal result later,
      executor.executeOperation (executor.runWithin depth) document operation root inputs journal =
          some (result, later) →
        ∃ values started outcome steps trace,
          executor.coerceVariables inputs (operationPlace operation)
            ((operation.node.variableDefinitions.map (·.node)).getD []) journal =
              some (.ok values, started) ∧
          Traced executor ⟨document, values⟩ (executor.rootTask ⟨document, values⟩ operation root)
            started steps outcome later ∧
          trace = .object [] root (.object []) (executor.groupsBelow ⟨document, values⟩ root
            [operation.node.selections]) :: steps ∧
          Accounts executor ⟨document, values⟩ started trace later ∧
          AttemptsFields executor ⟨document, values⟩ trace ∧
          ∀ (τ : Type) (log : σ → List τ) sign, executor.Signs log sign →
            log later.context = log started.context ++ (trace.flatMap Step.calls).flatMap sign := by
  refine ⟨fun scope execute object source group definition context result later =>
    resolve_value_iff, ?_, ?_, ?_⟩
  · intro resolver seen context calls result later protocol
    exact ⟨protocol.stages.1, protocol.stages.2, protocol.sees⟩
  · intro scope execute run object source path group definition journal error context failed
    exact execute_group_resolved failed
  · intro depth document operation root inputs journal result later finished
    obtain ⟨values, started, steps, outcome, coerced, traced, -⟩ := operation_traced finished
    obtain ⟨accounts, attempts⟩ := traced.operation
    exact ⟨values, started, outcome, steps, _, coerced, traced, rfl, accounts, attempts,
      fun τ log sign signs => accounts.signed signs⟩

/-- A callback that writes down its stage. -/
def logging (stage : Stage) (result : Except FieldError Value) :
    Action (List Stage) FieldError Value :=
  fun book => some (result, book ++ [stage])

/-- A name that is told to nobody. -/
def closedName : Resolver (List Stage) where
  before := some fun _ => logging .before (.error (.ofMessage "closed"))
  resolve := fun _ => logging .resolve (.ok (.string "Elm"))
  after := none

def hookedKennel : Executor (List Stage) where
  schema := kennel.schema
  resolvers :=
    [⟨"Kennel", "name", closedName⟩,
      ⟨"Kennel", "dogs",
        { before := some fun _ => logging .before (.ok (.string "Rex"))
          resolve := fun seen => logging .resolve (.ok (.list [.object [("name", seen.source)]]))
          after := some fun _ value => logging .after (.ok value) }⟩]
  scalars := []
  resolveType := typenameField
  isNullish := Value.isNull
  renderError := fun error _ => error.render

theorem hooked_kennel_signs : hookedKennel.Signs id fun call => [call.hook.stage] where
  calls := by
    intro entry member call made
    obtain ⟨callback, registered, ran⟩ := made
    obtain ⟨hook, seen, start, result, finish⟩ := call
    have either := List.mem_cons.mp member
    rw [List.mem_singleton] at either
    rcases either with rfl | rfl
    all_goals
      cases hook <;> cases registered <;> exact (Prod.mk.inj (Option.some.inj ran)).2.symm
  reads := by
    have none (name : String) (hooks : ScalarHooks (List Stage)) :
        hooks ∉ hookedKennel.customScalar? name := by
      intro custom
      rw [Executor.customScalar?] at custom
      split at custom <;> cases custom
    exact
      { closed := fun _ _ _ _ _ _ => trivial
        parseValue := fun name _ hooks custom => absurd custom (none name hooks)
        parseLiteral := fun name _ hooks custom => absurd custom (none name hooks) }
  writes := fun _ absent => by cases absent

/-- A request that asks for the dogs twice, and then for the name of the kennel. -/
def hookedTour : Located Operation := .unplaced
  { kind := .query
    name := none
    variableDefinitions := none
    directives := none
    selections :=
      [kennelField "dogs" (some [kennelField "name" none]),
        kennelField "dogs" (some [kennelField "name" none]), kennelField "name" none] }

def hookedDocument : Document where
  definitions := [.operation hookedTour]
  span := .unplaced

def nameGroup : FieldGroup :=
  ⟨"name", .unplaced ⟨none, .unplaced "name", none, none, none⟩, []⟩

def nameDefinition : FieldDefinition where
  name := .unplaced "name"
  description := none
  arguments := []
  type := .unplaced (.nonNull (.named "String"))
  deprecation := .current

/-- The dogs are asked for once, with all hooks; for the name the first one fails. -/
theorem dogs_called_once :
    (∃ values trace, AttemptsFields hookedKennel ⟨hookedDocument, values⟩ trace ∧
      (trace.flatMap Step.calls).map (·.hook.stage) = [.before, .resolve, .after, .before]) ∧
    (∃ calls, Attempt.Made hookedKennel ⟨hookedDocument, []⟩ (hookedKennel.execute 2)
      ⟨kennelRoot, .object [], nameGroup, nameDefinition, [], calls, .error (.ofMessage "closed"),
        [.before]⟩) ∧
    (∀ seen, ∀ call ∈ [(⟨.before, seen, [], .error (.ofMessage "closed"), [.before]⟩ :
      Call (List Stage))], ∃ source, call.seen = seen.withSource source) ∧
    ∀ run, hookedKennel.executeGroup ⟨hookedDocument, []⟩ (hookedKennel.execute 2) run kennelRoot
        (.object []) ⟨[], .origin⟩ nameGroup nameDefinition ⟨[], []⟩ =
      hookedKennel.complete run (nameGroup.scope kennelRoot ⟨[], .origin⟩)
        (.nonNull (.named "String")) .null
        ⟨[.before], [⟨.origin, ["name"], .ofMessage "closed"⟩]⟩ := by
  obtain ⟨fields, protocols, failures, operations⟩ := hooks_keep_to_protocol hookedKennel
  have closed : hookedKennel.resolveValue ⟨hookedDocument, []⟩ (hookedKennel.execute 2) kennelRoot
      (.object []) nameGroup.first nameDefinition [] =
        some (.error (.ofMessage "closed"), [.before]) := rfl
  refine ⟨?_, (fields _ _ _ _ _ _ _ _ _).mp closed, fun seen => ?_,
    fun run => failures _ _ run _ _ _ _ _ ⟨[], []⟩ _ _ closed⟩
  · have ran : ∃ errors, hookedKennel.executeOperation (hookedKennel.runWithin 2) hookedDocument
        hookedTour kennelRoot [] ⟨[], []⟩ =
          some (.ok .null, ⟨[.before, .resolve, .after, .before], errors⟩) := ⟨_, rfl⟩
    obtain ⟨errors, ran⟩ := ran
    obtain ⟨values, started, outcome, steps, trace, coerced, -, -, -, attempts, logged⟩ :=
      operations 2 hookedDocument hookedTour kennelRoot [] ⟨[], []⟩ _ _ ran
    cases coerced
    have signed := logged Stage id _ hooked_kennel_signs
    refine ⟨_, trace, attempts, ?_⟩
    rw [List.map_eq_flatMap]
    exact signed.symm
  · have protocol : Protocol closedName seen [] _ (.error (.ofMessage "closed")) [.before] :=
      .notReplaced (.made ⟨_, rfl, rfl⟩)
    exact (protocols _ _ _ _ _ _ protocol).2.2

end GraphQL
