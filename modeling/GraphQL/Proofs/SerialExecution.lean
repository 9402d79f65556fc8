import GraphQL.Proofs.ActionLaw
import GraphQL.Proofs.ErrorLog
import GraphQL.Proofs.SplitWalk

/-!
Selections are executed one after the other.

Executing selections that follow each other is executing the first ones, and then the second ones
from the context and the errors that the first ones left. Nothing of the second ones is run where
the first ones bubble. On the root type the same holds of every single field: it is resolved with
all that is below it before the next one starts, and where the fields in front of it may be null it
is run whatever became of them.
-/

namespace GraphQL

variable {σ τ : Type}

namespace Executor

/-- Groups in a row are executed by executing the second ones where the first ones ended. -/
theorem execute_groups_append (executor : Executor σ) (scope : RequestScope)
    (execute : Request → Action σ RequestError Value) (run : ObjectRunner σ) (object : ObjectType)
    (source : Value) (path : FieldPath) (first second : List FieldGroup) :
    executor.executeGroups scope execute run object source path (first ++ second) = (do
      let entries ← executor.executeGroups scope execute run object source path first
      let others ← executor.executeGroups scope execute run object source path second
      pure (entries ++ others)) := by
  induction first with
  | nil => simp [executeGroups]
  | cons group rest ih =>
      rw [List.cons_append, executeGroups, executeGroups]
      cases object.selectable? group.first.node.name.node with
      | none => exact ih
      | some definition => simp only [ih, bind_assoc, pure_bind, List.cons_append]

theorem run_within_append (executor : Executor σ) (depth : Nat) (scope : RequestScope)
    (object : ObjectType) (source : Value) (path : FieldPath) {first second : List Selection}
    (apart : ∀ key ∈ (executor.groupsBelow scope object [first]).map (·.key),
      key ∉ (executor.groupsBelow scope object [second]).map (·.key)) :
    executor.runWithin depth scope object source path [first ++ second] = (do
      let entries ← executor.runWithin depth scope object source path [first]
      let others ← executor.runWithin depth scope object source path [second]
      pure (entries ++ others)) := by
  cases depth with
  | zero => rfl
  | succ depth =>
      have joined := executor.groups_below_joined scope object first second
      rw [executor.groups_below_append scope object apart] at joined
      have groups := execute_groups_append executor scope (executor.execute depth)
        (executor.runWithin depth scope) object source path
        (executor.groupsBelow scope object [first]) (executor.groupsBelow scope object [second])
      rw [← joined] at groups
      exact groups

end Executor

/-- Actions that do nothing to a log in the context but append to it. -/
def appendLaw (log : σ → List τ) : ActionLaw σ where
  holds action := ∀ context result later, action context = some (result, later) →
    log context <+: log later
  pure _ _ _ _ ended := by
    cases ended
    exact List.prefix_rfl
  throw _ _ _ _ ended := by
    cases ended
    exact List.prefix_rfl
  unfinished _ _ _ ended := by cases ended
  bind first next context result later ended := by
    rcases Action.bind_finished ended with ⟨value, middle, ran, rest⟩ | ⟨error, rfl, ran⟩
    · exact (first _ _ _ ran).trans (next value _ _ _ rest)
    · exact first _ _ _ ran
  adapt change _ appends context result later ended := by
    rw [Action.adapt_apply, Option.map_eq_some_iff] at ended
    obtain ⟨⟨inner, reached⟩, ran, same⟩ := ended
    cases same
    exact appends _ _ _ ran

section Logs

variable {executor : Executor σ} {scope : RequestScope} {log : σ → List τ}
  (logged : (appendLaw log).Governs executor)

include logged

theorem Settles.appends {field : FieldScope} {type : TypeRef} {value result : Value}
    {journal later : Journal σ} (settles : Settles executor field type value journal result later) :
    log journal.context <+: log later.context := by
  cases settles with
  | written _ _ hooked ran => exact logged.serialize _ (lookup_member hooked) _ _ _ _ ran
  | unwritten _ _ hooked ran => exact logged.serialize _ (lookup_member hooked) _ _ _ _ ran
  | _ => exact List.prefix_rfl

theorem Resolves.appends {object : ObjectType} {source value : Value} {path : FieldPath}
    {group : FieldGroup} {definition : FieldDefinition} {journal later : Journal σ}
    (resolves : Resolves executor scope object source path group definition journal value later) :
    log journal.context <+: log later.context := by
  cases resolves with
  | returned ran => exact logged.resolve_value _ _ _ _ _ _ _ _ _ ran
  | failed ran => exact logged.resolve_value _ _ _ _ _ _ _ _ _ ran

/-- Where callbacks only append to a log, so does whatever is carried out. -/
theorem Runs.appends {work : Work} {journal later : Journal σ} {result : Except Bubble Value}
    (runs : Runs executor scope work journal result later) :
    log journal.context <+: log later.context := by
  induction runs with
  | nullable _ _ ih => exact ih
  | absorbed _ _ ih => exact ih
  | present _ _ ih => exact ih
  | violated _ ih => exact ih
  | passed _ ih => exact ih
  | absent => exact List.prefix_rfl
  | settled _ settles => exact settles.appends logged
  | nested _ _ ih => exact ih
  | list _ _ ih => exact ih
  | object _ _ _ ih => exact ih
  | noItems => exact List.prefix_rfl
  | item _ _ head tail => exact head.trans tail
  | itemBubbled _ ih => exact ih
  | itemsBubbled _ _ head tail => exact head.trans tail
  | noGroups => exact List.prefix_rfl
  | undefinedField _ _ ih => exact ih
  | field _ resolves _ _ head tail => exact (resolves.appends logged).trans (head.trans tail)
  | fieldBubbled _ resolves _ head => exact (resolves.appends logged).trans head
  | fieldsBubbled _ resolves _ _ head tail =>
      exact (resolves.appends logged).trans (head.trans tail)

end Logs

/-- How the whole of some selections is executed where it is made up of two parts. -/
structure RunsSerially (log : σ → List τ) (whole first second : Completion σ Object) : Prop where
  composed : whole = do
    let entries ← first
    let others ← second
    pure (entries ++ others)
  /-- Entries, errors and what callbacks log follow each other as the parts do. -/
  ended : ∀ journal entries middle result later, first journal = some (.ok entries, middle) →
    second middle = some (result, later) →
      whole journal = some (result.map (entries ++ ·), later) ∧
      (∃ errors more, journal.Gains errors middle ∧ middle.Gains more later ∧
        journal.Gains (errors ++ more) later) ∧
      ∃ calls more, log middle.context = log journal.context ++ calls ∧
        log later.context = log middle.context ++ more ∧
        log later.context = log journal.context ++ (calls ++ more)
  /-- After a bubble nothing of the second part is run. -/
  bubbled : ∀ journal later, first journal = some (.error .bubble, later) →
    whole journal = some (.error .bubble, later)

theorem composed_runs_serially {executor : Executor σ} {scope : RequestScope} {log : σ → List τ}
    (logged : (appendLaw log).Governs executor) {whole first second : Completion σ Object}
    (composed : whole = do
      let entries ← first
      let others ← second
      pure (entries ++ others))
    (runs : ∀ part ∈ [first, second], ∀ journal result later,
      part journal = some (result, later) → ∃ work, Runs executor scope work journal
        (result.map Value.object) later) :
    RunsSerially log whole first second where
  composed := composed
  ended journal entries middle result later started finished := by
    obtain ⟨_, starting⟩ := runs first (by simp) _ _ _ started
    obtain ⟨_, finishing⟩ := runs second (by simp) _ _ _ finished
    obtain ⟨errors, gained, -⟩ := starting.gains
    obtain ⟨more, gained', -⟩ := finishing.gains
    obtain ⟨calls, appended⟩ := starting.appends logged
    obtain ⟨others, appended'⟩ := finishing.appends logged
    refine ⟨?_, ⟨errors, more, gained, gained', gained.trans gained'⟩,
      calls, others, appended.symm, appended'.symm, ?_⟩
    · rw [composed, Action.bind_apply, started]
      dsimp only
      rw [Action.bind_apply, finished]
      cases result <;> rfl
    · rw [← List.append_assoc, appended, appended']
  bubbled journal later ended := by
    rw [composed, Action.bind_apply, ended]

namespace Executor

/-- Groups of an operation, executed on its root type. -/
def rootGroups (executor : Executor σ) (depth : Nat) (scope : RequestScope)
    (operation : Located Operation) (root : ObjectType) (groups : List FieldGroup) :
    Completion σ Object :=
  executor.executeGroups scope (executor.execute depth) (executor.runWithin depth scope) root
    (.object []) ⟨[], operation.span.start⟩ groups

/-- One group of an operation, executed on its root type with all that is below it. -/
def rootGroup (executor : Executor σ) (depth : Nat) (scope : RequestScope)
    (operation : Located Operation) (root : ObjectType) (group : FieldGroup)
    (definition : FieldDefinition) : Completion σ Value :=
  executor.executeGroup scope (executor.execute depth) (executor.runWithin depth scope) root
    (.object []) ⟨[], operation.span.start⟩ group definition

end Executor

/-- What may be null absorbs every bubble. -/
theorem complete_optional {executor : Executor σ} {run : ObjectRunner σ} {field : FieldScope}
    {type : TypeRef} (optional : type.isNonNull = false) {value : Value} {journal later : Journal σ}
    {result : Except Bubble Value}
    (finished : executor.complete run field type value journal = some (result, later)) :
    ∃ value, result = .ok value := by
  rw [Executor.complete_nullable _ _ _ _ optional, Completion.absorb_apply,
    Option.map_eq_some_iff] at finished
  obtain ⟨outcome, -, same⟩ := finished
  cases same
  exact ⟨_, rfl⟩

theorem execute_group_optional {executor : Executor σ} {scope : RequestScope}
    {execute : Request → Action σ RequestError Value} {run : ObjectRunner σ} {object : ObjectType}
    {source : Value} {path : FieldPath} {group : FieldGroup} {definition : FieldDefinition}
    (optional : definition.type.node.isNonNull = false) {journal later : Journal σ}
    {result : Except Bubble Value}
    (finished : executor.executeGroup scope execute run object source path group definition
      journal = some (result, later)) : ∃ value, result = .ok value := by
  rw [Executor.executeGroup] at finished
  rcases Action.bind_finished finished with ⟨seen, middle, -, completed⟩ | ⟨_, -, ran⟩
  · cases seen with
    | ok value => exact complete_optional optional completed
    | error error => exact complete_optional optional completed
  · obtain ⟨outcome, context, impossible, -⟩ := Completion.observe_finished ran
    cases impossible

/-- Whether the fields that groups are executed as may be null. -/
def AllOptional (object : ObjectType) (groups : List FieldGroup) : Prop :=
  ∀ group ∈ groups, ∀ definition ∈ object.selectable? group.first.node.name.node,
    definition.type.node.isNonNull = false

theorem execute_groups_optional {executor : Executor σ} {scope : RequestScope}
    {execute : Request → Action σ RequestError Value} {run : ObjectRunner σ} {object : ObjectType}
    {source : Value} {path : FieldPath} {groups : List FieldGroup}
    (optional : AllOptional object groups) {journal later : Journal σ}
    {result : Except Bubble Object}
    (finished : executor.executeGroups scope execute run object source path groups journal =
      some (result, later)) : ∃ entries, result = .ok entries := by
  induction groups generalizing journal result with
  | nil =>
      cases finished
      exact ⟨[], rfl⟩
  | cons group rest ih =>
      have others : AllOptional object rest :=
        fun other member => optional other (List.mem_cons_of_mem _ member)
      rw [Executor.executeGroups] at finished
      cases known : object.selectable? group.first.node.name.node with
      | none =>
          simp only [known] at finished
          exact ih others finished
      | some definition =>
          simp only [known] at finished
          rcases Action.bind_finished finished with ⟨value, middle, -, next⟩ | ⟨_, rfl, ran⟩
          · rcases Action.bind_finished next with ⟨entries, last, -, done⟩ | ⟨_, rfl, ran⟩
            · cases done
              exact ⟨_, rfl⟩
            · obtain ⟨entries, impossible⟩ := ih others ran
              cases impossible
          · have first := optional group List.mem_cons_self definition known
            obtain ⟨value, impossible⟩ := execute_group_optional first ran
            cases impossible

/--
How an operation executes its root fields from a journal, and how that ends. Every group is executed
with all that is below it before the next one starts.
-/
structure RootInTurn (executor : Executor σ) (depth : Nat) (scope : RequestScope)
    (operation : Located Operation) (root : ObjectType) (started : Journal σ)
    (ended : Option (Except Bubble Value × Journal σ)) : Prop where
  /-- One group for each response key, in the order in which keys are met first. -/
  order : (executor.groupsBelow scope root [operation.node.selections]).map (·.key) =
    appendNew [] ((fieldsAsked executor.schema scope root.name.node
      [operation.node.selections]).map (·.node.responseKey))
  distinct : ((executor.groupsBelow scope root [operation.node.selections]).map (·.key)).Nodup
  turn : ∀ before group after definition,
    executor.groupsBelow scope root [operation.node.selections] = before ++ group :: after →
      root.selectable? group.first.node.name.node = some definition →
        ended = Completion.absorb (do
          let entries ← executor.rootGroups depth scope operation root before
          let value ← executor.rootGroup depth scope operation root group definition
          let others ← executor.rootGroups depth scope operation root after
          pure (.object (entries ++ (group.key, value) :: others))) started
  /-- Fields that may be null do not keep those after them from being run. -/
  passes : ∀ before group after,
    executor.groupsBelow scope root [operation.node.selections] = before ++ group :: after →
      AllOptional root before →
        ∀ result middle, executor.rootGroups depth scope operation root before started =
          some (result, middle) → ∃ entries, result = .ok entries
  all : AllOptional root (executor.groupsBelow scope root [operation.node.selections]) →
    ∀ result later, ended = some (result, later) → ∀ before group after definition,
      executor.groupsBelow scope root [operation.node.selections] = before ++ group :: after →
        root.selectable? group.first.node.name.node = some definition →
          ∃ entries middle value reached others,
            executor.rootGroups depth scope operation root before started =
              some (.ok entries, middle) ∧
            executor.rootGroup depth scope operation root group definition middle =
              some (.ok value, reached) ∧
            executor.rootGroups depth scope operation root after reached =
              some (.ok others, later) ∧
            result = .ok (.object (entries ++ (group.key, value) :: others))

/-- The groups around one group, executed in turn. -/
theorem root_data_split {executor : Executor σ} {depth : Nat} {scope : RequestScope}
    {operation : Located Operation} {root : ObjectType} {before after : List FieldGroup}
    {group : FieldGroup} {definition : FieldDefinition}
    (split : executor.groupsBelow scope root [operation.node.selections] = before ++ group :: after)
    (known : root.selectable? group.first.node.name.node = some definition) :
    Executor.rootData (executor.runWithin (depth + 1) scope) operation root =
      Completion.absorb (do
        let entries ← executor.rootGroups depth scope operation root before
        let value ← executor.rootGroup depth scope operation root group definition
        let others ← executor.rootGroups depth scope operation root after
        pure (.object (entries ++ (group.key, value) :: others))) := by
  have whole : executor.runWithin (depth + 1) scope root (.object [])
        ⟨[], operation.span.start⟩ [operation.node.selections] =
      executor.rootGroups depth scope operation root (before ++ group :: after) := by
    rw [← split]
    rfl
  have later : executor.rootGroups depth scope operation root (group :: after) = (do
      let value ← executor.rootGroup depth scope operation root group definition
      let others ← executor.rootGroups depth scope operation root after
      pure ((group.key, value) :: others)) := by
    rw [Executor.rootGroups, Executor.executeGroups, known]
    rfl
  rw [Executor.rootData, whole, Executor.rootGroups, Executor.execute_groups_append]
  change Completion.absorb ((do
    let entries ← executor.rootGroups depth scope operation root before
    let others ← executor.rootGroups depth scope operation root (group :: after)
    pure (entries ++ others)) >>= fun fields => pure (.object fields)) = _
  simp only [later, bind_assoc, pure_bind]

theorem root_in_turn (executor : Executor σ) (depth : Nat) (scope : RequestScope)
    (operation : Located Operation) (root : ObjectType) (started : Journal σ) :
    RootInTurn executor depth scope operation root started
      (Executor.rootData (executor.runWithin (depth + 1) scope) operation root started) where
  order := by rw [Executor.groupsBelow, collect_fields_grouped, grouped_keys]
  distinct := by
    rw [Executor.groupsBelow, collect_fields_grouped]
    exact grouped_keys_nodup _
  turn before group after definition split known := by rw [root_data_split split known]
  passes before group after split optional result middle ran := execute_groups_optional optional ran
  all optional result later ended before group after definition split known := by
    have member (other : FieldGroup) (inside : other ∈ before ++ group :: after) :
        ∀ definition ∈ root.selectable? other.first.node.name.node,
          definition.type.node.isNonNull = false := by
      rw [← split] at inside
      exact optional other inside
    rw [root_data_split split known, Completion.absorb_apply, Option.map_eq_some_iff] at ended
    obtain ⟨⟨outcome, reached⟩, ran, same⟩ := ended
    cases same
    rcases Action.bind_finished ran with ⟨entries, middle, first, rest⟩ | ⟨_, rfl, first⟩
    · rcases Action.bind_finished rest with ⟨value, reached, second, last⟩ | ⟨_, rfl, second⟩
      · rcases Action.bind_finished last with ⟨others, final, third, done⟩ | ⟨_, rfl, third⟩
        · cases done
          exact ⟨entries, middle, value, reached, others, first, second, third, rfl⟩
        · obtain ⟨_, impossible⟩ := execute_groups_optional
            (fun other inside => member other (by simp [inside])) third
          cases impossible
      · obtain ⟨_, impossible⟩ := execute_group_optional
          (member group (by simp) definition known) second
        cases impossible
    · obtain ⟨_, impossible⟩ := execute_groups_optional
        (fun other inside => member other (by simp [inside])) first
      cases impossible

/--
Selections that ask for different response keys are executed one after the other, and so are the
root fields of every operation whose variables have got their values.
-/
theorem selections_run_serially (executor : Executor σ) (log : σ → List τ)
    (logged : (appendLaw log).Governs executor) (depth : Nat) (scope : RequestScope)
    (object : ObjectType) (source : Value) (path : FieldPath) (first second : List Selection)
    (apart : ∀ key ∈ (executor.groupsBelow scope object [first]).map (·.key),
      key ∉ (executor.groupsBelow scope object [second]).map (·.key)) :
    RunsSerially log (executor.runWithin depth scope object source path [first ++ second])
        (executor.runWithin depth scope object source path [first])
        (executor.runWithin depth scope object source path [second]) ∧
      ∀ document operation root inputs journal values started,
        executor.coerceVariables inputs (operationPlace operation)
            ((operation.node.variableDefinitions.map (·.node)).getD []) journal =
          some (.ok values, started) →
        RootInTurn executor depth ⟨document, values⟩ operation root started
          (executor.executeOperation (executor.runWithin (depth + 1)) document operation root inputs
            journal) := by
  have derived := executor.run_within_runs depth scope
  constructor
  · apply composed_runs_serially logged
      (executor.run_within_append depth scope object source path apart)
    intro part member journal result later ran
    rcases List.mem_pair.mp member with rfl | rfl
    · exact ⟨_, derived _ _ _ _ _ _ _ ran⟩
    · exact ⟨_, derived _ _ _ _ _ _ _ ran⟩
  · intro document operation root inputs journal values started coerced
    have whole : executor.executeOperation (executor.runWithin (depth + 1)) document operation root
          inputs journal =
        Executor.rootData (executor.runWithin (depth + 1) ⟨document, values⟩) operation root
          started := by
      rw [Executor.executeOperation, Action.bind_apply, coerced]
    rw [whole]
    exact root_in_turn executor depth ⟨document, values⟩ operation root started

/-- A resolver that signs the visitors' book before it answers. -/
def signing (entry : String) (value : Value) : Resolver (List String) where
  before := none
  resolve := fun _ book => some (.ok value, book ++ [entry])
  after := none

/-- The kennel, with its visitors' book as context. -/
def signedKennel : Executor (List String) where
  schema := kennel.schema
  resolvers :=
    [⟨"Kennel", "name", signing "name" (.string "Elm")⟩,
      ⟨"Kennel", "dogs", signing "dogs" (.list [.object [("name", .string "Rex")], .object []])⟩]
  scalars := []
  resolveType := typenameField
  isNullish := Value.isNull
  renderError := fun error _ => error.render

theorem visits_are_signed : (appendLaw id).Governs signedKennel where
  resolvers := by
    have signs (entry : String) (value : Value) :
        (appendLaw id).Resolves signedKennel.Asks (signing entry value) :=
      { before := fun _ absent => by cases absent
        resolve := fun _ _ book _ _ ended => by
          cases ended
          exact List.prefix_append book [entry]
        after := fun _ absent => by cases absent }
    intro entry member
    rcases List.mem_pair.mp member with rfl | rfl
    · exact signs _ _
    · exact signs _ _
  parseValue := fun _ absent => by cases absent
  parseLiteral := fun _ absent => by cases absent
  serialize := fun _ absent => by cases absent

/-- A document with two fragments, one of which does not apply to kennels. -/
def signedDocument : Document where
  definitions :=
    [.operation kennelTour, kennelFragment "Naming" "Kennel" [kennelField "name" none],
      kennelFragment "Dogs" "Dog" [kennelField "name" none]]
  span := .unplaced

def nameVisit : List Selection := [kennelSpread "Dogs", kennelSpread "Naming"]

def dogsVisit : List Selection :=
  [kennelSpread "Dogs", kennelField "dogs" (some [kennelField "name" none])]

/-- Both visits spread a fragment, and the second one records an error where the first one ended. -/
theorem name_signed_before_dogs :
    (∃ middle later,
      signedKennel.runWithin 2 ⟨signedDocument, []⟩ kennelRoot (.object []) ⟨[], .origin⟩
          [nameVisit] ⟨["you"], []⟩ = some (.ok [("name", .string "Elm")], middle) ∧
        signedKennel.runWithin 2 ⟨signedDocument, []⟩ kennelRoot (.object []) ⟨[], .origin⟩
          [nameVisit ++ dogsVisit] ⟨["you"], []⟩ =
            some (.ok [("name", .string "Elm"), ("dogs", .null)], later) ∧
        later.context = middle.context ++ ["dogs"] ∧ later.errors.length = 1) ∧
      RootInTurn signedKennel 2 ⟨signedDocument, []⟩ kennelTour kennelRoot ⟨[], []⟩
        (signedKennel.executeOperation (signedKennel.runWithin 3) signedDocument kennelTour
          kennelRoot [] ⟨[], []⟩) := by
  have apart : ∀ key ∈ (signedKennel.groupsBelow ⟨signedDocument, []⟩ kennelRoot
        [nameVisit]).map (·.key),
      key ∉ (signedKennel.groupsBelow ⟨signedDocument, []⟩ kennelRoot [dogsVisit]).map (·.key) := by
    decide
  have serial := selections_run_serially signedKennel id visits_are_signed 2 ⟨signedDocument, []⟩
    kennelRoot (.object []) ⟨[], .origin⟩ nameVisit dogsVisit apart
  have both := serial.1.ended ⟨["you"], []⟩ _ _ _ _ rfl rfl
  exact ⟨⟨_, _, rfl, both.1, rfl, rfl⟩, serial.2 signedDocument kennelTour kennelRoot [] ⟨[], []⟩
    [] ⟨[], []⟩ rfl⟩

end GraphQL
