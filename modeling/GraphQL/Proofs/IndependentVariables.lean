import GraphQL.Proofs.ComparedCoercions
import GraphQL.Proofs.FiniteDefaults
import GraphQL.Proofs.SettledInputs
import GraphQL.Proofs.Steady

/-!
Variables by themselves.

If the callbacks of scalars leave the context alone, what becomes of a variable is settled by its
definition and its own input: it has a value, or it is left out as absent, or it fails. The values
and errors of an operation are these outcomes, one after another, so a variable is the same whatever
other variables are declared, given or fail.
-/

namespace GraphQL

variable {σ : Type} {executor : Executor σ}

/-- The callbacks that read a scalar have no effect on the context. -/
structure ScalarHooks.Quiet (hooks : ScalarHooks σ) : Prop where
  parseValue : ∀ value, (keepLaw fun context : σ => context).holds (hooks.parseValue value)
  parseLiteral : ∀ literal, (keepLaw fun context : σ => context).holds (hooks.parseLiteral literal)

/-- What a variable comes to by itself, given what its own input is. -/
def Executor.ownOutcome (executor : Executor σ) (declared : VariableDefinition)
    (input : Option Value) (context : σ) : Option (Except InputError (Option Value)) :=
  outcome (executor.coerceVariable (input.map (declared.name.node, ·)).toList declared) context

/-- The value of a variable, or the default in its place, while others stand for some values. -/
def Executor.filling (executor : Executor σ) (values : Object) (declared : VariableDefinition)
    (input : Option Value) : Coercion σ Value :=
  executor.givenOrDefault (executor.coerceLiteral values) declared.type.node declared.default
    (input.map (executor.coerceInput values))

/-- What a variable is filled with before it is checked to be there. -/
def Executor.FilledWith (executor : Executor σ) (declared : VariableDefinition)
    (input : Option Value) (context : σ) (value : Value) : Prop :=
  executor.filling [] declared input context = some (.ok value, context)

/-- The three ways in which a variable may end. -/
inductive Executor.Decides (executor : Executor σ) (declared : VariableDefinition)
    (input : Option Value) (context : σ) : Except InputError (Option Value) → Prop where
  | entry {value} (filled : executor.FilledWith declared input context value)
      (present : executor.isNullish value = false) :
      Decides executor declared input context (.ok (some value))
  | absent {value} (filled : executor.FilledWith declared input context value)
      (nullish : executor.isNullish value = true)
      (optional : declared.type.node.isNonNull = false) :
      Decides executor declared input context (.ok none)
  | failure (error : InputError) : Decides executor declared input context (.error error)

/-- The values and the journal that variables make with their outcomes. -/
def Journal.gather (journal : Journal σ) (place : Position)
    (outcomes : List (VariableDefinition × Except InputError (Option Value))) :
    Except Bubble Object × Journal σ :=
  (.ok (outcomes.filterMap fun entry => (valueLeft? entry.2).map (entry.1.name.node, ·)),
    { journal with
      errors := journal.errors ++ outcomes.flatMap fun entry => variableErrors place entry.2 })

/-- A variable asks for no input but its own. -/
theorem coerce_variable_own (inputs : Object) (declared : VariableDefinition) :
    executor.coerceVariable inputs declared =
      executor.coerceVariable
        ((inputs.get? declared.name.node).map (declared.name.node, ·)).toList declared := by
  have own : Object.get? ((inputs.get? declared.name.node).map (declared.name.node, ·)).toList
      declared.name.node = inputs.get? declared.name.node := by
    cases inputs.get? declared.name.node with
    | none => rfl
    | some value => simp [Object.get?]
  rw [Executor.coerceVariable, Executor.coerceVariable, own]

/-- There are no variables in constants, so it does not matter which of them stand for what. -/
theorem filling_same (constants : executor.schema.ConstantDefaults) {declared : VariableDefinition}
    (constant : ∀ literal ∈ declared.default, literal.node.Constant) (input : Option Value)
    (values : Object) :
    executor.filling values declared input = executor.filling [] declared input := by
  have inputs : executor.coerceInput values = executor.coerceInput [] :=
    funext fun value => funext fun type =>
      input_same_under_variables constants values [] value type
  have literals : executor.orDefault (executor.coerceLiteral values) declared.type.node
      declared.default =
        executor.orDefault (executor.coerceLiteral []) declared.type.node declared.default := by
    funext value
    cases written : declared.default with
    | none => rfl
    | some literal =>
        rw [Executor.orDefault, Executor.orDefault,
          constant_literal_same constants values [] (constant literal written)]
  rw [Executor.filling, Executor.filling, given_or_default_eq, given_or_default_eq, inputs,
    literals]

section Quiet

variable (quiet : ∀ name, ∀ hooks ∈ executor.customScalar? name, hooks.Quiet)

include quiet

theorem quiet_reads : (keepLaw fun context : σ => context).Reads executor fun _ => True where
  closed _ _ _ _ _ _ := trivial
  parseValue name _ hooks custom := (quiet name hooks custom).parseValue
  parseLiteral name _ hooks custom := (quiet name hooks custom).parseLiteral

theorem coerce_variable_apply (inputs : Object) (declared : VariableDefinition) (context : σ) :
    executor.coerceVariable inputs declared context =
      (executor.ownOutcome declared (inputs.get? declared.name.node) context).map (·, context) := by
  have kept := ActionLaw.coerce_variable (quiet_reads quiet) inputs declared trivial context
  rw [Executor.ownOutcome, outcome, ← coerce_variable_own]
  cases ran : executor.coerceVariable inputs declared context with
  | none => rfl
  | some ended =>
      obtain ⟨result, later⟩ := ended
      rw [show later = context from kept result later ran]
      rfl

/-- A variable more adds its own outcome, in front of the others. -/
theorem coerce_variables_step (inputs : Object) (place : Position) (declared : VariableDefinition)
    (rest : List VariableDefinition) (journal : Journal σ) :
    executor.coerceVariables inputs place (declared :: rest) journal =
      (executor.ownOutcome declared (inputs.get? declared.name.node) journal.context).bind
        fun result =>
          (executor.coerceVariables inputs place rest
              { journal with errors := journal.errors ++ variableErrors place result }).map
            fun ended => (ended.1.map fun others =>
              ((valueLeft? result).map (declared.name.node, ·)).toList ++ others, ended.2) := by
  have unchanged (ended : Option (Except Bubble Object × Journal σ)) :
      ended.map (fun ended => (ended.1.map fun others : Object => others, ended.2)) = ended := by
    cases ended with
    | none => rfl
    | some ended => obtain ⟨result, later⟩ := ended; cases result <;> rfl
  rw [Executor.coerceVariables, Action.bind_apply, Completion.observe_apply,
    coerce_variable_apply quiet]
  cases executor.ownOutcome declared (inputs.get? declared.name.node) journal.context with
  | none => rfl
  | some result =>
      cases result with
      | error error =>
          change (Completion.record ⟨[], place⟩ (.ofMessage error.message) >>= fun _ =>
            executor.coerceVariables inputs place rest) journal = _
          rw [Action.bind_apply, Completion.record_apply]
          exact (unchanged _).symm
      | ok found =>
          cases found with
          | none =>
              rw [Option.bind_some, show variableErrors place (.ok none) = [] from rfl,
                List.append_nil]
              exact (unchanged _).symm
          | some value =>
              rw [Option.bind_some, show variableErrors place (.ok (some value)) = [] from rfl,
                List.append_nil]
              change (executor.coerceVariables inputs place rest >>= fun others : Object =>
                pure ((declared.name.node, value) :: others : Object)) journal = _
              rw [Action.bind_apply]
              cases executor.coerceVariables inputs place rest journal with
              | none => rfl
              | some ended => obtain ⟨result, later⟩ := ended; cases result <;> rfl

/-- The values and errors of variables are those that the variables have by themselves, in order. -/
theorem coerce_variables_gathered (inputs : Object) (place : Position)
    (definitions : List VariableDefinition) (journal : Journal σ) :
    executor.coerceVariables inputs place definitions journal =
      (definitions.mapM fun declared =>
        (executor.ownOutcome declared (inputs.get? declared.name.node) journal.context).map
          (declared, ·)).map (journal.gather place) := by
  induction definitions generalizing journal with
  | nil => simp [Executor.coerceVariables, Journal.gather]; rfl
  | cons declared rest ih =>
      rw [coerce_variables_step quiet, List.mapM_cons]
      cases executor.ownOutcome declared (inputs.get? declared.name.node) journal.context with
      | none => rfl
      | some result =>
          rw [Option.bind_some, ih]
          simp only [Option.map_some, Option.bind_eq_bind, Option.bind_some]
          cases rest.mapM fun declared =>
            (executor.ownOutcome declared (inputs.get? declared.name.node) journal.context).map
              (declared, ·) with
          | none => rfl
          | some outcomes =>
              cases left : valueLeft? result <;>
                simp [Journal.gather, left, Except.map]

theorem filling_quiet (declared : VariableDefinition) (input : Option Value) :
    (keepLaw fun context : σ => context).holds (executor.filling [] declared input) := by
  have reads := quiet_reads quiet
  refine ActionLaw.given_or_default _ executor (ActionLaw.coerce_literal reads []) trivial _ ?_
  intro coerce given
  obtain ⟨value, -, rfl⟩ := Option.map_eq_some_iff.mp given
  exact ActionLaw.coerce_input reads [] value

/-- A variable that ends does so in one of three ways. -/
theorem own_outcome_decided {declared : VariableDefinition} {input : Option Value} {context : σ}
    {result : Except InputError (Option Value)}
    (ended : executor.ownOutcome declared input context = some result) :
    executor.Decides declared input context result := by
  cases result with
  | error error => exact .failure error
  | ok found =>
      obtain ⟨⟨_, later⟩, ran, rfl⟩ := Option.map_eq_some_iff.mp ended
      have own : Object.get? (input.map (declared.name.node, ·)).toList declared.name.node =
          input := by
        cases input with
        | none => rfl
        | some value => simp [Object.get?]
      have typed := coerced_variable_input ran
      rw [coerce_variable_eq typed, own] at ran
      rcases Action.bind_finished ran with ⟨value, middle, started, rest⟩ | ⟨_, impossible, -⟩
      case inr => cases impossible
      rw [Action.adapt_apply, Option.map_eq_some_iff] at started
      obtain ⟨⟨reached, after⟩, filled, same⟩ := started
      cases reached with
      | error error => cases same
      | ok filling =>
          cases same
          obtain rfl : after = context := filling_quiet quiet declared input _ _ _ filled
          split at rest
          · rename_i nullish
            split at rest
            · cases rest
            · rename_i optional
              cases rest
              exact .absent filled nullish (by simpa using optional)
          · rename_i present
            cases rest
            exact .entry filled (by simpa using present)

end Quiet

section Gathering

variable {outcomes : List (VariableDefinition × Except InputError (Option Value))}

/-- The outcomes of variables are theirs, in the order of the variables. -/
theorem gathered_outcomes {definitions : List VariableDefinition}
    {own : VariableDefinition → Option (Except InputError (Option Value))}
    (found : (definitions.mapM fun declared => (own declared).map (declared, ·)) =
      some outcomes) :
    outcomes.map Prod.fst = definitions ∧ ∀ entry ∈ outcomes, own entry.1 = some entry.2 := by
  induction definitions generalizing outcomes with
  | nil =>
      obtain rfl : outcomes = [] := by simpa using found.symm
      exact ⟨rfl, List.forall_mem_nil _⟩
  | cons declared rest ih =>
      simp only [List.mapM_cons, Option.bind_eq_bind, Option.bind_eq_some_iff,
        Option.map_eq_some_iff] at found
      obtain ⟨_, ⟨result, first, rfl⟩, others, tail, same⟩ := found
      obtain rfl : (declared, result) :: others = outcomes := by simpa using same
      obtain ⟨firsts, each⟩ := ih tail
      exact ⟨by rw [List.map_cons, firsts], List.forall_mem_cons.mpr ⟨first, each⟩⟩

/-- Among the values of variables the name of each stands for what its outcome left. -/
theorem gathered_value (distinct : (outcomes.map fun entry => entry.1.name.node).Nodup)
    {entry : VariableDefinition × Except InputError (Option Value)} (member : entry ∈ outcomes) :
    Object.get? (outcomes.filterMap fun entry =>
      (valueLeft? entry.2).map (entry.1.name.node, ·)) entry.1.name.node = valueLeft? entry.2 := by
  induction outcomes with
  | nil => cases member
  | cons first rest ih =>
      obtain ⟨fresh, distinct⟩ := List.nodup_cons.mp distinct
      rcases List.mem_cons.mp member with rfl | later
      · have absent : Object.get? (rest.filterMap fun entry =>
            (valueLeft? entry.2).map (entry.1.name.node, ·)) entry.1.name.node = none := by
          rw [Object.get?, List.lookup_eq_none_iff]
          intro pair inside
          obtain ⟨other, at_rest, left⟩ := List.mem_filterMap.mp inside
          obtain ⟨value, -, rfl⟩ := Option.map_eq_some_iff.mp left
          have differs : entry.1.name.node ≠ other.1.name.node := fun same =>
            fresh (List.mem_map.mpr ⟨other, at_rest, same.symm⟩)
          simpa using differs
        cases left : valueLeft? entry.2 with
        | none => rw [List.filterMap_cons, left, Option.map_none, absent]
        | some value => simp [left, Object.get?]
      · have differs : (entry.1.name.node == first.1.name.node) = false :=
          beq_eq_false_iff_ne.mpr fun same => fresh (List.mem_map.mpr ⟨entry, later, same⟩)
        rw [← ih distinct later, List.filterMap_cons]
        cases valueLeft? first.2 with
        | none => rfl
        | some value => simp [Object.get?, List.lookup_cons, differs]

end Gathering

/--
What a run of variables shows of one of them: its value, or that it has none, and its errors among
those that are new.
-/
structure ShowsOutcome (place : Position) (before : List ExecutionError) (values : Object)
    (later : Journal σ) (declared : VariableDefinition)
    (result : Except InputError (Option Value)) : Prop where
  value : values.get? declared.name.node = valueLeft? result
  errors : ∃ others more, later.errors = before ++ (others ++ (variableErrors place result ++ more))

/-- A run shows of each variable what the variable comes to by itself. -/
theorem coerce_variables_show
    (quiet : ∀ name, ∀ hooks ∈ executor.customScalar? name, hooks.Quiet) {inputs : Object}
    {place : Position} {definitions : List VariableDefinition}
    (distinct : (definitions.map fun declared => declared.name.node).Nodup) {values : Object}
    {journal later : Journal σ}
    (finished : executor.coerceVariables inputs place definitions journal =
      some (.ok values, later)) {declared : VariableDefinition} (member : declared ∈ definitions) :
    ∃ result, executor.ownOutcome declared (inputs.get? declared.name.node) journal.context =
        some result ∧ ShowsOutcome place journal.errors values later declared result := by
  rw [coerce_variables_gathered quiet, Option.map_eq_some_iff] at finished
  obtain ⟨outcomes, found, same⟩ := finished
  obtain ⟨firsts, each⟩ := gathered_outcomes found
  cases same
  rw [← firsts] at member distinct
  obtain ⟨entry, inside, rfl⟩ := List.mem_map.mp member
  rw [List.map_map] at distinct
  obtain ⟨before, after, rfl⟩ := List.append_of_mem inside
  refine ⟨entry.2, each entry inside, gathered_value distinct inside, ?_⟩
  refine ⟨before.flatMap fun entry => variableErrors place entry.2,
    after.flatMap fun entry => variableErrors place entry.2, ?_⟩
  rw [List.flatMap_append, List.flatMap_cons]

/--
The variables of an operation come to values and errors one by one, in the order in which they are
declared, each in one of three ways. How one of them ends does not depend on the other variables,
their inputs or what they stand for, nor on anything of the executor but how it reads inputs.
-/
theorem variables_are_independent
    (quiet : ∀ name, ∀ hooks ∈ executor.customScalar? name, hooks.Quiet) :
    (∀ (operation : Located Operation) (inputs : Object) (journal : Journal σ),
      executor.coerceVariables inputs (operationPlace operation) operation.node.declaredVariables
          journal =
        (operation.node.declaredVariables.mapM fun declared =>
          (executor.ownOutcome declared (inputs.get? declared.name.node) journal.context).map
            (declared, ·)).map (journal.gather (operationPlace operation))) ∧
      (∀ declared input context result,
        executor.ownOutcome declared input context = some result →
          executor.Decides declared input context result) ∧
      (executor.FiniteDefaults → (∀ name, ∀ hooks ∈ executor.scalar? name, hooks.ReadsEnd) →
        ∀ declared input context, (executor.ownOutcome declared input context).isSome = true) ∧
      (∀ other, executor.ReadsLike other → other.ownOutcome = executor.ownOutcome) ∧
      (executor.schema.Accepted → ∀ declared : VariableDefinition,
        (∀ literal ∈ declared.default, literal.node.Constant) → ∀ input values,
          executor.filling values declared input = executor.filling [] declared input) ∧
      ∀ (operation operation' : Located Operation) (inputs inputs' values values' : Object)
        (journal journal' later later' : Journal σ), journal.context = journal'.context →
        operation.node.DistinctVariables → operation'.node.DistinctVariables →
        executor.coerceVariables inputs (operationPlace operation)
          operation.node.declaredVariables journal = some (.ok values, later) →
        executor.coerceVariables inputs' (operationPlace operation')
          operation'.node.declaredVariables journal' = some (.ok values', later') →
        ∀ declared ∈ operation.node.declaredVariables,
          declared ∈ operation'.node.declaredVariables →
          inputs.get? declared.name.node = inputs'.get? declared.name.node →
          ∃ result,
            ShowsOutcome (operationPlace operation) journal.errors values later declared result ∧
              ShowsOutcome (operationPlace operation') journal'.errors values' later' declared
                result := by
  refine ⟨fun _ _ _ => coerce_variables_gathered quiet _ _ _ _,
    fun _ _ _ _ => own_outcome_decided quiet, fun finite returns declared input context => ?_,
    fun other alike => ?_, fun accepted declared constant input values => ?_, ?_⟩
  · rw [Executor.ownOutcome, outcome, Option.isSome_map]
    exact coerce_variable_ends returns finite _ declared context
  · funext declared input context
    rw [Executor.ownOutcome, Executor.ownOutcome, coerce_variable_same alike]
  · exact filling_same (Schema.accepted_constant_defaults accepted) constant input values
  · intro operation operation' inputs inputs' values values' journal journal' later later' here
      distinct distinct' finished finished' declared member member' same
    obtain ⟨result, own, shown⟩ := coerce_variables_show quiet distinct finished member
    obtain ⟨result', own', shown'⟩ := coerce_variables_show quiet distinct' finished' member'
    rw [same, here, own'] at own
    cases own
    exact ⟨_, shown, shown'⟩

/-! A variable with a default, alone and behind one that is missing. -/

def dogVariable : VariableDefinition :=
  ⟨.unplaced "dog", .unplaced (.named "String"), some (.unplaced (.string "Rex"))⟩

def ownerVariable : VariableDefinition :=
  ⟨.unplaced "owner", .unplaced (.nonNull (.named "String")), none⟩

def operationWith (definitions : List VariableDefinition) : Located Operation :=
  .unplaced ⟨.query, none, some (.unplaced definitions), none, []⟩

/-- The dog is the same whether or not there is an owner to be missed. -/
theorem missing_owner_leaves_dog :
    ∃ (later alone : Journal Unit) (result : Except InputError (Option Value)),
      kennel.coerceVariables [] (operationPlace (operationWith [ownerVariable, dogVariable]))
          (operationWith [ownerVariable, dogVariable]).node.declaredVariables ⟨(), []⟩ =
        some (.ok [("dog", .string "Rex")], later) ∧
      later.errors.length = 1 ∧
      ShowsOutcome (operationPlace (operationWith [ownerVariable, dogVariable])) []
        [("dog", .string "Rex")] later dogVariable result ∧
      ShowsOutcome (operationPlace (operationWith [dogVariable])) [] [("dog", .string "Rex")] alone
        dogVariable result := by
  have quiet : ∀ name, ∀ hooks ∈ kennel.customScalar? name, hooks.Quiet := by
    intro name hooks custom
    rw [Executor.customScalar?] at custom
    split at custom <;> cases custom
  have both : kennel.coerceVariables []
      (operationPlace (operationWith [ownerVariable, dogVariable]))
      (operationWith [ownerVariable, dogVariable]).node.declaredVariables ⟨(), []⟩ =
        some (.ok [("dog", .string "Rex")], ⟨(), [⟨.origin, [], .ofMessage
          (InputError.missingVariable "owner" (.nonNull (.named "String"))).message⟩]⟩) := rfl
  have one : kennel.coerceVariables [] (operationPlace (operationWith [dogVariable]))
      (operationWith [dogVariable]).node.declaredVariables ⟨(), []⟩ =
        some (.ok [("dog", .string "Rex")], ⟨(), []⟩) := rfl
  obtain ⟨-, -, -, -, -, same⟩ := variables_are_independent quiet
  obtain ⟨result, here, there⟩ := same (operationWith [ownerVariable, dogVariable])
    (operationWith [dogVariable]) [] [] _ _ _ _ _ _ rfl
    (by unfold Operation.DistinctVariables; decide)
    (by unfold Operation.DistinctVariables; decide) both one dogVariable
    (List.mem_cons_of_mem _ List.mem_cons_self) List.mem_cons_self rfl
  exact ⟨_, _, result, both, rfl, here, there⟩

end GraphQL
