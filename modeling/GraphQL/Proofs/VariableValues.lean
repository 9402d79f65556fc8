import GraphQL.Proofs.Action

/-!
The values of the variables of an operation.

Variables are coerced one after another. One that is absent or fails is left out, so a name stands
for the value of the variable of that name and for nothing else.
-/

namespace GraphQL

variable {σ ε : Type} {executor : Executor σ}

/-- What becomes of a variable: a failure leaves it out. -/
def valueLeft? : Except ε (Option Value) → Option Value
  | .ok found => found
  | .error _ => none

/-- What the coercion of a variable adds to the errors. -/
def variableErrors (place : Position) : Except InputError (Option Value) → List ExecutionError
  | .ok _ => []
  | .error error => [⟨place, [], .ofMessage error.message⟩]

/-- The first variable is coerced, and then the others are; a failure is noted in between. -/
theorem coerce_variables_cons {inputs : Object} {place : Position}
    {definition : VariableDefinition} {rest : List VariableDefinition} {values : Object}
    {journal later : Journal σ}
    (finished : executor.coerceVariables inputs place (definition :: rest) journal =
      some (.ok values, later)) :
    ∃ result after middle others,
      executor.coerceVariable inputs definition journal.context = some (result, after) ∧
        middle.errors = journal.errors ++ variableErrors place result ∧
        executor.coerceVariables inputs place rest middle = some (.ok others, later) ∧
        values = ((valueLeft? result).map (definition.name.node, ·)).toList ++ others := by
  rw [Executor.coerceVariables] at finished
  rcases Action.bind_finished finished with ⟨seen, middle, ran, next⟩ | ⟨_, impossible, -⟩
  · obtain ⟨outcome, context, same, coerced, rfl⟩ := Completion.observe_finished ran
    obtain rfl : seen = outcome := Except.ok.inj same
    match seen with
    | .error error =>
        rcases Action.bind_finished next with ⟨_, noted, record, tail⟩ | ⟨_, impossible, -⟩
        · cases record
          exact ⟨_, _, _, values, coerced, rfl, tail, rfl⟩
        · cases impossible
    | .ok none => exact ⟨_, _, ⟨context, _⟩, values, coerced, (List.append_nil _).symm, next, rfl⟩
    | .ok (some value) =>
        rcases Action.bind_finished next with ⟨others, last, tail, done⟩ | ⟨_, impossible, -⟩
        · cases done
          exact ⟨_, _, ⟨context, _⟩, others, coerced, (List.append_nil _).symm, tail, rfl⟩
        · cases impossible
  · cases impossible

/-- Every value is that of a variable which the operation declares. -/
theorem variable_values_declared {inputs : Object} {place : Position}
    {definitions : List VariableDefinition} {values : Object} {journal later : Journal σ}
    (finished : executor.coerceVariables inputs place definitions journal =
      some (.ok values, later)) :
    ∀ entry ∈ values, ∃ declared ∈ definitions, declared.name.node = entry.1 ∧
      ∃ before after, executor.coerceVariable inputs declared before =
        some (.ok (some entry.2), after) := by
  induction definitions generalizing values journal with
  | nil =>
      cases finished
      intro entry absent
      cases absent
  | cons definition rest ih =>
      obtain ⟨result, after, middle, others, coerced, -, tail, rfl⟩ :=
        coerce_variables_cons finished
      intro entry inside
      rcases List.mem_append.mp inside with first | other
      · obtain ⟨value, left, rfl⟩ := Option.map_eq_some_iff.mp (Option.mem_toList.mp first)
        have succeeded : result = .ok (some value) := by
          cases result with
          | error _ => cases left
          | ok found => rw [← left]; rfl
        exact ⟨definition, List.mem_cons_self, rfl, _, after, succeeded ▸ coerced⟩
      · obtain ⟨declared, member, described⟩ := ih tail entry other
        exact ⟨declared, List.mem_cons_of_mem _ member, described⟩

/-- The name of the first variable stands for its value, the other names for those of the others. -/
theorem first_value_found {inputs : Object} {place : Position} {definition : VariableDefinition}
    {rest : List VariableDefinition}
    (distinct : ((definition :: rest).map fun definition => definition.name.node).Nodup)
    {others : Object} {journal later : Journal σ}
    (tail : executor.coerceVariables inputs place rest journal = some (.ok others, later))
    (found : Option Value) :
    let values : Object := (found.map (definition.name.node, ·)).toList ++ others
    values.get? definition.name.node = found ∧
      ∀ other ∈ rest, values.get? other.name.node = others.get? other.name.node := by
  obtain ⟨fresh, distinct⟩ := List.nodup_cons.mp distinct
  simp only [Object.get?, List.lookup_append]
  constructor
  · have absent : others.lookup definition.name.node = none := by
      rw [List.lookup_eq_none_iff]
      intro entry inside
      obtain ⟨other, at_rest, named, -⟩ := variable_values_declared tail entry inside
      have differs : definition.name.node ≠ entry.1 := fun same =>
        fresh (List.mem_map.mpr ⟨other, at_rest, named.trans same.symm⟩)
      simpa using differs
    cases found <;> simp [absent]
  · intro other member
    have differs : (other.name.node == definition.name.node) = false :=
      beq_eq_false_iff_ne.mpr fun same => fresh (List.mem_map.mpr ⟨other, member, same⟩)
    cases found <;> simp [List.lookup_cons, differs]

/-- The value of a variable is what coercing it left; names are declared once. -/
theorem variable_value_coerced {inputs : Object} {place : Position}
    {definitions : List VariableDefinition}
    (distinct : (definitions.map fun definition => definition.name.node).Nodup)
    {values : Object} {journal later : Journal σ}
    (finished : executor.coerceVariables inputs place definitions journal =
      some (.ok values, later))
    {declared : VariableDefinition} (member : declared ∈ definitions) :
    ∃ before result after, executor.coerceVariable inputs declared before = some (result, after) ∧
      values.get? declared.name.node = valueLeft? result := by
  induction definitions generalizing values journal with
  | nil => cases member
  | cons definition rest ih =>
      obtain ⟨result, after, middle, others, coerced, -, tail, rfl⟩ :=
        coerce_variables_cons finished
      obtain ⟨here, elsewhere⟩ := first_value_found distinct tail (valueLeft? result)
      rcases List.mem_cons.mp member with rfl | member
      · exact ⟨_, result, after, coerced, here⟩
      · obtain ⟨before, result', after', coerced', found⟩ :=
          ih (List.nodup_cons.mp distinct).2 tail member
        exact ⟨before, result', after', coerced', (elsewhere _ member).trans found⟩

end GraphQL
