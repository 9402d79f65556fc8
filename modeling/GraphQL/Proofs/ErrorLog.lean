import GraphQL.Proofs.Soundness

/-!
What executions write into the journal.

Errors are only ever appended. A step that settles a value, or resolves a field, records at most one
error, at its own field, and then its value is null. A bubble has always recorded an error before it
starts to rise.
-/

namespace GraphQL

variable {σ : Type} {executor : Executor σ} {scope : RequestScope}

/-- The journal gained some errors at its end. -/
def Journal.Gains (journal : Journal σ) (added : List ExecutionError) (later : Journal σ) : Prop :=
  later.errors = journal.errors ++ added

namespace Journal.Gains

variable {journal middle later : Journal σ} {first second : List ExecutionError}

theorem nothing (journal : Journal σ) : journal.Gains [] journal := by
  simp [Gains]

theorem trans (earlier : journal.Gains first middle) (next : middle.Gains second later) :
    journal.Gains (first ++ second) later := by
  rw [Gains] at *
  rw [next, earlier, List.append_assoc]

theorem note (earlier : journal.Gains first middle) (path : FieldPath) (error : FieldError) :
    journal.Gains (first ++ [⟨path.location, path.keys, error⟩]) (middle.note path error) :=
  earlier.trans rfl

end Journal.Gains

/-- Either nothing is recorded, or one error at a field whose value is null. -/
def OneErrorAtMost (path : FieldPath) (journal : Journal σ) (value : Value) (later : Journal σ) :
    Prop :=
  journal.Gains [] later ∨
    value = .null ∧ ∃ error, journal.Gains [⟨path.location, path.keys, error⟩] later

theorem Settles.one_error_at_most {field : FieldScope} {type : TypeRef} {value result : Value}
    {journal later : Journal σ} (settles : Settles executor field type value journal result later) :
    OneErrorAtMost field.path journal result later := by
  cases settles with
  | builtin => exact .inl (.nothing journal)
  | plain => exact .inl (.nothing journal)
  | written => exact .inl (.nothing journal)
  | enum => exact .inl (.nothing journal)
  | unwritten => exact .inr ⟨rfl, _, rfl⟩
  | notAList => exact .inr ⟨rfl, _, rfl⟩
  | undetermined => exact .inr ⟨rfl, _, rfl⟩
  | impossible => exact .inr ⟨rfl, _, rfl⟩
  | notAnOutputType => exact .inr ⟨rfl, _, rfl⟩
  | unknownType => exact .inr ⟨rfl, _, rfl⟩

theorem Resolves.one_error_at_most {object : ObjectType} {source value : Value} {path : FieldPath}
    {group : FieldGroup} {definition : FieldDefinition} {journal later : Journal σ}
    (resolves : Resolves executor scope object source path group definition journal value later) :
    OneErrorAtMost (group.scope object path).path journal value later := by
  cases resolves with
  | returned => exact .inl (.nothing journal)
  | failed => exact .inr ⟨rfl, _, rfl⟩

theorem OneErrorAtMost.gains {path : FieldPath} {value : Value} {journal later : Journal σ}
    (one : OneErrorAtMost path journal value later) : ∃ added, journal.Gains added later := by
  rcases one with nothing | ⟨-, error, gained⟩
  · exact ⟨[], nothing⟩
  · exact ⟨_, gained⟩

/-- Journals only grow, and whatever bubbles has made them grow. -/
theorem Runs.gains {work : Work} {journal later : Journal σ} {result : Except Bubble Value}
    (runs : Runs executor scope work journal result later) :
    ∃ added, journal.Gains added later ∧ (result = .error .bubble → added ≠ []) := by
  induction runs with
  | nullable _ _ ih => exact ih.imp fun _ gained => ⟨gained.1, by simp⟩
  | absorbed _ _ ih => exact ih.imp fun _ gained => ⟨gained.1, by simp⟩
  | present _ _ ih => exact ih
  | violated _ ih =>
      obtain ⟨added, gained, -⟩ := ih
      exact ⟨_, gained.note _ _, by simp⟩
  | passed _ ih => exact ih
  | absent => exact ⟨[], .nothing _, by simp⟩
  | settled _ settles =>
      obtain ⟨added, gained⟩ := settles.one_error_at_most.gains
      exact ⟨added, gained, by simp⟩
  | nested _ _ ih => exact ih
  | list _ _ ih => exact ih
  | object _ _ _ ih => exact ih
  | noItems => exact ⟨[], .nothing _, by simp⟩
  | item _ _ head tail =>
      obtain ⟨first, gained, -⟩ := head
      obtain ⟨second, gained', -⟩ := tail
      exact ⟨_, gained.trans gained', by simp⟩
  | itemBubbled _ ih => exact ih
  | itemsBubbled _ _ head tail =>
      obtain ⟨first, gained, -⟩ := head
      obtain ⟨second, gained', some⟩ := tail
      exact ⟨_, gained.trans gained', fun _ => by simp [some rfl]⟩
  | noGroups => exact ⟨[], .nothing _, by simp⟩
  | undefinedField _ _ ih => exact ih
  | field _ resolves _ _ head tail =>
      obtain ⟨start, gained⟩ := resolves.one_error_at_most.gains
      obtain ⟨first, gained', -⟩ := head
      obtain ⟨second, gained'', -⟩ := tail
      exact ⟨_, gained.trans (gained'.trans gained''), by simp⟩
  | fieldBubbled _ resolves _ head =>
      obtain ⟨start, gained⟩ := resolves.one_error_at_most.gains
      obtain ⟨first, gained', some⟩ := head
      exact ⟨_, gained.trans gained', fun _ => by simp [some rfl]⟩
  | fieldsBubbled _ resolves _ _ head tail =>
      obtain ⟨start, gained⟩ := resolves.one_error_at_most.gains
      obtain ⟨first, gained', -⟩ := head
      obtain ⟨second, gained'', some⟩ := tail
      exact ⟨_, gained.trans (gained'.trans gained''), fun _ => by simp [some rfl]⟩

/-- What was recorded stays. -/
theorem Runs.errors_subset {work : Work} {journal later : Journal σ}
    {result : Except Bubble Value} (runs : Runs executor scope work journal result later) :
    journal.errors ⊆ later.errors := by
  obtain ⟨added, gained, -⟩ := runs.gains
  rw [gained]
  exact List.subset_append_left _ _

/-- The data of selections on a root type comes from a derivation. -/
theorem root_data_runs {depth : Nat} {operation : Located Operation} {root : ObjectType}
    {journal later : Journal σ} {result : Except Bubble Value}
    (finished : Executor.rootData (executor.runWithin depth scope) operation root journal =
      some (result, later)) :
    ∃ outcome, result = .ok (orNull outcome) ∧
      Runs executor scope
        (.groups root (.object []) ⟨[], operation.span.start⟩
          (executor.groupsBelow scope root [operation.node.selections]))
        journal outcome later := by
  rw [Executor.rootData, Completion.absorb_apply, Option.map_eq_some_iff] at finished
  obtain ⟨⟨outcome, reached⟩, ran, absorbed⟩ := finished
  cases absorbed
  have derived := Executor.run_within_runs executor depth scope
  rcases Action.bind_finished ran with ⟨fields, middle, executed, done⟩ | ⟨_, rfl, executed⟩
  · cases done
    exact ⟨.ok (.object fields), rfl, derived _ _ _ _ _ _ _ executed⟩
  · exact ⟨_, rfl, derived _ _ _ _ _ _ _ executed⟩

/-- Variables always get their values, and their errors belong to no field. -/
theorem coerce_variables_gains {inputs : Object} {place : Position}
    {definitions : List VariableDefinition} {journal later : Journal σ}
    {result : Except Bubble Object}
    (finished : executor.coerceVariables inputs place definitions journal = some (result, later)) :
    ∃ values added, result = .ok values ∧ journal.Gains added later ∧
      ∀ error ∈ added, error.path = [] := by
  induction definitions generalizing journal result with
  | nil =>
      cases finished
      exact ⟨[], [], rfl, .nothing _, by simp⟩
  | cons definition rest ih =>
      rw [Executor.coerceVariables] at finished
      rcases Action.bind_finished finished with ⟨seen, middle, ran, next⟩ | ⟨_, -, ran⟩
      · obtain ⟨outcome, context, same, coerced, rfl⟩ := Completion.observe_finished ran
        obtain rfl : seen = outcome := Except.ok.inj same
        match seen with
        | .error error =>
            obtain ⟨values, added, same, gained, pathless⟩ := ih next
            have noted : journal.Gains [⟨place, [], .ofMessage error.message⟩]
              ((journal.resume context).note ⟨[], place⟩ (.ofMessage error.message)) := rfl
            exact ⟨values, _, same, noted.trans gained, by simpa using pathless⟩
        | .ok none =>
            obtain ⟨values, added, same, gained, pathless⟩ := ih next
            exact ⟨values, added, same, gained, pathless⟩
        | .ok (some value) =>
            rcases Action.bind_finished next with ⟨others, last, tail, done⟩ | ⟨_, rfl, tail⟩
            · cases done
              obtain ⟨values, added, same, gained, pathless⟩ := ih tail
              exact ⟨_, added, rfl, gained, pathless⟩
            · obtain ⟨values, added, impossible, -⟩ := ih tail
              cases impossible
      · obtain ⟨outcome, context, impossible, -⟩ := Completion.observe_finished ran
        cases impossible

end GraphQL
