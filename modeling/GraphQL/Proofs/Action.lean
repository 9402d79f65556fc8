import GraphQL.Execution.Response

/-!
How actions run, read off their results.

An action that is bound to another finishes in one of two ways: the first part failed, or both parts
ran one after the other. What the values of the first part are sure of, the second one may rely on.
The primitives below do nothing to the errors of a journal but append one.
-/

namespace GraphQL

variable {σ ε ε' α β : Type}

namespace Action

theorem bind_apply (action : Action σ ε α) (next : α → Action σ ε β) (context : σ) :
    (action >>= next) context =
      match action context with
      | none => none
      | some (.ok value, later) => next value later
      | some (.error error, later) => some (.error error, later) := by
  change ExceptT.bind action next context = _
  simp only [ExceptT.bind, ExceptT.mk, bind, StateT.bind]
  cases action context with
  | none => rfl
  | some outcome =>
      obtain ⟨result, later⟩ := outcome
      cases result <;> rfl

theorem adapt_apply (change : ε → ε') (action : Action σ ε α) (context : σ) :
    (ExceptT.adapt change action : Action σ ε' α) context =
      (action context).map fun outcome => (outcome.1.mapError change, outcome.2) := by
  change (Except.mapError change <$> (action : StateT σ Option (Except ε α))) context = _
  simp only [Functor.map, StateT.map]
  cases action context <;> rfl

/-- The two ways in which a bound action finishes. -/
theorem bind_finished {action : Action σ ε α} {next : α → Action σ ε β} {context later : σ}
    {result : Except ε β} (finished : (action >>= next) context = some (result, later)) :
    (∃ value middle, action context = some (.ok value, middle) ∧
        next value middle = some (result, later)) ∨
      ∃ error, result = .error error ∧ action context = some (.error error, later) := by
  rw [bind_apply] at finished
  cases ran : action context with
  | none => simp [ran] at finished
  | some outcome =>
      obtain ⟨first, middle⟩ := outcome
      cases first with
      | ok value =>
          simp only [ran] at finished
          exact .inl ⟨value, middle, rfl, finished⟩
      | error error =>
          simp only [ran, Option.some.injEq, Prod.mk.injEq] at finished
          obtain ⟨rfl, rfl⟩ := finished
          exact .inr ⟨error, rfl, rfl⟩

end Action

/-- Wherever an action succeeds, its value has a property. -/
structure Ensures (action : Action σ ε α) (property : α → Prop) : Prop where
  holds : ∀ context value later, action context = some (.ok value, later) → property value

namespace Ensures

variable {property goal : α → Prop}

theorem pure {value : α} (holds : property value) :
    Ensures (Pure.pure value : Action σ ε α) property where
  holds _ _ _ ran := by
    cases ran
    exact holds

theorem throw (error : ε) : Ensures (MonadExcept.throw error : Action σ ε α) property where
  holds _ _ _ ran := by cases ran

theorem unfinished : Ensures (GraphQL.unfinished : Action σ ε α) property where
  holds _ _ _ ran := by cases ran

theorem bind {action : Action σ ε α} {next : α → Action σ ε β} {result : β → Prop}
    (first : Ensures action property)
    (second : ∀ value, property value → Ensures (next value) result) :
    Ensures (action >>= next) result where
  holds _ _ _ ran := by
    rcases Action.bind_finished ran with ⟨middle, _, started, finished⟩ | ⟨_, impossible, -⟩
    · exact (second middle (first.holds _ _ _ started)).holds _ _ _ finished
    · cases impossible

theorem adapt (change : ε → ε') {action : Action σ ε α} (ensured : Ensures action property) :
    Ensures (ExceptT.adapt change action : Action σ ε' α) property where
  holds _ _ _ ran := by
    rw [Action.adapt_apply, Option.map_eq_some_iff] at ran
    obtain ⟨⟨result, after⟩, started, same⟩ := ran
    cases result with
    | error error => cases same
    | ok found =>
        cases same
        exact ensured.holds _ _ _ started

theorem mono {action : Action σ ε α} (ensured : Ensures action property)
    (weaker : ∀ value, property value → goal value) : Ensures action goal where
  holds context value later ran := weaker value (ensured.holds context value later ran)

/-- What any value of an action has. -/
theorem trivial (action : Action σ ε α) : Ensures action fun _ => True where
  holds _ _ _ _ := .intro

end Ensures

/-- The journal with one more error, at a field. -/
def Journal.note (journal : Journal σ) (path : FieldPath) (error : FieldError) : Journal σ :=
  { journal with errors := journal.errors ++ [⟨path.location, path.keys, error⟩] }

/-- A value, or null where there is a failure in its place. -/
def orNull : Except ε Value → Value
  | .ok value => value
  | .error _ => .null

namespace Completion

theorem record_apply (path : FieldPath) (error : FieldError) (journal : Journal σ) :
    record path error journal = some (.ok (), journal.note path error) := rfl

theorem null_because_apply (path : FieldPath) (error : CompletionError) (journal : Journal σ) :
    nullBecause path error journal =
      some (.ok .null, journal.note path (.ofMessage error.message)) := by
  rw [nullBecause, Action.bind_apply, record_apply]
  rfl

theorem observe_apply (action : Action σ ε α) (journal : Journal σ) :
    observe action journal =
      (action journal.context).map fun outcome =>
        (.ok outcome.1, { journal with context := outcome.2 }) := by
  rw [observe]
  cases action journal.context <;> rfl

/-- Observing never fails, and changes nothing but the context. -/
theorem observe_finished {action : Action σ ε α} {journal later : Journal σ}
    {result : Except Bubble (Except ε α)}
    (finished : observe action journal = some (result, later)) :
    ∃ outcome context, result = .ok outcome ∧ action journal.context = some (outcome, context) ∧
      later = { journal with context := context } := by
  rw [observe_apply, Option.map_eq_some_iff] at finished
  obtain ⟨⟨outcome, context⟩, ran, same⟩ := finished
  obtain ⟨rfl, rfl⟩ := Prod.mk.inj same
  exact ⟨outcome, context, rfl, ran, rfl⟩

theorem absorb_apply (completion : Completion σ Value) (journal : Journal σ) :
    absorb completion journal =
      (completion journal).map fun outcome => (.ok (orNull outcome.1), outcome.2) := by
  rw [absorb]
  cases completion journal with
  | none => rfl
  | some outcome =>
      obtain ⟨result, later⟩ := outcome
      cases result <;> rfl

end Completion

/-- What a place that may not be null makes of a result, and what it writes into the journal. -/
def FieldScope.demand (field : FieldScope) :
    Except Bubble Value × Journal σ → Except Bubble Value × Journal σ
  | (.ok value, journal) =>
      if value.isNull then
        (.error .bubble, journal.note field.path
          (.ofMessage (CompletionError.nullForNonNull field.typeName field.fieldName).message))
      else (.ok value, journal)
  | (.error .bubble, journal) => (.error .bubble, journal)

theorem FieldScope.required_apply (field : FieldScope) (completion : Completion σ Value)
    (journal : Journal σ) :
    field.required completion journal = (completion journal).map field.demand := by
  rw [required, Action.bind_apply]
  cases completion journal with
  | none => rfl
  | some outcome =>
      obtain ⟨result, later⟩ := outcome
      cases result with
      | error _ => rfl
      | ok value =>
          simp only [Option.map_some, demand]
          split
          · rw [Action.bind_apply, Completion.record_apply]
            rfl
          · rfl

/-- Where a value stands for null, its type does not matter. -/
theorem Executor.complete_bare_nullish (executor : Executor σ) (run : ObjectRunner σ)
    (field : FieldScope) (type : TypeRef) {value : Value}
    (nullish : executor.isNullish value = true) :
    executor.completeBare run field type value = pure .null := by
  cases type <;> simp [completeBare, nullish]

end GraphQL
