import GraphQL.Proofs.Action

/-!
What completion does with nulls and bubbles at each kind of type.

A type that may be null absorbs the bubbles of what is completed at it. A non-null type demands a
value, and non-null types that follow each other demand it only once.
-/

namespace GraphQL

/-- How many wrappers a type has. -/
def TypeRef.wrappers : TypeRef → Nat
  | .named _ => 0
  | .list element => element.wrappers + 1
  | .nonNull inner => inner.wrappers + 1

variable {σ : Type}

namespace FieldScope

theorem demand_demand (field : FieldScope) (outcome : Except Bubble Value × Journal σ) :
    field.demand (field.demand outcome) = field.demand outcome := by
  obtain ⟨result, journal⟩ := outcome
  cases result with
  | error _ => rfl
  | ok value =>
      by_cases null : value.isNull = true
      · simp [demand, null]
      · simp [demand, null]

/-- Non-null types within each other demand what one of them does. -/
theorem required_required (field : FieldScope) (completion : Completion σ Value) :
    field.required (field.required completion) = field.required completion := by
  funext journal
  simp only [required_apply, Option.map_map]
  congr 1
  funext outcome
  exact field.demand_demand outcome

end FieldScope

namespace Executor

variable (executor : Executor σ) (run : ObjectRunner σ)

theorem complete_bare_named (field : FieldScope) (name : String) {value : Value}
    (present : executor.isNullish value = false) :
    executor.completeBare run field (.named name) value =
      executor.completeNamed run field name value := by
  simp [completeBare, present]

theorem complete_bare_list (field : FieldScope) (element : TypeRef) {values : List Value}
    (present : executor.isNullish (.list values) = false) :
    executor.completeBare run field (.list element) (.list values) = (do
      let completed ← Completion.overItems (executor.complete run field element) values
      pure (.list completed)) := by
  simp only [completeBare, present]
  rfl

theorem complete_bare_not_list (field : FieldScope) (element : TypeRef) {value : Value}
    (present : executor.isNullish value = false) (mismatch : value.asList? = none) :
    executor.completeBare run field (.list element) value =
      Completion.nullBecause field.path .notAList := by
  cases value <;> simp_all [completeBare, Value.asList?]

/-- A non-null type takes the value at the type within and demands that it is there. -/
theorem complete_non_null (field : FieldScope) (inner : TypeRef) (value : Value) :
    executor.complete run field (.nonNull inner) value =
      field.required (executor.completeBare run field inner value) := by
  simp only [complete, FieldScope.guarded, TypeRef.isNonNull, if_true]
  by_cases nullish : executor.isNullish value = true
  · rw [complete_bare_nullish executor run field _ nullish,
      complete_bare_nullish executor run field _ nullish]
  · rw [completeBare, if_neg nullish, FieldScope.required_required]

theorem complete_bare_non_null (field : FieldScope) (inner : TypeRef) {value : Value}
    (present : executor.isNullish value = false) :
    executor.completeBare run field (.nonNull inner) value =
      executor.complete run field (.nonNull inner) value := by
  rw [complete_non_null, completeBare, if_neg (by simp [present])]

theorem complete_nullable (field : FieldScope) {type : TypeRef} (value : Value)
    (optional : type.isNonNull = false) :
    executor.complete run field type value =
      Completion.absorb (executor.completeBare run field type value) := by
  simp [complete, FieldScope.guarded, optional]

end Executor

end GraphQL
