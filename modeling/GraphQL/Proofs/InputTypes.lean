import GraphQL.Proofs.Conformance

/-!
Values that fit the types of inputs.

A built-in scalar is fit by its own variant and an enum by the names it declares. Of a scalar that
the application defines nothing is known but that null does not stand for it. An input object is fit
by an object with no other fields than the declared ones, in declared order; a field may be left out
unless its type is non-null. Null is found only among the elements of a list.
-/

namespace GraphQL

variable {σ : Type}

mutual

/-- A value other than null is one of an input type; a non-null wrapper makes no difference. -/
inductive Fits (schema : Schema) : TypeRef → Value → Prop where
  | nonNull {inner value} (fits : Fits schema inner value) : Fits schema (.nonNull inner) value
  | list {element items} (each : FitsItems schema element items) :
      Fits schema (.list element) (.list items)
  | builtin {name definition scalar value}
      (declared : schema.type? name = some (.scalar definition))
      (named : BuiltinScalar.ofName? name = some scalar) (written : scalar.Written value) :
      Fits schema (.named name) value
  | custom {name definition value} (declared : schema.type? name = some (.scalar definition))
      (unnamed : BuiltinScalar.ofName? name = none) (present : value.isNull = false) :
      Fits schema (.named name) value
  | enum {name definition text} (declared : schema.type? name = some (.enum definition))
      (known : definition.hasValue text = true) : Fits schema (.named name) (.string text)
  | object {name input fields} (declared : schema.type? name = some (.inputObject input))
      (content : FitsFields schema input.fields fields) : Fits schema (.named name) (.object fields)

/-- Elements fit one by one, or are null where the element type allows it. -/
inductive FitsItems (schema : Schema) : TypeRef → List Value → Prop where
  | nil {element} : FitsItems schema element []
  | null {element items} (optional : element.isNonNull = false)
      (rest : FitsItems schema element items) : FitsItems schema element (.null :: items)
  | cons {element item items} (first : Fits schema element item)
      (rest : FitsItems schema element items) : FitsItems schema element (item :: items)

/-- Fields or arguments stand in declared order, and only optional ones are left out. -/
inductive FitsFields (schema : Schema) : List (Located InputDefinition) → Object → Prop where
  | nil : FitsFields schema [] []
  | absent {field fields values} (optional : field.node.type.node.isNonNull = false)
      (rest : FitsFields schema fields values) : FitsFields schema (field :: fields) values
  | present {field fields value values} (first : Fits schema field.node.type.node value)
      (rest : FitsFields schema fields values) :
      FitsFields schema (field :: fields) ((field.node.name.node, value) :: values)

end

/-- A value fits a type, or it is null and the type may be. -/
def FitsOrNull (schema : Schema) (type : TypeRef) (value : Value) : Prop :=
  (value = .null ∧ type.isNonNull = false) ∨ Fits schema type value

variable {schema : Schema}

theorem BuiltinScalar.Written.not_null {scalar : BuiltinScalar} {value : Value}
    (written : scalar.Written value) : value.isNull = false := by
  cases written <;> rfl

theorem Fits.not_null {type : TypeRef} {value : Value} (fits : Fits schema type value) :
    value.isNull = false := by
  induction type with
  | named name =>
      cases fits with
      | builtin declared named written => exact written.not_null
      | custom declared unnamed present => exact present
      | enum declared known => rfl
      | object declared content => rfl
  | list element =>
      cases fits
      rfl
  | nonNull inner ih =>
      cases fits with
      | nonNull fits => exact ih fits

/-- Whether a value fits does not depend on the outermost non-null wrapper. -/
theorem fits_nullable {type : TypeRef} {value : Value} :
    Fits schema type.nullable value ↔ Fits schema type value := by
  cases type with
  | named name => rfl
  | list element => rfl
  | nonNull inner =>
      constructor
      · exact .nonNull
      · intro fits
        cases fits with
        | nonNull fits => exact fits

theorem FitsOrNull.present {type : TypeRef} {value : Value} (fits : FitsOrNull schema type value)
    (present : value.isNull = false) : Fits schema type value := by
  rcases fits with ⟨rfl, -⟩ | fits
  · cases present
  · exact fits

/-- What is left of a leaf fits the scalar or enum of its name. -/
theorem coerce_leaf_fits (executor : Executor σ) {name : String} {value coerced : Value}
    (done : executor.coerceLeaf name value = .ok coerced) :
    Fits executor.schema (.named name) coerced := by
  unfold Executor.coerceLeaf at done
  split at done
  · rename_i scalar declared
    cases found : (BuiltinScalar.ofName? name).bind (·.coerce value) with
    | none => simp [found] at done
    | some written =>
        simp only [found, Except.ok.injEq] at done
        subst done
        obtain ⟨builtin, named, fitting⟩ := Option.bind_eq_some_iff.mp found
        exact .builtin declared named (builtin.coerce_written fitting)
  · rename_i enum declared
    cases text : value.toEnumName? with
    | none => simp [text] at done
    | some chosen =>
        simp only [text] at done
        split at done
        · rename_i known
          cases done
          exact .enum declared known
        · cases done
  · cases done
  · cases done

/-- Every field whose type is non-null is there, and it is a value of that type. -/
theorem FitsFields.required {definitions : List (Located InputDefinition)} {values : Object}
    (fits : FitsFields schema definitions values) :
    ∀ definition ∈ definitions, definition.node.type.node.isNonNull = true →
      ∃ value, (definition.node.name.node, value) ∈ values ∧
        Fits schema definition.node.type.node value := by
  induction definitions generalizing values with
  | nil =>
      intro _ absent
      cases absent
  | cons definition rest ih =>
      intro wanted member required
      cases fits with
      | absent optional others =>
          rcases List.mem_cons.mp member with rfl | member
          · rw [required] at optional
            cases optional
          · exact ih others wanted member required
      | present first others =>
          rcases List.mem_cons.mp member with rfl | member
          · exact ⟨_, List.mem_cons_self, first⟩
          · obtain ⟨value, inside, fitting⟩ := ih others wanted member required
            exact ⟨value, List.mem_cons_of_mem _ inside, fitting⟩

end GraphQL
