import GraphQL.Proofs.ConstantArguments

/-!
Arguments are of their declared types.

A literal is coerced at the type of its position, and so are its parts at the types of theirs; only
the values of variables are taken over as they are. They fit where a variable is used at positions
of its own type, since they were coerced at that type. Defaults are constants, so they fit anywhere.
-/

namespace GraphQL

variable {σ ε : Type} {schema : Schema} {executor : Executor σ}

/-- A literal at a type uses a variable, at a position that has a type of its own. -/
inductive UsesAt (schema : Schema) (name : String) : TypeRef → Literal → TypeRef → Prop where
  | here {type} : UsesAt schema name type (.variable name) type
  | required {inner literal position} (written : literal.isVariable = false)
      (within : UsesAt schema name inner literal position) :
      UsesAt schema name (.nonNull inner) literal position
  | element {element items position item} (member : item ∈ items)
      (within : UsesAt schema name element item.node position) :
      UsesAt schema name (.list element) (.list items) position
  /-- An object where a list is asked for is its only element. -/
  | only {element fields position}
      (within : UsesAt schema name element (.object fields) position) :
      UsesAt schema name (.list element) (.object fields) position
  | field {typeName input fields position definition entry}
      (declared : schema.type? typeName = some (.inputObject input))
      (member : definition ∈ input.fields) (given : entry ∈ fields)
      (named : entry.1.node = definition.node.name.node)
      (within : UsesAt schema name definition.node.type.node entry.2.node position) :
      UsesAt schema name (.named typeName) (.object fields) position

/-- The values of variables fit the positions where a literal uses them. -/
def Suits (schema : Schema) (values : Object) (type : TypeRef) (literal : Literal) : Prop :=
  ∀ name position, UsesAt schema name type literal position →
    ∀ value, values.get? name = some value → Fits schema position value

namespace Suits

variable {values : Object}

theorem required {inner : TypeRef} {literal : Literal}
    (suits : Suits schema values (.nonNull inner) literal) : Suits schema values inner literal := by
  intro name position uses value found
  cases written : literal.isVariable with
  | false => exact suits name position (.required written uses) value found
  | true =>
      cases literal <;> cases written
      cases uses with
      | here =>
          have fits := suits _ _ .here value found
          exact fits_nullable.mpr fits
      | required written within => cases written

theorem nullable {type : TypeRef} {literal : Literal} (suits : Suits schema values type literal) :
    Suits schema values type.nullable literal := by
  cases type with
  | nonNull inner => exact suits.required
  | _ => exact suits

end Suits

/-- A constant uses no variables. -/
theorem Literal.Constant.uses_none {name : String} {type position : TypeRef} {literal : Literal}
    (uses : UsesAt schema name type literal position) : ¬literal.Constant := by
  induction uses with
  | here => exact fun constant => by cases constant
  | required written within ih => exact ih
  | element member within ih =>
      intro constant
      cases constant with
      | list each => exact ih (each _ member)
  | only within ih => exact ih
  | field declared member given named within ih =>
      intro constant
      cases constant with
      | object distinct each => exact ih (each _ given)

/-- Where a variable stands in a literal, it is used at that type, up to non-null wrappers. -/
theorem Literal.PartAt.uses {type position : TypeRef} {literal : Literal} {name : String}
    (part : Literal.PartAt schema type literal position (.variable name)) :
    ∃ used, UsesAt schema name type literal used ∧ used.fullyNullable = position.fullyNullable := by
  generalize within : Literal.variable name = whole at part
  induction part with
  | whole =>
      subst within
      exact ⟨_, .here, rfl⟩
  | required inside ih =>
      obtain ⟨used, uses, same⟩ := ih within
      rename_i inner literal position part
      cases written : literal.isVariable with
      | false => exact ⟨used, .required written uses, same⟩
      | true =>
          cases uses with
          | here => exact ⟨_, .here, same⟩
          | required written' => rw [written] at written'; cases written'
          | _ => cases written
  | element member inside ih =>
      obtain ⟨used, uses, same⟩ := ih within
      exact ⟨used, .element member uses, same⟩
  | only inside ih =>
      obtain ⟨used, uses, same⟩ := ih within
      exact ⟨used, .only uses, same⟩
  | field declared member given named inside ih =>
      obtain ⟨used, uses, same⟩ := ih within
      exact ⟨used, .field declared member given named uses, same⟩

/-- What is left of a field, an argument or a variable: a value that fits, or nothing. -/
def FitsIfThere (schema : Schema) (type : TypeRef) : Option Value → Prop
  | some value => Fits schema type value
  | none => type.isNonNull = false

theorem fits_fully_nullable {type : TypeRef} {value : Value} :
    Fits schema type.fullyNullable value ↔ Fits schema type value := by
  induction type with
  | nonNull inner ih => exact ih.trans (@fits_nullable _ (.nonNull inner) value)
  | _ => rfl

/-- Where the values of variables suit a literal, they are permitted wherever it has variables. -/
theorem Suits.permits {values : Object} {type position : TypeRef} {literal : Literal}
    {name : String} (suits : Suits schema values type literal)
    (part : Literal.PartAt schema type literal position (.variable name)) :
    FitsOrNull schema position.fullyNullable (variableValue values name) := by
  obtain ⟨used, uses, same⟩ := part.uses
  rw [variableValue]
  cases found : values.get? name with
  | none => exact .inl ⟨rfl, fully_nullable_optional position⟩
  | some value =>
      have fits := suits name used uses value found
      exact .inr (same ▸ fits_fully_nullable.mpr fits)

theorem fits_items_of_each {element : TypeRef} {items : List Value}
    (each : ∀ item ∈ items, FitsOrNull schema element item) : FitsItems schema element items := by
  induction items with
  | nil => exact .nil
  | cons item rest ih =>
      have others := ih fun other member => each other (List.mem_cons_of_mem _ member)
      rcases each item List.mem_cons_self with ⟨rfl, optional⟩ | fits
      · exact .null optional others
      · exact .cons fits others

theorem FitsFields.keys_sublist {definitions : List (Located InputDefinition)} {values : Object}
    (fits : FitsFields schema definitions values) :
    (Object.keys values).Sublist (definitions.map (·.node.name.node)) := by
  have fills : Fills (Fits schema) (fun _ => True) definitions values := by
    induction definitions generalizing values with
    | nil =>
        cases fits
        exact .nil
    | cons definition rest ih =>
        cases fits with
        | absent optional others => exact .absent optional trivial (ih others)
        | present first others => exact .present first (ih others)
  exact fills.keys_sublist

section Rules

variable (policy : executor.isNullish = Value.isNull)

include policy

theorem there_fits {type : TypeRef} {value : Value}
    (there : executor.There (FitsOrNull executor.schema) type value) :
    Fits executor.schema type value :=
  there.2.present (by rw [← policy]; exact there.1)

theorem fills_fit {gone : InputDefinition → Prop} {definitions : List (Located InputDefinition)}
    {values : Object}
    (fills : Fills (executor.There (FitsOrNull executor.schema)) gone definitions values) :
    FitsFields executor.schema definitions values := by
  induction fills with
  | nil => exact .nil
  | absent optional _ _ ih => exact .absent optional ih
  | present first _ ih => exact .present (there_fits policy first) ih

/-- Values that fit, or are null where they may be, are what every coercion leads to. -/
theorem fitting_rules :
    InputRules executor (FitsOrNull executor.schema) fun _ => True where
  null optional := .inl ⟨rfl, optional⟩
  required there := .inr (.nonNull (there_fits policy there))
  list each := .inr (.list (fits_items_of_each each))
  leaf done := .inr (coerce_leaf_fits executor done)
  custom declared unnamed value := by
    cases absent : value.isNull with
    | false => exact .inr (.custom declared unnamed absent)
    | true =>
        cases value <;> cases absent
        exact .inl ⟨rfl, rfl⟩
  object declared fills := .inr (.object declared (fills_fit policy fills))
  undefaulted _ := trivial

end Rules

section Coercions

variable (policy : executor.isNullish = Value.isNull)
  (constants : executor.schema.ConstantDefaults)

include policy constants

/-- Defaults are constants, so they fit whatever the values of variables are. -/
theorem defaults_fit (values : Object) (depth : Nat) :
    ∀ name, ensuresJudgement.Expands executor (FitsOrNull executor.schema) (fun _ => True)
      (executor.expandDefault values depth) name := by
  induction depth with
  | zero =>
      intro _ _ _ _ _ _ _
      exact .unfinished
  | succ depth ih =>
      intro name input declared field member literal written
      have constant := constants.inputs name input declared field member literal written
      rw [Executor.expandDefault]
      refine Ensures.mono ?_ fun _ fits => ⟨fits, fun _ => trivial⟩
      exact ensuresJudgement.literal_coerced (fitting_rules policy) (Judgement.ensures_reads executor) values
        literal.node _
        { used := fun _ _ part => by cases part.constant constant
          defaults := fun other _ _ input declared field member _ =>
            ih other input declared field member }

theorem coerce_literal_fits {values : Object} {literal : Literal} {type : TypeRef}
    (suits : Suits executor.schema values type literal) :
    Ensures (executor.coerceLiteral values literal type) (FitsOrNull executor.schema type) := by
  rw [Executor.coerceLiteral, Executor.expandDefault]
  exact ensuresJudgement.literal_coerced (fitting_rules policy) (Judgement.ensures_reads executor) values
    literal type
    { used := fun _ _ part => suits.permits part
      defaults := fun name _ _ input declared field member _ =>
        defaults_fit policy constants values _ name input declared field member }

theorem coerce_input_fits (values : Object) (value : Value) (type : TypeRef) :
    Ensures (executor.coerceInput values value type) (FitsOrNull executor.schema type) :=
  ensuresJudgement.input_coerced (fitting_rules policy) (Judgement.ensures_reads executor)
    (defaults_fit policy constants values _) value type

theorem coerce_arguments_fit {values : Object} {field : Field}
    (arguments : List (Located InputDefinition))
    (constantly : ∀ argument ∈ arguments, argument.node.ConstantDefault)
    (suits : ∀ argument ∈ arguments, ∀ literal, field.Gives argument.node.name.node literal →
      Suits executor.schema values argument.node.type.node literal) :
    Ensures (executor.coerceArguments values field arguments)
      (FitsFields executor.schema arguments) := by
  have filled : Ensures (executor.coerceArguments values field arguments)
      (Fills (executor.There (FitsOrNull executor.schema)) (fun _ => True) arguments) := by
    apply ensuresJudgement.coerce_arguments (fitting_rules policy) arguments
    · intro argument member literal written
      have unused : Suits executor.schema values argument.node.type.node.nullable literal.node :=
        fun _ _ uses => absurd (constantly argument member literal written)
          (Literal.Constant.uses_none uses)
      exact (coerce_literal_fits policy constants unused).mono fun _ fits =>
        ⟨fits, fun _ => trivial⟩
    · intro argument member literal given
      have suited := suits argument member literal.node ⟨literal, given, rfl⟩
      exact coerce_literal_fits policy constants suited.nullable
  exact filled.mono fun _ fills => fills_fit policy fills

theorem coerce_variable_fits (inputs : Object) (declared : VariableDefinition) :
    Ensures (executor.coerceVariable inputs declared)
      (FitsIfThere executor.schema declared.type.node) := by
  -- No variable has a value yet, so whatever the default uses suits it.
  have suits (type : TypeRef) (literal : Literal) : Suits executor.schema [] type literal :=
    fun _ _ _ _ found => by cases found
  have found : Ensures (executor.coerceVariable inputs declared) fun found =>
      found.elim (declared.type.node.isNonNull = false ∧ True)
        (executor.There (FitsOrNull executor.schema) declared.type.node) :=
    ensuresJudgement.coerce_variable (fitting_rules policy) (fun _ => trivial)
      (fun literal _ => (coerce_literal_fits policy constants (suits _ _)).mono fun _ fits =>
        ⟨fits, fun _ => trivial⟩)
      fun value _ => coerce_input_fits policy constants [] value _
  apply found.mono
  intro value known
  cases value with
  | none => exact known.1
  | some value => exact there_fits policy known

end Coercions

/-- A field uses variables only where their own types are asked for, or those without a non-null. -/
def Field.UsesAsDeclared (field : Field) (schema : Schema)
    (definitions : List VariableDefinition) (arguments : List (Located InputDefinition)) : Prop :=
  ∀ argument ∈ arguments, ∀ literal, field.Gives argument.node.name.node literal →
    ∀ name position, UsesAt schema name argument.node.type.node literal position →
      ∀ declared ∈ definitions, declared.name.node = name →
        declared.type.node.nullable = position.nullable

theorem selectable_constant_defaults {object : ObjectType} (constants : object.ConstantDefaults)
    {name : String} {definition : FieldDefinition}
    (selected : object.selectable? name = some definition) :
    ∀ argument ∈ definition.arguments, argument.node.ConstantDefault := by
  rw [ObjectType.selectable?] at selected
  split at selected
  · cases selected
    intro argument absent
    cases absent
  · obtain ⟨field, found, rfl⟩ := Option.map_eq_some_iff.mp selected
    exact constants field (List.mem_of_find?_eq_some found)

/--
The values of variables are of the types of the variables. Where they are used as declared, the
arguments of a field are of the types that the schema declares for them.
-/
theorem arguments_fit_declared_types (accepted : executor.schema.Accepted)
    (policy : executor.isNullish = Value.isNull) {inputs : Object} {place : Position}
    {definitions : List VariableDefinition} {bindings : Object} {journal later : Journal σ}
    (coerced : executor.coerceVariables inputs place definitions journal =
      some (.ok bindings, later)) :
    (∀ entry ∈ bindings, ∃ declared ∈ definitions, declared.name.node = entry.1 ∧
        Fits executor.schema declared.type.node entry.2) ∧
      ∀ name object field definition, executor.schema.type? name = some (.object object) →
        object.selectable? field.name.node = some definition →
        field.UsesAsDeclared executor.schema definitions definition.arguments →
        ∀ context arguments after,
          executor.coerceArguments bindings field definition.arguments context =
            some (.ok arguments, after) →
          FitsFields executor.schema definition.arguments arguments ∧
            (Object.keys arguments).Sublist
              (definition.arguments.map fun argument => argument.node.name.node) := by
  have constants := executor.schema.accepted_constant_defaults accepted
  have bound : ∀ entry ∈ bindings, ∃ declared ∈ definitions, declared.name.node = entry.1 ∧
      Fits executor.schema declared.type.node entry.2 := by
    intro entry inside
    obtain ⟨declared, member, named, before, after, ran⟩ :=
      variable_values_declared coerced entry inside
    exact ⟨declared, member, named,
      (coerce_variable_fits policy constants inputs declared).holds _ _ _ ran⟩
  refine ⟨bound, ?_⟩
  intro name object field definition found selected uses context arguments after ran
  have constantly := selectable_constant_defaults (constants.objects name object found) selected
  have suits : ∀ argument ∈ definition.arguments, ∀ literal,
      field.Gives argument.node.name.node literal →
        Suits executor.schema bindings argument.node.type.node literal := by
    intro argument member literal gives used position at_position value known
    obtain ⟨declared, listed, named, fits⟩ := bound _ (lookup_member known)
    have same := uses argument member literal gives used position at_position declared listed named
    exact fits_nullable.mp (same ▸ fits_nullable.mpr fits)
  have fits := (coerce_arguments_fit policy constants definition.arguments constantly suits).holds
    _ _ _ ran
  exact ⟨fits, fits.keys_sublist⟩

/-- A plan by default reaches the walk as a plan of the declared type. -/
theorem default_plan_fits :
    ∃ (executor : Executor Unit) (definition : FieldDefinition) (bindings arguments : Object)
      (plan : Value) (later : Journal Unit) (after : Unit),
      executor.schema.Accepted ∧
        executor.coerceVariables [] .origin [walkVariable] ⟨(), []⟩ = some (.ok bindings, later) ∧
        executor.coerceArguments bindings (walkField (.variable "plan")) definition.arguments () =
          some (.ok arguments, after) ∧
        FitsFields executor.schema definition.arguments arguments ∧
        ("plan", plan) ∈ arguments ∧
        Fits executor.schema (.nonNull (.named "Walk")) plan := by
  obtain ⟨schema, argument, bindings, arguments, plans⟩ := some_schema_plans_walks
  obtain ⟨later, bound⟩ := plans.bound
  obtain ⟨after, given⟩ := plans.given
  obtain ⟨object, definition, declared, defined, only⟩ := plans.takes
  have uses : (walkField (.variable "plan")).UsesAsDeclared schema [walkVariable]
      definition.arguments := by
    rw [only]
    intro argument' member literal gives name position uses declared listed _
    cases List.mem_singleton.mp member
    cases List.mem_singleton.mp listed
    obtain ⟨located, found, rfl⟩ := gives
    rw [plans.named] at found
    cases found
    rw [plans.typed] at uses
    cases uses with
    | here => rfl
    | required written within => cases written
  have selected : object.selectable? "walk" = some definition := defined
  obtain ⟨fits, -⟩ := (arguments_fit_declared_types plans.accepted rfl bound).2 "Kennel" object
    (walkField (.variable "plan")) definition declared selected uses () arguments after
    (only ▸ given)
  have required : argument.node.type.node.isNonNull = true := by
    rw [plans.typed]
    rfl
  obtain ⟨plan, inside, fitting⟩ := fits.required argument (only ▸ List.mem_cons_self) required
  rw [plans.named] at inside
  rw [plans.typed] at fitting
  exact ⟨walkExecutor schema, definition, bindings, arguments, plan, later, after, plans.accepted,
    bound, only ▸ given, fits, inside, fitting⟩

end GraphQL
