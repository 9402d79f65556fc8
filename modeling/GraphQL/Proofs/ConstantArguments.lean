import GraphQL.Proofs.CoercionJudgement
import GraphQL.Proofs.InputTypes
import GraphQL.Proofs.SpelledTexts
import GraphQL.Proofs.VariableValues

/-!
A constant means the same wherever it is written.

An argument may be given as a literal, as a variable that has what the literal denotes as its input,
or as a variable that has the literal as its default. Where no callback reads the type, the coercion
of the literal has one outcome for good. If that is a value, the three ways make the same argument
of it; if not, the field and the variable fail for the same cause.
-/

namespace GraphQL

variable {σ ε ε' α β : Type}

/-- An action that leaves the context alone and does not ask for it. -/
inductive Inert : Action σ ε α → Prop where
  | pure (value : α) : Inert (Pure.pure value)
  | throw (error : ε) : Inert (MonadExcept.throw error)
  | unfinished : Inert GraphQL.unfinished

/-- Inertness is handed on from the parts of an action to the whole. -/
def inertLaw : ActionLaw σ where
  holds := Inert
  pure := .pure
  throw := .throw
  unfinished := .unfinished
  bind inert each := by
    cases inert with
    | pure value => exact each value
    | throw error => exact .throw error
    | unfinished => exact .unfinished
  adapt change _ inert := by
    cases inert with
    | pure value => exact .pure value
    | throw error => exact .throw (change error)
    | unfinished => exact .unfinished

/-- A type is that of a field of an input object, or of a field of a field's type, and so on. -/
inductive Schema.Leads (schema : Schema) (start : String) : String → Prop where
  | here : Leads schema start start
  | field {name input} (reached : Leads schema start name)
      (declared : schema.type? name = some (.inputObject input)) {field}
      (member : field ∈ input.fields) : Leads schema start field.node.type.node.innermost

/-- What a field of an input object leads to, the input object does too. -/
theorem Schema.Leads.of_field {schema : Schema} {name other : String} {input : InputObjectType}
    {field : Located InputDefinition} (declared : schema.type? name = some (.inputObject input))
    (member : field ∈ input.fields) (reached : schema.Leads field.node.type.node.innermost other) :
    schema.Leads name other := by
  induction reached with
  | here => exact .field .here declared member
  | field _ declared' member' ih => exact .field ih declared' member'

theorem Schema.leads_to_nullable (schema : Schema) (type : TypeRef) :
    schema.Leads type.innermost type.nullable.innermost := by
  rw [nullable_innermost]
  exact .here

/-- No callbacks are registered for a scalar in a type. -/
def Executor.Unhooked (executor : Executor σ) (type : TypeRef) : Prop :=
  ∀ name, executor.schema.Leads type.innermost name → executor.customScalar? name = none

variable {executor : Executor σ}

theorem Executor.Unhooked.plain {type : TypeRef} (unhooked : executor.Unhooked type) :
    executor.PlainAmong (executor.schema.Leads type.innermost) where
  closed _ _ reached declared _ member := .field reached declared member
  unhooked := unhooked

theorem Executor.PlainAmong.reads {among : String → Prop} (plain : executor.PlainAmong among)
    (law : ActionLaw σ) : law.Reads executor among where
  closed := plain.closed
  parseValue name inside hooks custom := by
    rw [plain.unhooked name inside] at custom
    cases custom
  parseLiteral name inside hooks custom := by
    rw [plain.unhooked name inside] at custom
    cases custom

section Nulls

variable {isNullish : Value → Bool}

/-- Under a non-null wrapper nothing counts as absent. -/
theorem coerce_non_null (shape : InputShape σ) (type : TypeRef) (required : type.isNonNull = true) :
    Ensures (InputShape.coerce isNullish shape type) fun value => isNullish value = false := by
  cases type with
  | named name => cases required
  | list element => cases required
  | nonNull inner =>
      rw [InputShape.coerce]
      apply (Ensures.trivial _).bind
      intro value _
      split
      · exact .throw _
      · rename_i present
        exact .pure (by simpa using present)

/-- What has a value of its own keeps it, unless that counts as absent where it may not. -/
theorem coerce_settled {value : Value} (elements : Option (TypeRef → Coercion σ (List Value)))
    (named : String → Coercion σ Value) (type : TypeRef)
    (present : type.isNonNull = true → isNullish value = false) :
    InputShape.coerce isNullish ⟨some value, elements, named⟩ type = pure value := by
  induction type with
  | named name => rfl
  | list element => rfl
  | nonNull inner ih =>
      have somewhere := present rfl
      rw [InputShape.coerce, ih fun _ => somewhere, pure_bind, if_neg (by simp [somewhere])]

/-- An input that is no null of its own becomes null only if a named type makes it null. -/
theorem coerce_not_null {elements : Option (TypeRef → Coercion σ (List Value))}
    {named : String → Coercion σ Value} (type : TypeRef)
    (leaf : Ensures (named type.innermost) fun value => value.isNull = false) :
    Ensures (InputShape.coerce isNullish ⟨none, elements, named⟩ type)
      fun value => value.isNull = false := by
  induction type with
  | named name => exact leaf
  | list element ih =>
      rw [InputShape.coerce]
      cases elements
      case' none => apply (Ensures.trivial _).bind
      case' some each => apply (Ensures.trivial _).bind
      all_goals
        intro items _
        exact .pure rfl
  | nonNull inner ih =>
      rw [InputShape.coerce]
      apply (ih leaf).bind
      intro value present
      split
      · exact .throw _
      · exact .pure present

end Nulls

section Constants

variable {among : String → Prop} {expand : LiteralCoercion σ}

/-- A named type without callbacks makes no null of a value. -/
theorem unhooked_not_null
    {fields : Option (List String × (String → Option (TypeRef → Coercion σ Value)))}
    {custom : ScalarHooks σ → Action σ FieldError Value} {value : Value} {name : String}
    (unhooked : executor.customScalar? name = none) (present : value.isNull = false) :
    Ensures (executor.coerceNamed expand fields custom value name)
      fun value => value.isNull = false := by
  apply ensuresJudgement.coerce_named
  · intro input declared entries _
    rw [Executor.coerceInputObject]
    split
    · exact .throw _
    · exact (Ensures.trivial _).bind fun _ _ => .pure rfl
  · intro _ _ _ _
    exact present
  · intro scalar declared unnamed hooks registered
    simp only [Executor.customScalar?, declared, unnamed] at unhooked
    rw [unhooked] at registered
    cases registered
  · intro coerced done
    exact (coerce_leaf_fits executor done).not_null

/-- A constant other than null never becomes null. -/
theorem constant_not_null (plain : executor.PlainAmong among) (values : Object)
    {literal : Literal} (constant : literal.Constant) (present : literal.isNull = false)
    {type : TypeRef} (inside : among type.innermost) :
    Ensures (executor.coerceLiteralWith values expand literal type)
      fun value => value.isNull = false := by
  have unhooked := plain.unhooked _ inside
  cases constant with
  | null => cases present
  | list each =>
      rw [Executor.coerceLiteralWith]
      apply coerce_not_null
      exact unhooked_not_null unhooked (by rw [Literal.toValue]; rfl)
  | object distinct each =>
      rw [Executor.coerceLiteralWith]
      apply coerce_not_null
      exact unhooked_not_null unhooked (by rw [Literal.toValue]; rfl)
  | _ =>
      rw [Executor.coerceLiteralWith]
      · apply coerce_not_null
        exact unhooked_not_null unhooked (by rw [Literal.toValue]; rfl)
      all_goals intros; contradiction

/-- Every literal is coerced by way of its shape. -/
theorem coerce_literal_with_shape (executor : Executor σ) (values : Object)
    (expand : LiteralCoercion σ) (literal : Literal) :
    ∃ shape, executor.coerceLiteralWith values expand literal =
      InputShape.coerce executor.isNullish shape := by
  match literal with
  | .null | .variable _ | .list _ | .object _ =>
      exact ⟨_, funext fun type => by rw [Executor.coerceLiteralWith]⟩
  | .int _ | .float _ | .string _ | .bool _ | .enum _ =>
      exact ⟨_, funext fun type => by rw [Executor.coerceLiteralWith] <;> intros <;> contradiction⟩

/-- What a literal becomes at a non-null type does not count as absent. -/
theorem coerce_literal_non_null (executor : Executor σ) (values : Object) (literal : Literal)
    {type : TypeRef} (required : type.isNonNull = true) :
    Ensures (executor.coerceLiteral values literal type)
      fun value => executor.isNullish value = false := by
  obtain ⟨shape, same⟩ := coerce_literal_with_shape executor values
    (executor.expandDefault values executor.schema.defaultCount) literal
  rw [Executor.coerceLiteral, Executor.expandDefault, same]
  exact coerce_non_null shape type required

end Constants

/-- A field gives an argument in the form of a literal. -/
def Field.Gives (field : Field) (name : String) (literal : Literal) : Prop :=
  ∃ located, field.argument? name = some located ∧ located.node = literal

/-- A variable has what a literal denotes as its input, or else has the literal as its default. -/
inductive VariableDefinition.Gets (declared : VariableDefinition) (inputs : Object)
    (literal : Literal) : Prop where
  | input (given : inputs.get? declared.name.node = some (literal.toValue []))
      (alone : literal.isNull = true → declared.default = none)
  | default {located} (missing : inputs.get? declared.name.node = none)
      (written : declared.default = some located) (same : located.node = literal)

/-- An input definition is that of an argument that some object type takes. -/
def Schema.Takes (schema : Schema) (argument : InputDefinition) : Prop :=
  ∃ name object, schema.type? name = some (.object object) ∧
    ∃ field ∈ object.fields, ∃ located ∈ field.node.arguments, located.node = argument

/-- A type that variables may have. -/
def Schema.IsInput (schema : Schema) (type : TypeRef) : Prop :=
  ∃ definition, schema.type? type.innermost = some definition ∧ definition.isInput = true

section Variables

variable (policy : executor.isNullish = Value.isNull)
  (constants : executor.schema.ConstantDefaults) {type : TypeRef}
  (unhooked : executor.Unhooked type) {literal : Literal} (constant : literal.Constant)

include policy constants unhooked constant

/-- What a variable is given, or its default, is coerced as the literal is. -/
theorem variable_as_literal {inputs : Object} {declared : VariableDefinition}
    (typed : declared.type.node = type) (gets : declared.Gets inputs literal) (values : Object) :
    executor.givenOrDefault (executor.coerceLiteral []) declared.type.node declared.default
        ((inputs.get? declared.name.node).map (executor.coerceInput [])) =
      executor.coerceLiteral values literal type.nullable := by
  have plain := unhooked.plain
  have inside := executor.schema.leads_to_nullable type
  rw [given_or_default_eq, typed]
  cases gets with
  | input given alone =>
      have same := coerce_literal_as_value policy constants plain values [] [] constant _ inside
      rw [given, Option.map_some, Option.elim_some, ← same]
      cases absent : literal.isNull with
      | true =>
          rw [alone absent]
          exact bind_pure _
      | false =>
          apply default_not_needed
          rw [policy]
          exact constant_not_null plain values constant absent inside
  | default missing written same =>
      have nothing : executor.isNullish .null = true := by
        rw [policy]
        rfl
      rw [missing, Option.map_none, Option.elim_none, pure_bind, written, Executor.orDefault,
        if_pos nothing, same]
      exact coerce_literal_alike policy constants plain [] values constant _ inside

/-- A field that is given the literal coerces it, and then the argument's default may step in. -/
theorem argument_as_literal {argument : InputDefinition} (typed : argument.type.node = type)
    (constantly : argument.ConstantDefault) {field : Field}
    (gives : field.Gives argument.name.node literal) (values others : Object) :
    executor.givenOrDefault (executor.coerceLiteral values) argument.type.node argument.default
        ((field.argument? argument.name.node).map fun literal =>
          executor.coerceLiteral values literal.node) =
      executor.coerceLiteral values literal type.nullable >>=
        executor.orDefault (executor.coerceLiteral others) argument.type.node
          argument.default := by
  have inside := executor.schema.leads_to_nullable type
  have filled : executor.orDefault (executor.coerceLiteral values) type argument.default =
      executor.orDefault (executor.coerceLiteral others) type argument.default := by
    funext value
    cases written : argument.default with
    | none => rfl
    | some located =>
        have same := coerce_literal_alike policy constants unhooked.plain values others
          (constantly located written) _ inside
        rw [Executor.orDefault, Executor.orDefault, same]
  obtain ⟨located, given, rfl⟩ := gives
  rw [given_or_default_eq, typed, filled, given, Option.map_some, Option.elim_some]

end Variables

/-- A field that is given a variable has its value, and then the default may step in. -/
theorem argument_as_variable {argument : InputDefinition} {field : Field} {name : String}
    (gives : field.Gives argument.name.node (.variable name)) (bindings : Object)
    (present : argument.type.node.nullable.isNonNull = true →
      executor.isNullish (variableValue bindings name) = false) :
    executor.givenOrDefault (executor.coerceLiteral bindings) argument.type.node argument.default
        ((field.argument? argument.name.node).map fun literal =>
          executor.coerceLiteral bindings literal.node) =
      executor.orDefault (executor.coerceLiteral bindings) argument.type.node argument.default
        (variableValue bindings name) := by
  obtain ⟨located, given, named⟩ := gives
  have substituted : executor.coerceLiteral bindings (.variable name)
      argument.type.node.nullable = pure (variableValue bindings name) := by
    rw [Executor.coerceLiteral, Executor.expandDefault, Executor.coerceLiteralWith]
    exact coerce_settled _ _ _ present
  rw [given_or_default_eq, given, Option.map_some, Option.elim_some, named, substituted,
    pure_bind]

/-- A field that is given a variable makes the same argument of it as one that is given the value. -/
theorem argument_alike (policy : executor.isNullish = Value.isNull)
    (constants : executor.schema.ConstantDefaults) {argument : InputDefinition}
    (unhooked : executor.Unhooked argument.type.node) (constantly : argument.ConstantDefault)
    {literal : Literal} (constant : literal.Constant) {inline bound : Field} {name : String}
    (gives : inline.Gives argument.name.node literal)
    (refers : bound.Gives argument.name.node (.variable name)) {values bindings : Object}
    (coerced : executor.coerceLiteral values literal argument.type.node.nullable =
      pure (variableValue bindings name)) (context : σ) :
    executor.coerceArgument bindings bound argument =
      executor.coerceArgument values inline argument := by
  have present : argument.type.node.nullable.isNonNull = true →
      executor.isNullish (variableValue bindings name) = false := by
    intro required
    have somewhere := coerce_literal_non_null executor values literal required
    exact somewhere.holds context _ context (by rw [coerced]; rfl)
  have by_reference := argument_as_variable refers bindings present
  have by_literal := argument_as_literal policy constants unhooked constant rfl constantly gives
    values bindings
  simp only [Executor.coerceArgument, by_literal, by_reference, coerced, pure_bind]

/-- A variable of an input type is coerced, and must be there if its type is non-null. -/
theorem coerce_variable_eq {inputs : Object} {declared : VariableDefinition}
    (input : executor.schema.IsInput declared.type.node) :
    executor.coerceVariable inputs declared =
      ExceptT.adapt (InputError.invalidVariable declared.name.node)
          (executor.givenOrDefault (executor.coerceLiteral []) declared.type.node declared.default
            ((inputs.get? declared.name.node).map (executor.coerceInput []))) >>=
        fun value =>
          if executor.isNullish value then
            if declared.type.node.isNonNull then
              throw (.missingVariable declared.name.node declared.type.node)
            else pure none
          else pure (some value) := by
  obtain ⟨definition, found, fits⟩ := input
  simp only [Executor.coerceVariable, found, fits, if_true]

/-- A variable that coerces to a value stands for it, and for null if it is left out as absent. -/
theorem variable_stands_for {inputs : Object} {declared : VariableDefinition} {value : Value}
    (policy : executor.isNullish = Value.isNull)
    (input : executor.schema.IsInput declared.type.node)
    (coerced : executor.givenOrDefault (executor.coerceLiteral []) declared.type.node
      declared.default ((inputs.get? declared.name.node).map (executor.coerceInput [])) =
        pure value)
    {before after : σ} {result : Except InputError (Option Value)}
    (ran : executor.coerceVariable inputs declared before = some (result, after)) :
    (valueLeft? result).getD .null = value := by
  rw [coerce_variable_eq input, coerced, policy] at ran
  cases value with
  | null =>
      replace ran : (if declared.type.node.isNonNull then
          throw (.missingVariable declared.name.node declared.type.node)
        else pure none : Action σ InputError (Option Value)) before = some (result, after) := ran
      split at ran <;> cases ran <;> rfl
  | _ =>
      cases ran
      rfl

/-- The variables of an operation, each declared once, have been coerced. -/
structure Executor.Binds (executor : Executor σ) (inputs : Object)
    (definitions : List VariableDefinition) (bindings : Object) : Prop where
  distinct : (definitions.map fun definition => definition.name.node).Nodup
  coerced : ∃ place journal later,
    executor.coerceVariables inputs place definitions journal = some (.ok bindings, later)

/--
A constant literal and its value are coerced alike at any type that no callback reads. An argument
of the type that is given the literal, and one that is given a variable of the type which gets it,
then become the same, unless the literal does not fit. In that case the field and the variable are
at fault, for the same cause.
-/
theorem literals_coerce_as_values (accepted : executor.schema.Accepted)
    (policy : executor.isNullish = Value.isNull) {type : TypeRef}
    (input : executor.schema.IsInput type) (unhooked : executor.Unhooked type)
    {literal : Literal} (constant : literal.Constant) :
    (∀ values others, executor.coerceLiteral values literal type =
        executor.coerceInput others (literal.toValue values) type) ∧
      ∀ argument declared, executor.schema.Takes argument → argument.type.node = type →
        declared.type.node = type →
        ∀ inputs definitions bindings, executor.Binds inputs definitions bindings →
          declared ∈ definitions → declared.Gets inputs literal →
          ∀ inline bound : Field, inline.Gives argument.name.node literal →
            bound.Gives argument.name.node (.variable declared.name.node) → ∀ values,
            (∃ value, executor.coerceLiteral values literal type.nullable = pure value ∧
              executor.coerceArgument bindings bound argument =
                executor.coerceArgument values inline argument) ∨
            ∃ cause, executor.coerceLiteral values literal type.nullable = throw cause ∧
              executor.coerceArgument values inline argument =
                throw (.invalidArgument argument.name.node cause) ∧
              executor.coerceVariable inputs declared =
                throw (.invalidVariable declared.name.node cause) := by
  have constants := executor.schema.accepted_constant_defaults accepted
  have plain := unhooked.plain
  constructor
  · intro values others
    exact coerce_literal_as_value policy constants plain values others values constant type .here
  · rintro argument declared ⟨_, object, found, field, inside, located, listed, rfl⟩ rfl typed
      inputs definitions bindings ⟨distinct, place, journal, later, finished⟩ member gets inline
      bound gives refers values
    have constantly := constants.objects _ object found field inside located listed
    have typed_input : executor.schema.IsInput declared.type.node := typed ▸ input
    obtain ⟨before, result, after, ran, left_over⟩ :=
      variable_value_coerced distinct finished member
    have by_variable := variable_as_literal policy constants unhooked constant typed gets values
    have inert : Inert (executor.coerceLiteral values literal located.node.type.node.nullable) :=
      ActionLaw.coerce_literal (plain.reads inertLaw) values literal _
        (executor.schema.leads_to_nullable _)
    generalize ends : executor.coerceLiteral values literal located.node.type.node.nullable =
      action at by_variable inert ⊢
    cases inert with
    | pure value =>
        left
        refine ⟨value, rfl, ?_⟩
        have stands : variableValue bindings declared.name.node = value := by
          rw [variableValue, left_over]
          exact variable_stands_for policy typed_input by_variable ran
        exact argument_alike policy constants unhooked constantly constant gives refers
          (stands ▸ ends) before
    | throw cause =>
        right
        refine ⟨cause, rfl, ?_, ?_⟩
        · rw [Executor.coerceArgument, argument_as_literal policy constants unhooked constant rfl
            constantly gives values values, ends]
          rfl
        · rw [coerce_variable_eq typed_input, by_variable]
          rfl
    | unfinished =>
        rw [coerce_variable_eq typed_input, by_variable] at ran
        cases ran

/-! A kennel where walks are planned, by a plan that leaves out a default and is no list. -/

def walkSource : String :=
  "input Walk{days:[Int!]!=1 far:Boolean=true} type Kennel{walk(plan:Walk!):Int}"

def walkPlan : Literal := .object [(.unplaced "days", .unplaced (.int 3))]

def walkVariable : VariableDefinition where
  name := .unplaced "plan"
  type := .unplaced (.nonNull (.named "Walk"))
  default := some (.unplaced walkPlan)

def walkField (plan : Literal) : Field where
  aliasName := none
  name := .unplaced "walk"
  arguments := some (.unplaced [⟨.unplaced "plan", .unplaced plan⟩])
  directives := none
  selections := none

def walkExecutor (schema : Schema) : Executor Unit := { kennel with schema := schema }

/-- The argument of a walk, what its variable stands for and what it becomes. -/
def walkArguments? (schema : Schema) : Option (Located InputDefinition × Object × Object) :=
  match schema.type? "Walk", schema.type? "Kennel" with
  | some (.inputObject _), some (.object object) =>
      match (object.field? "walk").map (·.arguments) with
      | some [argument] =>
          match (walkExecutor schema).coerceVariables [] .origin [walkVariable] ⟨(), []⟩ with
          | some (.ok bindings, _) =>
              match (walkExecutor schema).coerceArguments bindings (walkField (.variable "plan"))
                  [argument] () with
              | some (.ok arguments, _) =>
                  if argument.node.name.node = "plan" ∧
                      argument.node.type.node = .nonNull (.named "Walk") ∧
                      (bindings.get? "plan").isSome then
                    some (argument, bindings, arguments)
                  else none
              | _ => none
          | _ => none
      | _ => none
  | _, _ => none

/-- A schema by which walks are planned. -/
structure PlansWalks (schema : Schema) (argument : Located InputDefinition)
    (bindings arguments : Object) : Prop where
  accepted : schema.Accepted
  input : ∃ input, schema.type? "Walk" = some (.inputObject input)
  takes : ∃ object definition, schema.type? "Kennel" = some (.object object) ∧
    object.field? "walk" = some definition ∧ definition.arguments = [argument]
  named : argument.node.name.node = "plan"
  typed : argument.node.type.node = .nonNull (.named "Walk")
  bound : ∃ later, (walkExecutor schema).coerceVariables [] .origin [walkVariable] ⟨(), []⟩ =
    some (.ok bindings, later)
  present : (bindings.get? "plan").isSome
  given : ∃ later, (walkExecutor schema).coerceArguments bindings (walkField (.variable "plan"))
    [argument] () = some (.ok arguments, later)

theorem walk_arguments_plan {schema : Schema} (accepted : schema.Accepted)
    {argument : Located InputDefinition} {bindings arguments : Object}
    (found : walkArguments? schema = some (argument, bindings, arguments)) :
    PlansWalks schema argument bindings arguments := by
  unfold walkArguments? at found
  split at found
  · rename_i input object walk declared
    split at found
    · rename_i _ takes
      split at found
      · rename_i _ later bound
        split at found
        · rename_i _ after given
          split at found
          · rename_i facts
            cases found
            obtain ⟨definition, defined, only⟩ := Option.map_eq_some_iff.mp takes
            exact ⟨accepted, ⟨input, walk⟩, ⟨object, definition, declared, defined, only⟩, facts.1,
              facts.2.1, ⟨later, bound⟩, facts.2.2, after, given⟩
          · cases found
        · cases found
      · cases found
    · cases found
  · cases found

theorem walk_source_read :
    ((Schema.ofSource walkSource "Kennel" none).toOption.bind walkArguments?).isSome = true := by
  rw [Schema.of_source_spelled walkSource String.toList_ofList]
  decide +kernel

theorem some_schema_plans_walks :
    ∃ schema argument bindings arguments, PlansWalks schema argument bindings arguments := by
  obtain ⟨schema, ⟨argument, bindings, arguments⟩, accepted, found⟩ :=
    Schema.accepted_of_found walk_source_read
  exact ⟨schema, argument, bindings, arguments, walk_arguments_plan accepted found⟩

theorem PlansWalks.takes_argument {schema : Schema} {argument : Located InputDefinition}
    {bindings arguments : Object} (plans : PlansWalks schema argument bindings arguments) :
    schema.Takes argument.node := by
  obtain ⟨object, definition, declared, defined, only⟩ := plans.takes
  obtain ⟨field, found, rfl⟩ := Option.map_eq_some_iff.mp defined
  exact ⟨_, object, declared, field, List.mem_of_find?_eq_some found, argument,
    only ▸ List.mem_cons_self, rfl⟩

/-- A plan makes the same walk whether it is written in place or as the default of a variable. -/
theorem walks_planned_alike :
    ∃ (executor : Executor Unit) (argument : InputDefinition) (bindings : Object),
      executor.schema.Accepted ∧ executor.schema.Takes argument ∧
        executor.Binds [] [walkVariable] bindings ∧
        executor.coerceLiteral [] walkPlan (.nonNull (.named "Walk")) =
          executor.coerceInput [] (walkPlan.toValue []) (.nonNull (.named "Walk")) ∧
        executor.coerceArgument bindings (walkField (.variable "plan")) argument =
          executor.coerceArgument [] (walkField walkPlan) argument := by
  obtain ⟨schema, argument, bindings, arguments, plans⟩ := some_schema_plans_walks
  obtain ⟨input, declared⟩ := plans.input
  obtain ⟨later, bound⟩ := plans.bound
  have unhooked : (walkExecutor schema).Unhooked (.nonNull (.named "Walk")) := by
    intro name _
    rw [Executor.customScalar?]
    split <;> rfl
  have constant : walkPlan.Constant := .object (by decide) fun field inside => by
    cases List.mem_singleton.mp inside
    exact .int 3
  have binds : (walkExecutor schema).Binds [] [walkVariable] bindings :=
    ⟨by decide, .origin, ⟨(), []⟩, later, bound⟩
  have gets : walkVariable.Gets [] walkPlan := .default rfl rfl rfl
  have typed : (walkExecutor schema).schema.IsInput (.nonNull (.named "Walk")) :=
    ⟨.inputObject input, declared, rfl⟩
  have alike := literals_coerce_as_values plans.accepted rfl typed unhooked constant
  refine ⟨walkExecutor schema, argument.node, bindings, plans.accepted,
    plans.takes_argument, binds, alike.1 [] [], ?_⟩
  have settled := alike.2 argument.node walkVariable plans.takes_argument plans.typed rfl [] _
    bindings binds List.mem_cons_self gets (walkField walkPlan) (walkField (.variable "plan"))
    ⟨_, by rw [plans.named]; rfl, rfl⟩ ⟨_, by rw [plans.named]; rfl, rfl⟩ []
  rcases settled with ⟨value, -, same⟩ | ⟨cause, -, -, failed⟩
  · exact same
  · obtain ⟨before, result, after, ran, left⟩ :=
      variable_value_coerced (by decide) bound List.mem_cons_self
    have present := plans.present
    rw [failed] at ran
    cases ran
    rw [show "plan" = walkVariable.name.node from rfl, left] at present
    cases present

end GraphQL
