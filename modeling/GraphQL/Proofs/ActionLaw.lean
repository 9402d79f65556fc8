import GraphQL.Proofs.Action

/-!
Laws of actions.

Some properties of actions are handed on from the parts of an action to the whole: that it ends in
one way in every context, say, or that it leaves the context alone. What of that kind holds of the
callbacks holds of the coercion of inputs and of the resolving of fields too. Coercion at a type
runs only the callbacks of scalars that the type leads to.
-/

namespace GraphQL

variable {σ : Type}

/-- A property that an action has if its parts have it. -/
structure ActionLaw (σ : Type) where
  holds : ∀ {ε α : Type}, Action σ ε α → Prop
  pure : ∀ {ε α : Type} (value : α), holds (Pure.pure value : Action σ ε α)
  throw : ∀ {ε α : Type} (error : ε), holds (MonadExcept.throw error : Action σ ε α)
  unfinished : ∀ {ε α : Type}, holds (GraphQL.unfinished : Action σ ε α)
  bind : ∀ {ε α β : Type} {action : Action σ ε α} {next : α → Action σ ε β}, holds action →
    (∀ value, holds (next value)) → holds (action >>= next)
  adapt : ∀ {ε ε' α : Type} (change : ε → ε') {action : Action σ ε α}, holds action →
    holds (ExceptT.adapt change action : Action σ ε' α)

/-- Actions that leave what is seen of the context, such as a log, as it is. -/
def keepLaw {τ : Type} (log : σ → τ) : ActionLaw σ where
  holds action := ∀ context result later, action context = some (result, later) →
    log later = log context
  pure _ _ _ _ ended := by
    cases ended
    rfl
  throw _ _ _ _ ended := by
    cases ended
    rfl
  unfinished _ _ _ ended := by cases ended
  bind first next context result later ended := by
    rcases Action.bind_finished ended with ⟨value, middle, ran, rest⟩ | ⟨error, rfl, ran⟩
    · exact (next value _ _ _ rest).trans (first _ _ _ ran)
    · exact first _ _ _ ran
  adapt change _ keeps context result later ended := by
    rw [Action.adapt_apply, Option.map_eq_some_iff] at ended
    obtain ⟨⟨inner, reached⟩, ran, same⟩ := ended
    cases same
    exact keeps _ _ _ ran

/-- With an input object, type names contain those of all its fields. -/
def Schema.ClosedUnderFields (schema : Schema) (among : String → Prop) : Prop :=
  ∀ name input, among name → schema.type? name = some (.inputObject input) →
    ∀ field ∈ input.fields, among field.node.type.node.innermost

/-- The callbacks of a scalar that is not built in. -/
def Executor.customScalar? (executor : Executor σ) (name : String) : Option (ScalarHooks σ) :=
  match executor.schema.type? name, BuiltinScalar.ofName? name with
  | some (.scalar _), none => executor.scalar? name
  | _, _ => none

/-- The custom scalars among some types are read by a law. -/
structure ActionLaw.Reads (law : ActionLaw σ) (executor : Executor σ) (among : String → Prop) :
    Prop where
  closed : executor.schema.ClosedUnderFields among
  parseValue : ∀ name, among name → ∀ hooks ∈ executor.customScalar? name, ∀ value,
    law.holds (hooks.parseValue value)
  parseLiteral : ∀ name, among name → ∀ hooks ∈ executor.customScalar? name, ∀ literal,
    law.holds (hooks.parseLiteral literal)

theorem nullable_innermost (type : TypeRef) : type.nullable.innermost = type.innermost := by
  cases type <;> rfl

namespace ActionLaw

variable (law : ActionLaw σ) {executor : Executor σ} {among : String → Prop}

/-- A coercion obeys at every type whose innermost one is among the given ones. -/
def HoldsAmong (among : String → Prop) {α : Type} (coerce : TypeRef → Coercion σ α) : Prop :=
  ∀ type, among type.innermost → law.holds (coerce type)

/-- An input obeys at every type if its elements do, and it does at every named type. -/
theorem shape_coerce {isNullish : Value → Bool} {settled : Option Value}
    {elements : Option (TypeRef → Coercion σ (List Value))} {named : String → Coercion σ Value}
    (each : ∀ coerce ∈ elements, law.HoldsAmong among coerce)
    (leaf : ∀ name, among name → law.holds (named name)) :
    law.HoldsAmong among (InputShape.coerce isNullish ⟨settled, elements, named⟩) := by
  intro type inside
  induction type with
  | named name =>
      rw [InputShape.coerce]
      cases settled with
      | some value => exact law.pure value
      | none => exact leaf name inside
  | list element ih =>
      rw [InputShape.coerce]
      cases settled with
      | some value => exact law.pure value
      | none =>
          cases elements with
          | some coerce => exact law.bind (each coerce rfl element inside) fun _ => law.pure _
          | none => exact law.bind (ih inside) fun _ => law.pure _
  | nonNull inner ih =>
      rw [InputShape.coerce]
      apply law.bind (ih inside)
      intro value
      split
      · exact law.throw _
      · exact law.pure value

theorem lift_except (result : Except CoercionError Value) :
    law.holds (Executor.coerceNamed.liftExcept result : Coercion σ Value) := by
  cases result with
  | ok value => exact law.pure value
  | error error => exact law.throw error

section Fields

variable (executor) {expand : LiteralCoercion σ}
  (expanded : ∀ literal, law.HoldsAmong among (expand literal))

include expanded

theorem given_or_default {type : TypeRef} (inside : among type.innermost)
    (default : Option (Located Literal)) {given : Option (TypeRef → Coercion σ Value)}
    (provided : ∀ coerce ∈ given, law.HoldsAmong among coerce) :
    law.holds (executor.givenOrDefault expand type default given) := by
  have within : among type.nullable.innermost := by rwa [nullable_innermost]
  unfold Executor.givenOrDefault
  cases given
  case' none => refine law.bind (law.pure Value.null) fun value => ?_
  case' some coerce => refine law.bind (provided coerce rfl type.nullable within) fun value => ?_
  -- Whatever was given, a default takes its place or it stays.
  all_goals
    dsimp only
    split
    · exact expanded _ _ within
    · exact law.pure value

theorem coerce_field (field : InputDefinition) (inside : among field.type.node.innermost)
    {given : Option (TypeRef → Coercion σ Value)}
    (provided : ∀ coerce ∈ given, law.HoldsAmong among coerce) :
    law.holds (executor.coerceField expand field given) := by
  have found := law.given_or_default executor expanded inside field.default provided
  rw [Executor.coerceField]
  apply law.adapt
  apply law.bind found
  intro value
  split
  · split
    · exact law.throw _
    · exact law.pure _
  · exact law.pure _

theorem coerce_fields {given : String → Option (TypeRef → Coercion σ Value)}
    (provided : ∀ name, ∀ coerce ∈ given name, law.HoldsAmong among coerce)
    (fields : List (Located InputDefinition))
    (inside : ∀ field ∈ fields, among field.node.type.node.innermost) :
    law.holds (executor.coerceFields expand given fields) := by
  induction fields with
  | nil => exact law.pure _
  | cons field rest ih =>
      have first := law.coerce_field executor expanded field.node
        (inside field List.mem_cons_self) (provided field.node.name.node)
      have others := ih fun other member => inside other (List.mem_cons_of_mem _ member)
      rw [Executor.coerceFields]
      apply law.bind first
      intro value
      apply law.bind others
      intro fields
      cases value with
      | none => exact law.pure _
      | some present => exact law.pure _

variable (closed : executor.schema.ClosedUnderFields among)

include closed

theorem coerce_named
    {fields : Option (List String × (String → Option (TypeRef → Coercion σ Value)))}
    {custom : ScalarHooks σ → Action σ FieldError Value} {plain : Value}
    (provided : ∀ entries ∈ fields, ∀ name, ∀ coerce ∈ entries.2 name, law.HoldsAmong among coerce)
    (reads : ∀ name, among name → ∀ hooks ∈ executor.customScalar? name, law.holds (custom hooks))
    (name : String) (inside : among name) :
    law.holds (executor.coerceNamed expand fields custom plain name) := by
  rw [Executor.coerceNamed]
  split
  · rename_i input found
    cases fields with
    | none => exact law.throw _
    | some entries =>
        dsimp only
        rw [Executor.coerceInputObject]
        split
        · exact law.throw _
        · have each := law.coerce_fields executor expanded (provided entries rfl)
            input.fields (closed name input inside found)
          apply law.bind each
          intro values
          exact law.pure _
  · rename_i scalar found
    cases named : BuiltinScalar.ofName? name with
    | some builtin => exact law.lift_except _
    | none =>
        cases hooked : executor.scalar? name with
        | none => exact law.pure plain
        | some hooks =>
            have custom_hooks : executor.customScalar? name = some hooks := by
              simp [Executor.customScalar?, found, named, hooked]
            exact law.adapt _ (reads name inside hooks custom_hooks)
  · exact law.lift_except _

end Fields

section Inputs

variable {law} {expand : LiteralCoercion σ} (reads : law.Reads executor among)
  (expanded : ∀ literal, law.HoldsAmong among (expand literal))

include reads expanded

/-- A literal that is no list or object has neither elements nor fields to coerce. -/
theorem plain_literal (literal : Literal) (plain : Value) :
    law.HoldsAmong among
      (InputShape.coerce executor.isNullish
        { settled := none
          elements := none
          named := executor.coerceNamed expand none
            (fun hooks => hooks.parseLiteral literal) plain }) := by
  apply law.shape_coerce
  · intro _ absent
    cases absent
  · apply law.coerce_named executor expanded reads.closed
    · intro _ absent
      cases absent
    · intro name inside hooks custom
      exact reads.parseLiteral name inside hooks custom literal

/-- A value that is no list or object has neither elements nor fields to coerce. -/
theorem plain_value (value : Value) (settled : Option Value) :
    law.HoldsAmong among
      (InputShape.coerce executor.isNullish
        { settled := settled
          elements := none
          named := executor.coerceNamed expand none
            (fun hooks => hooks.parseValue value) value }) := by
  apply law.shape_coerce
  · intro _ absent
    cases absent
  · apply law.coerce_named executor expanded reads.closed
    · intro _ absent
      cases absent
    · intro name inside hooks custom
      exact reads.parseValue name inside hooks custom value

end Inputs

section Shapes

variable {law} {expand : LiteralCoercion σ}

mutual

theorem coerce_literal_with (reads : law.Reads executor among)
    (expanded : ∀ literal, law.HoldsAmong among (expand literal)) (values : Object) :
    ∀ literal, law.HoldsAmong among (executor.coerceLiteralWith values expand literal)
  | .variable _ | .null => by
      intro type inside
      rw [Executor.coerceLiteralWith]
      exact law.shape_coerce (fun _ absent => by cases absent) (fun _ _ => law.pure _) type inside
  | .list items => by
      intro type inside
      have each := coerce_literal_elements reads expanded values 0 items
      rw [Executor.coerceLiteralWith]
      refine law.shape_coerce ?_ ?_ type inside
      · intro coerce given
        cases given
        exact each
      · apply law.coerce_named executor expanded reads.closed
        · intro _ absent
          cases absent
        · intro name among_them hooks custom
          exact reads.parseLiteral name among_them hooks custom (.list items)
  | .object fields => by
      intro type inside
      have each := coerce_literal_entry reads expanded values fields
      rw [Executor.coerceLiteralWith]
      refine law.shape_coerce ?_ ?_ type inside
      · intro _ absent
        cases absent
      · apply law.coerce_named executor expanded reads.closed
        · intro entries given
          cases given
          exact each
        · intro name among_them hooks custom
          exact reads.parseLiteral name among_them hooks custom (.object fields)
  | .int _ | .float _ | .string _ | .bool _ | .enum _ => by
      intro type inside
      rw [Executor.coerceLiteralWith]
      · exact plain_literal reads expanded _ _ type inside
      all_goals intros; contradiction

theorem coerce_literal_elements (reads : law.Reads executor among)
    (expanded : ∀ literal, law.HoldsAmong among (expand literal)) (values : Object) :
    ∀ (index : Nat) (items : List (Located Literal)),
      law.HoldsAmong among (executor.coerceLiteralElements values expand index items)
  | _, [] => by
      intro type _
      rw [Executor.coerceLiteralElements]
      exact law.pure _
  | index, ⟨item, _⟩ :: rest => by
      intro type inside
      have first := coerce_literal_with reads expanded values item type inside
      have others := coerce_literal_elements reads expanded values (index + 1) rest type inside
      rw [Executor.coerceLiteralElements]
      apply law.bind (law.adapt _ first)
      intro value
      apply law.bind others
      intro values
      exact law.pure _

theorem coerce_literal_entry (reads : law.Reads executor among)
    (expanded : ∀ literal, law.HoldsAmong among (expand literal)) (values : Object) :
    ∀ (fields : List (Located String × Located Literal)) (name : String),
      ∀ coerce ∈ executor.coerceLiteralEntry values expand fields name,
        law.HoldsAmong among coerce
  | [], _, coerce, found => by
      rw [Executor.coerceLiteralEntry] at found
      cases found
  | (key, ⟨value, _⟩) :: rest, name, coerce, found => by
      rw [Executor.coerceLiteralEntry] at found
      split at found
      · cases found
        exact coerce_literal_with reads expanded values value
      · exact coerce_literal_entry reads expanded values rest name coerce found

end

mutual

theorem coerce_input_with (reads : law.Reads executor among)
    (expanded : ∀ literal, law.HoldsAmong among (expand literal)) :
    ∀ value, law.HoldsAmong among (executor.coerceInputWith expand value)
  | .list items => by
      intro type inside
      have each := coerce_elements_with reads expanded 0 items
      rw [Executor.coerceInputWith]
      refine law.shape_coerce ?_ ?_ type inside
      · intro coerce given
        cases given
        exact each
      · apply law.coerce_named executor expanded reads.closed
        · intro _ absent
          cases absent
        · intro name among_them hooks custom
          exact reads.parseValue name among_them hooks custom (.list items)
  | .object fields => by
      intro type inside
      have each := coerce_entry_with reads expanded fields
      rw [Executor.coerceInputWith]
      refine law.shape_coerce ?_ ?_ type inside
      · intro _ absent
        cases absent
      · apply law.coerce_named executor expanded reads.closed
        · intro entries given
          cases given
          exact each
        · intro name among_them hooks custom
          exact reads.parseValue name among_them hooks custom (.object fields)
  | .null | .bool _ | .int _ | .float _ | .string _ | .record _ _ _ => by
      intro type inside
      rw [Executor.coerceInputWith]
      · exact plain_value reads expanded _ _ type inside
      all_goals intros; contradiction

theorem coerce_elements_with (reads : law.Reads executor among)
    (expanded : ∀ literal, law.HoldsAmong among (expand literal)) :
    ∀ (index : Nat) (items : List Value),
      law.HoldsAmong among (executor.coerceElementsWith expand index items)
  | _, [] => by
      intro type _
      rw [Executor.coerceElementsWith]
      exact law.pure _
  | index, item :: rest => by
      intro type inside
      have first := coerce_input_with reads expanded item type inside
      have others := coerce_elements_with reads expanded (index + 1) rest type inside
      rw [Executor.coerceElementsWith]
      apply law.bind (law.adapt _ first)
      intro value
      apply law.bind others
      intro values
      exact law.pure _

theorem coerce_entry_with (reads : law.Reads executor among)
    (expanded : ∀ literal, law.HoldsAmong among (expand literal)) :
    ∀ (fields : List (String × Value)) (name : String),
      ∀ coerce ∈ executor.coerceEntryWith expand fields name, law.HoldsAmong among coerce
  | [], _, coerce, found => by
      rw [Executor.coerceEntryWith] at found
      cases found
  | (key, value) :: rest, name, coerce, found => by
      rw [Executor.coerceEntryWith] at found
      split at found
      · cases found
        exact coerce_input_with reads expanded value
      · exact coerce_entry_with reads expanded rest name coerce found

end

end Shapes

section Coercions

variable {law} (reads : law.Reads executor among)

include reads

theorem expand_default (values : Object) (depth : Nat) (literal : Literal) :
    law.HoldsAmong among (executor.expandDefault values depth literal) := by
  induction depth generalizing literal with
  | zero =>
      intro type _
      exact law.unfinished
  | succ depth ih =>
      intro type inside
      rw [Executor.expandDefault]
      exact coerce_literal_with reads ih values literal type inside

theorem coerce_literal (values : Object) (literal : Literal) :
    law.HoldsAmong among (executor.coerceLiteral values literal) :=
  expand_default reads values (executor.schema.defaultCount + 1) literal

theorem coerce_argument (values : Object) (field : Field) (argument : InputDefinition)
    (inside : among argument.type.node.innermost) :
    law.holds (executor.coerceArgument values field argument) := by
  have provided : ∀ coerce ∈ (field.argument? argument.name.node).map fun literal =>
      executor.coerceLiteral values literal.node, law.HoldsAmong among coerce := by
    intro coerce given
    obtain ⟨literal, -, rfl⟩ := Option.map_eq_some_iff.mp given
    exact coerce_literal reads values literal.node
  have found := law.given_or_default executor (coerce_literal reads values) inside
    argument.default provided
  rw [Executor.coerceArgument]
  apply law.bind (law.adapt _ found)
  intro value
  split
  · split
    · exact law.throw _
    · exact law.pure _
  · exact law.pure _

theorem coerce_arguments (values : Object) (field : Field)
    (arguments : List (Located InputDefinition))
    (inside : ∀ argument ∈ arguments, among argument.node.type.node.innermost) :
    law.holds (executor.coerceArguments values field arguments) := by
  induction arguments with
  | nil => exact law.pure _
  | cons argument rest ih =>
      have first := coerce_argument reads values field argument.node
        (inside argument List.mem_cons_self)
      have others := ih fun other member => inside other (List.mem_cons_of_mem _ member)
      rw [Executor.coerceArguments]
      apply law.bind first
      intro value
      apply law.bind others
      intro arguments
      cases value with
      | none => exact law.pure _
      | some present => exact law.pure _

theorem coerce_input (values : Object) (value : Value) :
    law.HoldsAmong among (executor.coerceInput values value) :=
  coerce_input_with reads (expand_default reads values _) value

theorem coerce_variable (inputs : Object) (declared : VariableDefinition)
    (inside : among declared.type.node.innermost) :
    law.holds (executor.coerceVariable inputs declared) := by
  have provided : ∀ coerce ∈ (inputs.get? declared.name.node).map (executor.coerceInput []),
      law.HoldsAmong among coerce := by
    intro coerce given
    obtain ⟨value, -, rfl⟩ := Option.map_eq_some_iff.mp given
    exact coerce_input reads [] value
  have found := law.given_or_default executor (coerce_literal reads []) inside declared.default
    provided
  rw [Executor.coerceVariable]
  split
  · exact law.throw _
  · split
    · apply law.bind (law.adapt _ found)
      intro value
      split
      · split
        · exact law.throw _
        · exact law.pure _
      · exact law.pure _
    · exact law.throw _

end Coercions

end ActionLaw

/-- A resolver and its hooks obey a law in what they are asked. -/
structure ActionLaw.Resolves (law : ActionLaw σ) (asked : FieldContext σ → Prop)
    (resolver : Resolver σ) : Prop where
  before : ∀ hook ∈ resolver.before, ∀ context, asked context → law.holds (hook context)
  resolve : ∀ context, asked context → law.holds (resolver.resolve context)
  after : ∀ hook ∈ resolver.after, ∀ context, asked context →
    ∀ value, law.holds (hook context value)

/-- A resolver is asked by an executor, about its own schema. -/
structure Executor.Asks (executor : Executor σ) (context : FieldContext σ) : Prop where
  schema : context.schema = executor.schema
  execute : ∃ depth, context.execute = executor.execute depth

/-- All callbacks of an executor obey a law in what the executor asks of them. -/
structure ActionLaw.Governs (law : ActionLaw σ) (executor : Executor σ) : Prop where
  resolvers : ∀ entry ∈ executor.resolvers, law.Resolves executor.Asks entry.resolver
  parseValue : ∀ entry ∈ executor.scalars, ∀ value, law.holds (entry.2.parseValue value)
  parseLiteral : ∀ entry ∈ executor.scalars, ∀ literal, law.holds (entry.2.parseLiteral literal)
  serialize : ∀ entry ∈ executor.scalars, ∀ value, law.holds (entry.2.serialize value)

theorem lookup_member {α : Type} {entries : List (String × α)} {name : String} {value : α}
    (found : entries.lookup name = some value) : (name, value) ∈ entries := by
  induction entries with
  | nil => cases found
  | cons entry rest ih =>
      obtain ⟨key, first⟩ := entry
      rw [List.lookup_cons] at found
      by_cases same : name == key
      · simp only [same, Option.some.injEq] at found
        simp [← found, eq_of_beq same]
      · simp only [same] at found
        exact List.mem_cons_of_mem _ (ih found)

namespace ActionLaw

variable {law : ActionLaw σ} {executor : Executor σ}

theorem Governs.reads (governs : law.Governs executor) : law.Reads executor fun _ => True := by
  have registered {name : String} {hooks : ScalarHooks σ}
      (custom : hooks ∈ executor.customScalar? name) : (name, hooks) ∈ executor.scalars := by
    rw [Executor.customScalar?] at custom
    split at custom
    · exact lookup_member custom
    · cases custom
  exact
    { closed := fun _ _ _ _ _ _ => trivial
      parseValue := fun _ _ _ custom => governs.parseValue _ (registered custom)
      parseLiteral := fun _ _ _ custom => governs.parseLiteral _ (registered custom) }

theorem Resolves.run {resolver : Resolver σ} (obeys : law.Resolves executor.Asks resolver)
    {context : FieldContext σ} (asked : executor.Asks context) :
    law.holds (Executor.runResolver resolver context) := by
  unfold Executor.runResolver
  cases replaced : resolver.before
  case' none => refine law.bind (law.pure context.source) fun source => ?_
  case' some before =>
    refine law.bind (obeys.before before replaced context asked) fun source => ?_
  -- A new source changes nothing of what the executor provides.
  all_goals
    have seen : executor.Asks { context with source := source } := ⟨asked.schema, asked.execute⟩
    refine law.bind (obeys.resolve _ seen) fun value => ?_
    cases hooked : resolver.after with
    | none => exact law.pure value
    | some after => exact obeys.after after hooked _ seen value

/-- What the callbacks obey, the resolving of fields does. -/
theorem Governs.resolve_value (governs : law.Governs executor) (scope : RequestScope)
    (depth : Nat) (object : ObjectType) (source : Value) (field : Located Field)
    (definition : FieldDefinition) :
    law.holds (executor.resolveValue scope (executor.execute depth) object source field
      definition) := by
  unfold Executor.resolveValue
  cases found : executor.resolver? object.name.node field.node.name.node with
  | none =>
      simp only [found]
      exact law.pure _
  | some resolver =>
      simp only [found]
      obtain ⟨entry, at_entry, rfl⟩ := Option.map_eq_some_iff.mp found
      have obeys := governs.resolvers entry (List.mem_of_find?_eq_some at_entry)
      have arguments := coerce_arguments governs.reads scope.variableValues field.node
        definition.arguments fun _ _ => trivial
      apply law.bind (law.adapt _ arguments)
      intro coerced
      exact obeys.run ⟨rfl, depth, rfl⟩

end ActionLaw

end GraphQL
