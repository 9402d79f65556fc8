import GraphQL.Proofs.CoercionJudgement
import GraphQL.Proofs.Reach

/-!
Coercions that come to an end.

Defaults are coerced like all literals, and the objects in them may leave fields open whose own
defaults then step in. Unless a default calls for itself in this way, no more defaults are within
each other than the schema declares, and every coercion ends if the callbacks of scalars do.
-/

namespace GraphQL

variable {σ ε ε' α β : Type}

/-- An action that ends in every context, with a value or a failure. -/
def Ends (action : Action σ ε α) : Prop :=
  ∀ context, (action context).isSome = true

theorem Ends.bind {action : Action σ ε α} {next : α → Action σ ε β} {property : α → Prop}
    (first : Ends action) (ensured : Ensures action property)
    (second : ∀ value, property value → Ends (next value)) : Ends (action >>= next) := by
  intro context
  obtain ⟨⟨result, later⟩, ran⟩ := Option.isSome_iff_exists.mp (first context)
  rw [Action.bind_apply, ran]
  cases result with
  | ok value => exact second value (ensured.holds _ _ _ ran) later
  | error error => rfl

theorem Ends.adapt (change : ε → ε') {action : Action σ ε α} (ends : Ends action) :
    Ends (ExceptT.adapt change action : Action σ ε' α) := by
  intro context
  rw [Action.adapt_apply, Option.isSome_map]
  exact ends context

/-- The judgement that speaks of all runs: they end, and their values have a property. -/
def endsJudgement : Judgement σ where
  holds action property := Ends action ∧ Ensures action property
  pure holds := ⟨fun _ => rfl, .pure holds⟩
  throw error := ⟨fun _ => rfl, .throw error⟩
  bind first second :=
    ⟨first.1.bind first.2 fun value holds => (second value holds).1,
      first.2.bind fun value holds => (second value holds).2⟩
  adapt change := fun judged => ⟨judged.1.adapt change, judged.2.adapt change⟩
  also known judged :=
    ⟨judged.1, ⟨fun _ _ _ ran => ⟨known.holds _ _ _ ran, judged.2.holds _ _ _ ran⟩⟩⟩

theorem Ends.judged {action : Action σ ε α} (ends : Ends action) :
    endsJudgement.holds action fun _ => True := ⟨ends, .trivial action⟩

/-- The callbacks of a scalar end, whatever they are given. -/
structure ScalarHooks.Return (hooks : ScalarHooks σ) : Prop where
  parseValue : ∀ value, Ends (hooks.parseValue value)
  parseLiteral : ∀ literal, Ends (hooks.parseLiteral literal)
  serialize : ∀ value, Ends (hooks.serialize value)

/-- The callbacks that read the inputs of a scalar end. -/
structure ScalarHooks.ReadsEnd (hooks : ScalarHooks σ) : Prop where
  parseValue : ∀ value, Ends (hooks.parseValue value)
  parseLiteral : ∀ literal, Ends (hooks.parseLiteral literal)

theorem ScalarHooks.Return.reads_end {hooks : ScalarHooks σ} (returns : hooks.Return) :
    hooks.ReadsEnd := ⟨returns.parseValue, returns.parseLiteral⟩

variable {executor : Executor σ}

/-- An input field whose own default steps in somewhere in the default of another one. -/
def Executor.DefaultCalls (executor : Executor σ) (outer inner : InputDefinition) : Prop :=
  ∃ literal ∈ outer.default, ∃ name fields input,
    Literal.PartAt executor.schema outer.type.node literal.node (.named name) (.object fields) ∧
      executor.schema.type? name = some (.inputObject input) ∧
      (∃ field ∈ input.fields, field.node = inner) ∧ inner.default.isSome = true ∧
      executor.LeavesOpen fields inner

/-- No default of an input field calls for itself, directly or by way of others. -/
def Executor.FiniteDefaults (executor : Executor σ) : Prop :=
  ∀ field, ¬Relation.TransGen executor.DefaultCalls field field

/-- The input fields of a type that have a default. -/
def TypeDefinition.defaultedInputs : TypeDefinition → List InputDefinition
  | .inputObject input => (input.fields.map (·.node)).filter fun field => field.default.isSome
  | _ => []

def Schema.defaultedInputs (schema : Schema) : List InputDefinition :=
  schema.types.flatMap TypeDefinition.defaultedInputs

theorem Schema.defaulted_inputs_length (schema : Schema) :
    schema.defaultedInputs.length = schema.defaultCount := by
  have alike (type : TypeDefinition) :
      type.defaultedInputs.length = type.inputDefaults.length := by
    cases type with
    | inputObject input =>
        rw [TypeDefinition.defaultedInputs, TypeDefinition.inputDefaults,
          ← List.countP_eq_length_filter, List.countP_map, List.length_filterMap_eq_countP]
        rfl
    | _ => rfl
  simp only [defaultedInputs, defaultCount, List.length_flatMap, alike]

theorem Schema.mem_defaulted_inputs {schema : Schema} {name : String} {input : InputObjectType}
    (declared : schema.type? name = some (.inputObject input)) {field : Located InputDefinition}
    (member : field ∈ input.fields) (defaulted : field.node.default.isSome = true) :
    field.node ∈ schema.defaultedInputs :=
  List.mem_flatMap.mpr ⟨_, List.mem_of_find?_eq_some declared,
    List.mem_filter.mpr ⟨List.mem_map_of_mem member, defaulted⟩⟩

theorem Literal.PartAt.of_nullable {schema : Schema} {type position : TypeRef}
    {literal part : Literal} (inside : Literal.PartAt schema type.nullable literal position part) :
    Literal.PartAt schema type literal position part := by
  cases type with
  | nonNull inner => exact .required inside
  | _ => exact inside

/-- Nothing is asked of the values that coercions come to. -/
theorem no_rules (executor : Executor σ) :
    InputRules executor (fun _ _ => True) fun _ => True where
  null _ := trivial
  required _ := trivial
  list _ := trivial
  leaf _ := trivial
  custom _ _ _ := trivial
  object _ _ := trivial
  undefaulted _ := trivial

section Ending

variable (returns : ∀ name, ∀ hooks ∈ executor.scalar? name, hooks.ReadsEnd)

include returns

theorem returning_reads : endsJudgement.Reads executor where
  parseValue name hooks registered value :=
    ((returns name hooks registered).parseValue value).judged
  parseLiteral name hooks registered literal :=
    ((returns name hooks registered).parseLiteral literal).judged

variable (finite : executor.FiniteDefaults)

include finite

open Classical in
/-- A default ends at a depth beyond the number of defaults that it calls for. -/
theorem default_ends (values : Object) {depth : Nat} {field : InputDefinition}
    (deep : reachCount executor.DefaultCalls executor.schema.defaultedInputs field < depth)
    {literal : Located Literal} (written : literal ∈ field.default) :
    Ends (executor.expandDefault values depth literal.node field.type.node.nullable) := by
  induction depth generalizing field literal with
  | zero => exact absurd deep (Nat.not_lt_zero _)
  | succ depth ih =>
      rw [Executor.expandDefault]
      refine (endsJudgement.literal_coerced (no_rules executor) (returning_reads returns) values
        literal.node _ { used := fun _ _ _ => trivial, defaults := ?_ }).1
      intro name fields part input declared inner member lacks literal' written'
      have defaulted : inner.node.default.isSome = true := Option.isSome_iff_exists.mpr ⟨_, written'⟩
      have calls : executor.DefaultCalls field inner.node :=
        ⟨literal, written, name, fields, input, part.of_nullable, declared, ⟨inner, member, rfl⟩,
          defaulted, lacks⟩
      have less := reach_count_lt finite
        (Schema.mem_defaulted_inputs declared member defaulted) calls
      have ends := ih (Nat.lt_of_lt_of_le less (Nat.le_of_lt_succ deep)) written'
      exact ⟨ends, ⟨fun _ _ _ _ => ⟨trivial, fun _ => trivial⟩⟩⟩

/-- As many defaults as the schema declares are all that can be within each other. -/
theorem defaults_end (values : Object) (name : String) :
    endsJudgement.Expands executor (fun _ _ => True) (fun _ => True)
      (executor.expandDefault values executor.schema.defaultCount) name := by
  classical
  intro input declared field member literal written
  have defaulted : field.node.default.isSome = true := Option.isSome_iff_exists.mpr ⟨_, written⟩
  have below := reach_count_lt_length finite
    (Schema.mem_defaulted_inputs declared member defaulted)
  rw [Schema.defaulted_inputs_length] at below
  exact ⟨default_ends returns finite values below written,
    ⟨fun _ _ _ _ => ⟨trivial, fun _ => trivial⟩⟩⟩

theorem coerce_literal_ends (values : Object) (literal : Literal) (type : TypeRef) :
    Ends (executor.coerceLiteral values literal type) := by
  rw [Executor.coerceLiteral, Executor.expandDefault]
  exact (endsJudgement.literal_coerced (no_rules executor) (returning_reads returns) values literal
    type
    { used := fun _ _ _ => trivial
      defaults := fun name _ _ input declared field member _ =>
        defaults_end returns finite values name input declared field member }).1

theorem coerce_input_ends (values : Object) (value : Value) (type : TypeRef) :
    Ends (executor.coerceInput values value type) :=
  (endsJudgement.input_coerced (no_rules executor) (returning_reads returns)
    (defaults_end returns finite values) value type).1

/-- Coercing a default of an argument or a variable ends, as coercing any other literal does. -/
theorem literal_default_ends (values : Object) (type : TypeRef)
    (default : Option (Located Literal)) :
    endsJudgement.ExpandsTo executor (fun _ _ => True) (executor.coerceLiteral values) type True
      default :=
  fun literal _ => ⟨coerce_literal_ends returns finite values literal.node _,
    ⟨fun _ _ _ _ => ⟨trivial, fun _ => trivial⟩⟩⟩

theorem coerce_arguments_end (values : Object) (field : Field)
    (arguments : List (Located InputDefinition)) :
    Ends (executor.coerceArguments values field arguments) :=
  (endsJudgement.coerce_arguments (no_rules executor) arguments
    (fun argument _ => literal_default_ends returns finite values _ argument.node.default)
    fun _ _ literal _ => (coerce_literal_ends returns finite values literal.node _).judged).1

theorem coerce_variable_ends (inputs : Object) (declared : VariableDefinition) :
    Ends (executor.coerceVariable inputs declared) :=
  (endsJudgement.coerce_variable (no_rules executor) (fun _ => trivial)
    (literal_default_ends returns finite [] _ declared.default)
    fun value _ => (coerce_input_ends returns finite [] value _).judged).1

end Ending

end GraphQL
