import GraphQL.Proofs.LiteralCoercion

/-!
Coercions of one input, compared.

What an input comes to is settled by the schema, the policy on what counts as absent, the callbacks
of scalars and how defaults are expanded. Where the defaults of one coercion come to an end, those
of another one may have to come to the same end; then so does the whole. A constant may be read
under other values of variables too. And a bound on the nesting of defaults can only keep a coercion
from ending: a larger one changes nothing about what has ended.
-/

namespace GraphQL

variable {σ ε ε' α β : Type}

/-- Whatever an action comes to, another one comes to as well. -/
def Below (first second : Action σ ε α) : Prop :=
  ∀ context outcome, first context = some outcome → second context = some outcome

namespace Below

theorem refl (action : Action σ ε α) : Below action action := fun _ _ ran => ran

theorem unfinished (action : Action σ ε α) : Below GraphQL.unfinished action :=
  fun _ _ ran => by cases ran

theorem bind {first second : Action σ ε α} {next next' : α → Action σ ε β}
    (below : Below first second) (then_below : ∀ value, Below (next value) (next' value)) :
    Below (first >>= next) (second >>= next') := by
  intro context outcome ran
  obtain ⟨result, later⟩ := outcome
  rw [Action.bind_apply]
  rcases Action.bind_finished ran with ⟨value, middle, started, finished⟩ | ⟨error, rfl, failed⟩
  · rw [below _ _ started]
    exact then_below value _ _ finished
  · rw [below _ _ failed]

theorem adapt (change : ε → ε') {first second : Action σ ε α} (below : Below first second) :
    Below (ExceptT.adapt change first : Action σ ε' α) (ExceptT.adapt change second) := by
  intro context outcome ran
  rw [Action.adapt_apply, Option.map_eq_some_iff] at ran ⊢
  obtain ⟨reached, started, same⟩ := ran
  exact ⟨reached, below _ _ started, same⟩

/-- Actions that come to nothing but the same are the same. -/
theorem antisymm {first second : Action σ ε α} (below : Below first second)
    (above : Below second first) : first = second := by
  funext context
  apply Option.ext
  intro outcome
  exact ⟨below context outcome, above context outcome⟩

end Below

/-- One coercion is below another one at all types. -/
def BelowAtAll (first second : TypeRef → Coercion σ α) : Prop :=
  ∀ type, Below (first type) (second type)

/-- Executors that read inputs alike: by the same schema, policy and callbacks of scalars. -/
structure Executor.ReadsLike (executor other : Executor σ) : Prop where
  schema : other.schema = executor.schema
  policy : other.isNullish = executor.isNullish
  scalars : other.scalars = executor.scalars

theorem Executor.ReadsLike.refl (executor : Executor σ) : executor.ReadsLike executor :=
  ⟨rfl, rfl, rfl⟩

theorem Executor.ReadsLike.symm {executor other : Executor σ} (alike : executor.ReadsLike other) :
    other.ReadsLike executor := ⟨alike.schema.symm, alike.policy.symm, alike.scalars.symm⟩

/-- One way of expanding defaults is below another one on the defaults that a schema has. -/
def Schema.DefaultsBelow (schema : Schema) (expand expand' : LiteralCoercion σ) : Prop :=
  ∀ name input, schema.type? name = some (.inputObject input) → ∀ field ∈ input.fields,
    ∀ literal ∈ field.node.default, BelowAtAll (expand literal.node) (expand' literal.node)

theorem InputShape.coerce_below {isNullish : Value → Bool} {settled : Option Value}
    {elements elements' : Option (TypeRef → Coercion σ (List Value))}
    {named named' : String → Coercion σ Value} (each : Option.Rel BelowAtAll elements elements')
    (leaf : ∀ name, Below (named name) (named' name)) :
    BelowAtAll (InputShape.coerce isNullish ⟨settled, elements, named⟩)
      (InputShape.coerce isNullish ⟨settled, elements', named'⟩) := by
  intro type
  induction type with
  | named name =>
      rw [InputShape.coerce, InputShape.coerce]
      cases settled with
      | some value => exact .refl _
      | none => exact leaf name
  | list element ih =>
      rw [InputShape.coerce, InputShape.coerce]
      cases settled with
      | some value => exact .refl _
      | none =>
          cases each with
          | none => exact ih.bind fun _ => .refl _
          | some below => exact (below element).bind fun _ => .refl _
  | nonNull inner ih =>
      rw [InputShape.coerce, InputShape.coerce]
      exact ih.bind fun _ => .refl _

section Fields

variable {executor other : Executor σ} (alike : executor.ReadsLike other)
  {expand expand' : LiteralCoercion σ}

include alike

theorem given_or_default_below (type : TypeRef) {default : Option (Located Literal)}
    (expanded : ∀ literal ∈ default, BelowAtAll (expand literal.node) (expand' literal.node))
    {given given' : Option (TypeRef → Coercion σ Value)}
    (below : Option.Rel BelowAtAll given given') :
    Below (executor.givenOrDefault expand type default given)
      (other.givenOrDefault expand' type default given') := by
  rw [given_or_default_eq, given_or_default_eq]
  refine Below.bind ?_ fun value => ?_
  · cases below with
    | none => exact .refl _
    | some below => exact below _
  · cases default with
    | none => exact .refl _
    | some literal =>
        rw [Executor.orDefault, Executor.orDefault, alike.policy]
        split
        · exact expanded literal rfl _
        · exact .refl _

theorem coerce_field_below (field : InputDefinition)
    (expanded : ∀ literal ∈ field.default, BelowAtAll (expand literal.node) (expand' literal.node))
    {given given' : Option (TypeRef → Coercion σ Value)}
    (below : Option.Rel BelowAtAll given given') :
    Below (executor.coerceField expand field given) (other.coerceField expand' field given') := by
  have found := given_or_default_below alike field.type.node expanded below
  rw [Executor.coerceField, Executor.coerceField, alike.policy]
  exact (found.bind fun _ => .refl _).adapt _

theorem coerce_fields_below {given given' : String → Option (TypeRef → Coercion σ Value)}
    (below : ∀ name, Option.Rel BelowAtAll (given name) (given' name))
    (fields : List (Located InputDefinition))
    (expanded : ∀ field ∈ fields, ∀ literal ∈ field.node.default,
      BelowAtAll (expand literal.node) (expand' literal.node)) :
    Below (executor.coerceFields expand given fields)
      (other.coerceFields expand' given' fields) := by
  induction fields with
  | nil => exact .refl _
  | cons field rest ih =>
      have first := coerce_field_below alike field.node (expanded field List.mem_cons_self)
        (below field.node.name.node)
      have others := ih fun other member => expanded other (List.mem_cons_of_mem _ member)
      rw [Executor.coerceFields, Executor.coerceFields]
      exact first.bind fun _ => others.bind fun _ => .refl _

theorem coerce_input_object_below (input : InputObjectType)
    (expanded : ∀ field ∈ input.fields, ∀ literal ∈ field.node.default,
      BelowAtAll (expand literal.node) (expand' literal.node))
    (names : List String) {given given' : String → Option (TypeRef → Coercion σ Value)}
    (below : ∀ name, Option.Rel BelowAtAll (given name) (given' name)) :
    Below (executor.coerceInputObject expand input names given)
      (other.coerceInputObject expand' input names given') := by
  have each := coerce_fields_below alike below input.fields expanded
  rw [Executor.coerceInputObject, Executor.coerceInputObject]
  split
  · exact .refl _
  · exact each.bind fun _ => .refl _

variable (expanded : executor.schema.DefaultsBelow expand expand')

include expanded

theorem coerce_named_below
    {fields fields' : Option (List String × (String → Option (TypeRef → Coercion σ Value)))}
    (below : Option.Rel (fun left right => left.1 = right.1 ∧
      ∀ name, Option.Rel BelowAtAll (left.2 name) (right.2 name)) fields fields')
    (custom : ScalarHooks σ → Action σ FieldError Value) (plain : Value) (name : String) :
    Below (executor.coerceNamed expand fields custom plain name)
      (other.coerceNamed expand' fields' custom plain name) := by
  have leaf : other.coerceLeaf name plain = executor.coerceLeaf name plain := by
    rw [Executor.coerceLeaf, Executor.coerceLeaf, alike.schema]
  have hooks : other.scalar? name = executor.scalar? name := by
    rw [Executor.scalar?, Executor.scalar?, alike.scalars]
  rw [Executor.coerceNamed, Executor.coerceNamed, alike.schema, leaf, hooks]
  split
  · rename_i input declared
    cases below with
    | none => exact .refl _
    | some below =>
        dsimp only
        rw [below.1]
        exact coerce_input_object_below alike input (expanded name input declared) _ below.2
  · exact .refl _
  · exact .refl _

/-- Without elements and fields an input has nothing but defaults to differ in. -/
theorem leaf_below (settled : Option Value) (custom : ScalarHooks σ → Action σ FieldError Value)
    (plain : Value) :
    BelowAtAll
      (InputShape.coerce executor.isNullish
        ⟨settled, none, executor.coerceNamed expand none custom plain⟩)
      (InputShape.coerce other.isNullish
        ⟨settled, none, other.coerceNamed expand' none custom plain⟩) := by
  rw [alike.policy]
  exact InputShape.coerce_below .none fun name =>
    coerce_named_below alike expanded .none custom plain name

end Fields

section Inputs

variable {executor other : Executor σ} {expand expand' : LiteralCoercion σ}

theorem Literal.to_value_same {values values' : Object} {literal : Literal}
    (same : values = values' ∨ literal.Constant) :
    literal.toValue values' = literal.toValue values := by
  rcases same with rfl | constant
  · rfl
  · exact constant.to_value values' values

mutual

/-- A literal under other values of variables comes to the same if it has none. -/
theorem coerce_literal_below (alike : executor.ReadsLike other)
    (expanded : executor.schema.DefaultsBelow expand expand') {values values' : Object} :
    ∀ literal : Literal, values = values' ∨ literal.Constant →
      BelowAtAll (executor.coerceLiteralWith values expand literal)
        (other.coerceLiteralWith values' expand' literal)
  | .variable name, same => by
      intro type
      obtain rfl : values = values' := same.resolve_right fun constant => by cases constant
      rw [Executor.coerceLiteralWith, Executor.coerceLiteralWith, alike.policy]
      exact .refl _
  | .null, _ => by
      intro type
      rw [Executor.coerceLiteralWith, Executor.coerceLiteralWith, alike.policy]
      exact .refl _
  | .list items, same => by
      intro type
      have each := literal_elements_below alike expanded 0 items <|
        same.imp_right fun constant => by
          cases constant with
          | list each => exact each
      rw [Executor.coerceLiteralWith, Executor.coerceLiteralWith, alike.policy,
        Literal.to_value_same same]
      exact InputShape.coerce_below (.some each)
        (coerce_named_below alike expanded .none _ _) type
  | .object fields, same => by
      intro type
      have entries := literal_entries_below alike expanded fields <|
        same.imp_right fun constant => by
          cases constant with
          | object _ each => exact each
      rw [Executor.coerceLiteralWith, Executor.coerceLiteralWith, alike.policy,
        Literal.to_value_same same]
      refine InputShape.coerce_below .none (fun name =>
        coerce_named_below alike expanded (.some ?_) _ _ name) type
      exact ⟨rfl, entries⟩
  | .int _, _ | .float _, _ | .string _, _ | .bool _, _ | .enum _, _ => by
      intro type
      rw [Executor.coerceLiteralWith, Executor.coerceLiteralWith]
      · exact leaf_below alike expanded none _ _ type
      all_goals intros; contradiction

theorem literal_elements_below (alike : executor.ReadsLike other)
    (expanded : executor.schema.DefaultsBelow expand expand') {values values' : Object} :
    ∀ (index : Nat) (items : List (Located Literal)),
      (values = values' ∨ ∀ item ∈ items, item.node.Constant) →
      BelowAtAll (executor.coerceLiteralElements values expand index items)
        (other.coerceLiteralElements values' expand' index items)
  | _, [], _ => by
      intro type
      rw [Executor.coerceLiteralElements, Executor.coerceLiteralElements]
      exact .refl _
  | index, ⟨item, _⟩ :: rest, same => by
      intro type
      have first := coerce_literal_below alike expanded item
        (same.imp_right fun each => each _ List.mem_cons_self) type
      have others := literal_elements_below alike expanded (index + 1) rest
        (same.imp_right fun each other member => each other (List.mem_cons_of_mem _ member)) type
      rw [Executor.coerceLiteralElements, Executor.coerceLiteralElements]
      exact (first.adapt _).bind fun _ => others.bind fun _ => .refl _

theorem literal_entries_below (alike : executor.ReadsLike other)
    (expanded : executor.schema.DefaultsBelow expand expand') {values values' : Object} :
    ∀ (fields : List (Located String × Located Literal)),
      (values = values' ∨ ∀ field ∈ fields, field.2.node.Constant) → ∀ name,
      Option.Rel BelowAtAll (executor.coerceLiteralEntry values expand fields name)
        (other.coerceLiteralEntry values' expand' fields name)
  | [], _, _ => by
      rw [Executor.coerceLiteralEntry, Executor.coerceLiteralEntry]
      exact .none
  | (key, ⟨value, _⟩) :: rest, same, name => by
      rw [Executor.coerceLiteralEntry, Executor.coerceLiteralEntry]
      split
      · exact .some <| coerce_literal_below alike expanded value <|
          same.imp_right fun each => each _ List.mem_cons_self
      · exact literal_entries_below alike expanded rest
          (same.imp_right fun each other member => each other (List.mem_cons_of_mem _ member)) name

end

mutual

theorem coerce_input_below (alike : executor.ReadsLike other)
    (expanded : executor.schema.DefaultsBelow expand expand') :
    ∀ value, BelowAtAll (executor.coerceInputWith expand value)
      (other.coerceInputWith expand' value)
  | .list items => by
      intro type
      have each := input_elements_below alike expanded 0 items
      rw [Executor.coerceInputWith, Executor.coerceInputWith, alike.policy]
      exact InputShape.coerce_below (.some each)
        (coerce_named_below alike expanded .none _ _) type
  | .object fields => by
      intro type
      have entries := input_entries_below alike expanded fields
      rw [Executor.coerceInputWith, Executor.coerceInputWith, alike.policy]
      refine InputShape.coerce_below .none (fun name =>
        coerce_named_below alike expanded (.some ?_) _ _ name) type
      exact ⟨rfl, entries⟩
  | .null | .bool _ | .int _ | .float _ | .string _ | .record _ _ _ => by
      intro type
      have leaf (settled : Option Value) (value : Value) :=
        leaf_below alike expanded settled (fun hooks => hooks.parseValue value) value type
      rw [Executor.coerceInputWith, Executor.coerceInputWith]
      · rw [alike.policy] at leaf ⊢
        exact leaf _ _
      all_goals intros; contradiction

theorem input_elements_below (alike : executor.ReadsLike other)
    (expanded : executor.schema.DefaultsBelow expand expand') :
    ∀ (index : Nat) (items : List Value),
      BelowAtAll (executor.coerceElementsWith expand index items)
        (other.coerceElementsWith expand' index items)
  | _, [] => by
      intro type
      rw [Executor.coerceElementsWith, Executor.coerceElementsWith]
      exact .refl _
  | index, item :: rest => by
      intro type
      have first := coerce_input_below alike expanded item type
      have others := input_elements_below alike expanded (index + 1) rest type
      rw [Executor.coerceElementsWith, Executor.coerceElementsWith]
      exact (first.adapt _).bind fun _ => others.bind fun _ => .refl _

theorem input_entries_below (alike : executor.ReadsLike other)
    (expanded : executor.schema.DefaultsBelow expand expand') :
    ∀ (fields : List (String × Value)) (name : String),
      Option.Rel BelowAtAll (executor.coerceEntryWith expand fields name)
        (other.coerceEntryWith expand' fields name)
  | [], _ => by
      rw [Executor.coerceEntryWith, Executor.coerceEntryWith]
      exact .none
  | (key, value) :: rest, name => by
      rw [Executor.coerceEntryWith, Executor.coerceEntryWith]
      split
      · exact .some (coerce_input_below alike expanded value)
      · exact input_entries_below alike expanded rest name

end

/-- A larger bound keeps what defaults come to. -/
theorem expand_default_below (executor : Executor σ) (values : Object) {depth deeper : Nat}
    (larger : depth ≤ deeper) (literal : Literal) :
    BelowAtAll (executor.expandDefault values depth literal)
      (executor.expandDefault values deeper literal) := by
  induction depth generalizing deeper literal with
  | zero => exact fun type => Below.unfinished _
  | succ depth ih =>
      cases deeper with
      | zero => exact absurd larger (Nat.not_succ_le_zero depth)
      | succ deeper =>
          intro type
          rw [Executor.expandDefault, Executor.expandDefault]
          exact coerce_literal_below (.refl executor)
            (fun _ _ _ _ _ default _ => ih (Nat.le_of_succ_le_succ larger) default.node) literal
            (.inl rfl) type

/-- Another executor that reads inputs alike expands defaults to the same. -/
theorem expand_default_alike_below (alike : executor.ReadsLike other) (values : Object)
    (depth : Nat) (literal : Literal) :
    BelowAtAll (executor.expandDefault values depth literal)
      (other.expandDefault values depth literal) := by
  induction depth generalizing literal with
  | zero => exact fun type => .refl _
  | succ depth ih =>
      intro type
      rw [Executor.expandDefault, Executor.expandDefault]
      exact coerce_literal_below alike (fun _ _ _ _ _ default _ => ih default.node) literal
        (.inl rfl) type

/-- A constant is expanded to the same whatever the variables stand for. -/
theorem expand_constant_below (constants : executor.schema.ConstantDefaults)
    (values values' : Object) (depth : Nat) {literal : Literal} (constant : literal.Constant) :
    BelowAtAll (executor.expandDefault values depth literal)
      (executor.expandDefault values' depth literal) := by
  induction depth generalizing literal with
  | zero => exact fun type => .refl _
  | succ depth ih =>
      intro type
      rw [Executor.expandDefault, Executor.expandDefault]
      exact coerce_literal_below (.refl executor)
        (fun name input declared field member default given =>
          ih (constants.inputs name input declared field member default given)) literal
        (.inr constant) type

end Inputs

section Same

variable {executor other : Executor σ}

theorem coerce_literal_same (alike : executor.ReadsLike other) (values : Object) :
    other.coerceLiteral values = executor.coerceLiteral values := by
  have below {first second : Executor σ} (alike : first.ReadsLike second) (literal : Literal)
      (type : TypeRef) :
      Below (first.coerceLiteral values literal type)
        (second.coerceLiteral values literal type) := by
    rw [Executor.coerceLiteral, Executor.coerceLiteral, alike.schema]
    exact expand_default_alike_below alike values _ literal type
  funext literal type
  exact (below alike.symm literal type).antisymm (below alike literal type)

theorem coerce_input_same (alike : executor.ReadsLike other) (values : Object) :
    other.coerceInput values = executor.coerceInput values := by
  have below {first second : Executor σ} (alike : first.ReadsLike second) (value : Value)
      (type : TypeRef) :
      Below (first.coerceInput values value type) (second.coerceInput values value type) := by
    rw [Executor.coerceInput, Executor.coerceInput, alike.schema]
    exact coerce_input_below alike
      (fun _ _ _ _ _ default _ => expand_default_alike_below alike values _ default.node) value type
  funext value type
  exact (below alike.symm value type).antisymm (below alike value type)

theorem coerce_variable_same (alike : executor.ReadsLike other) (inputs : Object)
    (declared : VariableDefinition) :
    other.coerceVariable inputs declared = executor.coerceVariable inputs declared := by
  have filled (given : Option (TypeRef → Coercion σ Value)) :
      other.givenOrDefault (executor.coerceLiteral []) declared.type.node declared.default given =
        executor.givenOrDefault (executor.coerceLiteral []) declared.type.node declared.default
          given := by
    simp only [Executor.givenOrDefault, alike.policy]
  simp only [Executor.coerceVariable, alike.schema, alike.policy, coerce_literal_same alike,
    coerce_input_same alike, filled]

/-- No variable is read in a constant, nor in the defaults that it leads to. -/
theorem constant_literal_same (constants : executor.schema.ConstantDefaults)
    (values values' : Object) {literal : Literal} (constant : literal.Constant) (type : TypeRef) :
    executor.coerceLiteral values literal type = executor.coerceLiteral values' literal type :=
  Below.antisymm (expand_constant_below constants values values' _ constant type)
    (expand_constant_below constants values' values _ constant type)

/-- No variable is read in a value, nor in the defaults that it leads to. -/
theorem input_same_under_variables (constants : executor.schema.ConstantDefaults)
    (values values' : Object) (value : Value) (type : TypeRef) :
    executor.coerceInput values value type = executor.coerceInput values' value type := by
  have below (first second : Object) :
      Below (executor.coerceInput first value type) (executor.coerceInput second value type) :=
    coerce_input_below (.refl executor)
      (fun name input declared field member default given =>
        expand_constant_below constants first second _
          (constants.inputs name input declared field member default given)) value type
  exact (below values values').antisymm (below values' values)

end Same

end GraphQL
