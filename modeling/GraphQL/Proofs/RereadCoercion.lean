import GraphQL.Proofs.LiteralCoercion
import GraphQL.Proofs.CoercionJudgement
import GraphQL.Proofs.RereadLiterals

/-!
Literals that come back from their text are coerced to the same values.

One coercion follows another one if it returns what the other one returns wherever that succeeds. At
each built-in scalar the literal that a legible float is read back as follows the float, at `Int` if the
text shows the float to the last digit. From there this goes up through objects and lists.
-/

namespace GraphQL

variable {σ ε ε' α β : Type}

/-- Where an action succeeds, another one ends in the same way. -/
structure Follows (action other : Action σ ε α) : Prop where
  holds : ∀ context value later, action context = some (.ok value, later) →
    other context = some (.ok value, later)

namespace Follows

variable {action other : Action σ ε α}

theorem refl (action : Action σ ε α) : Follows action action := ⟨fun _ _ _ ran => ran⟩

theorem throw (error : ε) (other : Action σ ε α) : Follows (MonadExcept.throw error) other where
  holds _ _ _ ran := by cases ran

theorem bind {next following : α → Action σ ε β} (first : Follows action other)
    (onward : ∀ value, Follows (next value) (following value)) :
    Follows (action >>= next) (other >>= following) where
  holds context value later ran := by
    rcases Action.bind_finished ran with ⟨found, middle, started, finished⟩ | ⟨_, impossible, -⟩
    · rw [Action.bind_apply, first.holds _ _ _ started]
      exact (onward found).holds _ _ _ finished
    · cases impossible

theorem adapt (change : ε → ε') (same : Follows action other) :
    Follows (ExceptT.adapt change action : Action σ ε' α) (ExceptT.adapt change other) where
  holds context value later ran := by
    rw [Action.adapt_apply, Option.map_eq_some_iff] at ran
    obtain ⟨⟨result, after⟩, started, told⟩ := ran
    cases result with
    | error error => cases told
    | ok found =>
        cases told
        rw [Action.adapt_apply, same.holds _ _ _ started]
        rfl

end Follows

/-- A coercion follows another one at the types of a kind. -/
def FollowsAt (kind : TypeRef → Prop) (coerce other : TypeRef → Coercion σ α) : Prop :=
  ∀ type, kind type → Follows (coerce type) (other type)

/-- What follows at some types follows at fewer of them. -/
theorem FollowsAt.fewer {kind some : TypeRef → Prop} (weaker : ∀ type, some type → kind type)
    {given other : Option (TypeRef → Coercion σ α)} (same : Option.Rel (FollowsAt kind) given other) :
    Option.Rel (FollowsAt some) given other := by
  cases same with
  | none => exact .none
  | some follows => exact .some fun type stands => follows type (weaker type stands)

section Shapes

variable {kind : TypeRef → Prop} {left right : InputShape σ}

/-- Inputs follow each other at wrapped types if their elements do, and if they do at named types. -/
theorem InputShape.follows (isNullish : Value → Bool)
    (inner : ∀ type, kind (.nonNull type) → kind type)
    (single : left.elements = none → ∀ element, kind (.list element) → kind element)
    (settled : left.settled = none ∧ right.settled = none)
    (elements : Option.Rel (FollowsAt fun element => kind (.list element)) left.elements
      right.elements)
    (named : ∀ name, kind (.named name) → Follows (left.named name) (right.named name)) :
    FollowsAt kind (InputShape.coerce isNullish left) (InputShape.coerce isNullish right) := by
  intro type stands
  induction type with
  | named name =>
      rw [InputShape.coerce, InputShape.coerce, settled.1, settled.2]
      exact named name stands
  | list element ih =>
      rw [InputShape.coerce, InputShape.coerce, settled.1, settled.2]
      generalize left.elements = each at elements single
      generalize right.elements = others at elements
      cases elements with
      | none => exact (ih (single rfl element stands)).bind fun item => .refl _
      | some same => exact (same element stands).bind fun items => .refl _
  | nonNull inside ih =>
      rw [InputShape.coerce, InputShape.coerce]
      exact (ih (inner inside stands)).bind fun value => .refl _

/-- Inputs that are neither lists nor objects follow each other if they do at named types. -/
theorem leaf_follows {kind : String → Prop} {left right : String → Coercion σ Value}
    (named : ∀ name, kind name → Follows (left name) (right name)) (isNullish : Value → Bool) :
    FollowsAt (fun type => kind type.innermost) (InputShape.coerce isNullish ⟨none, none, left⟩)
      (InputShape.coerce isNullish ⟨none, none, right⟩) :=
  InputShape.follows isNullish (fun _ stands => stands) (fun _ _ stands => stands) ⟨rfl, rfl⟩ .none
    named

variable (executor : Executor σ) (expand : LiteralCoercion σ)

theorem given_or_default_follows {type : TypeRef} (default : Option (Located Literal))
    {given other : Option (TypeRef → Coercion σ Value)}
    (same : Option.Rel (FollowsAt fun found => found = type.nullable) given other) :
    Follows (executor.givenOrDefault expand type default given)
      (executor.givenOrDefault expand type default other) := by
  rw [given_or_default_eq, given_or_default_eq]
  cases same with
  | none => exact .refl _
  | some follows =>
      rw [Option.elim_some, Option.elim_some]
      exact (follows _ rfl).bind fun value => .refl _

theorem coerce_fields_follow {given other : String → Option (TypeRef → Coercion σ Value)}
    {fields : List (Located InputDefinition)}
    (same : ∀ field ∈ fields, Option.Rel
      (FollowsAt fun found => found = field.node.type.node.nullable)
      (given field.node.name.node) (other field.node.name.node)) :
    Follows (executor.coerceFields expand given fields)
      (executor.coerceFields expand other fields) := by
  induction fields with
  | nil => exact .refl _
  | cons field rest ih =>
      obtain ⟨first, others⟩ := List.forall_mem_cons.mp same
      rw [Executor.coerceFields, Executor.coerceFields, Executor.coerceField, Executor.coerceField]
      refine .bind (.adapt _ ?_) fun value => (ih others).bind fun fields => .refl _
      exact (given_or_default_follows executor expand _ first).bind fun value => .refl _

end Shapes

/-- A scalar besides the built-in ones. -/
def Schema.CustomScalar (schema : Schema) (name : String) : Prop :=
  (∃ scalar, schema.type? name = some (.scalar scalar)) ∧ BuiltinScalar.ofName? name = none

section Leaves

variable {executor : Executor σ} {expand : LiteralCoercion σ} {name : String}

/-- Neither a scalar nor the value of an enum can be made of a value. -/
def Value.Composite (value : Value) : Prop :=
  (∀ scalar : BuiltinScalar, scalar.coerce value = none) ∧ value.toEnumName? = none

theorem list_composite (items : List Value) : (Value.list items).Composite :=
  ⟨fun scalar => by cases scalar <;> rfl, rfl⟩

theorem object_composite (fields : List (String × Value)) : (Value.object fields).Composite :=
  ⟨fun scalar => by cases scalar <;> rfl, rfl⟩

theorem composite_refused {value : Value} (composite : value.Composite) :
    ∃ error, executor.coerceLeaf name value = .error error := by
  unfold Executor.coerceLeaf
  split
  · cases BuiltinScalar.ofName? name with
    | none => exact ⟨_, rfl⟩
    | some scalar => exact ⟨.notConvertible name, by simp [composite.1 scalar]⟩
  · rw [composite.2]
    exact ⟨_, rfl⟩
  · exact ⟨_, rfl⟩
  · exact ⟨_, rfl⟩

/-- Where no input object is asked for, nothing but a custom scalar takes a list or an object. -/
theorem coerce_composite_follows {fields : Option (List String ×
      (String → Option (TypeRef → Coercion σ Value)))}
    {custom : ScalarHooks σ → Action σ FieldError Value} {value : Value}
    (composite : value.Composite) (builtin : ¬ executor.schema.CustomScalar name)
    (refused : ∀ input, executor.schema.type? name = some (.inputObject input) → fields = none)
    (other : Coercion σ Value) :
    Follows (executor.coerceNamed expand fields custom value name) other := by
  obtain ⟨error, failed⟩ := @composite_refused _ executor name _ composite
  unfold Executor.coerceNamed
  split
  · rename_i input declared
    rw [refused input declared]
    exact .throw _ _
  · rename_i scalar declared
    split
    · rw [failed]
      exact .throw _ _
    · rename_i unknown
      exact absurd ⟨⟨scalar, declared⟩, unknown⟩ builtin
  · rw [failed]
    exact .throw _ _

/-- At every built-in scalar a legible float is worth what it is read back as. -/
theorem Single.Legible.coerces {x : Single} (legible : x.Legible) (values : Object)
    {scalar : BuiltinScalar} (precise : scalar = .int → x.Exact) :
    scalar.coerce (x.reread.toValue values) = scalar.coerce (.float x) := by
  rcases legible.cases with ⟨-, same⟩ | ⟨whole, ⟨n, shown, same⟩ | ⟨rfl, same⟩⟩
  · rw [same, Literal.toValue]
  · rw [same, Literal.toValue]
    cases scalar with
    | int =>
        rcases precise rfl with impossible | ⟨m, text, truncated⟩
        · rw [whole] at impossible
          cases impossible
        · have back := int_read_back n
          rw [← shown, text, int_read_back] at back
          simp only [BuiltinScalar.coerce, Value.toInt?, truncated, Option.some.inj back,
            Int32.ofInt_toInt]
    | float => simp only [BuiltinScalar.coerce, Value.toFloat?, of_written_integer shown]
    | string => simp only [BuiltinScalar.coerce, Value.toText?, shown]
    | id => simp only [BuiltinScalar.coerce, Value.toText?, shown]
    | boolean =>
        have zero : n = 0 ↔ n.toInt = 0 := Int32.toInt_inj.symm
        have same : (n != 0) = !(n.toInt == 0) := by
          rw [bne, Bool.not_inj_iff, Bool.eq_iff_iff, beq_iff_eq, beq_iff_eq, zero]
        simp only [BuiltinScalar.coerce, Value.toBool?, written_zero shown, same]
  · rw [same, Literal.toValue]
    cases scalar with
    | int =>
        rcases precise rfl with impossible | ⟨n, text, -⟩
        · cases impossible
        · have word : DecimalStyle.plain.write (.infinity .single false : Single) = "inf" := rfl
          have back := int_read_back n
          rw [← text, word] at back
          cases back
    | float => rfl
    | string => rfl
    | id => rfl
    | boolean => rfl

/-- What a legible float is read back as follows the float, except at custom scalars. -/
theorem float_follows {x : Single} (legible : x.Legible) (values : Object)
    (custom custom' : ScalarHooks σ → Action σ FieldError Value)
    (builtin : ¬ executor.schema.CustomScalar name) (precise : name = "Int" → x.Exact) :
    Follows (executor.coerceNamed expand none custom (.float x) name)
      (executor.coerceNamed expand none custom' (x.reread.toValue values) name) := by
  unfold Executor.coerceNamed
  split
  · exact .throw _ _
  · rename_i scalar declared
    cases known : BuiltinScalar.ofName? name with
    | none => exact absurd ⟨⟨scalar, declared⟩, known⟩ builtin
    | some found =>
        have same : found = .int → x.Exact := by
          rintro rfl
          have named : BuiltinScalar.int.name = name := by simpa using List.find?_some known
          exact precise named.symm
        have worth := legible.coerces values same
        have leaf : executor.coerceLeaf name (x.reread.toValue values) =
            executor.coerceLeaf name (.float x) := by
          unfold Executor.coerceLeaf
          rw [declared]
          dsimp only
          rw [known, Option.bind_some, Option.bind_some, worth]
        dsimp only
        rw [leaf]
        exact .refl _
  · rename_i no_input no_scalar
    have failed : ∃ error, executor.coerceLeaf name (.float x) = .error error := by
      unfold Executor.coerceLeaf
      split
      · rename_i scalar declared
        exact absurd declared (no_scalar scalar)
      · exact ⟨_, rfl⟩
      · exact ⟨_, rfl⟩
      · exact ⟨_, rfl⟩
    obtain ⟨error, failed⟩ := failed
    rw [failed]
    exact .throw _ _

end Leaves

/--
The parts of a literal stand at types other than custom scalars, and floats that stand at `Int` are
shown to the last digit.
-/
structure Literal.PlainAt (schema : Schema) (literal : Literal) (type : TypeRef) : Prop where
  builtin : ∀ position part, Literal.PartAt schema type literal position part →
    ¬ schema.CustomScalar position.innermost
  precise : ∀ position x, Literal.PartAt schema type literal position (.float x) →
    position.innermost = "Int" → x.Exact

namespace Literal.PlainAt

variable {schema : Schema} {literal : Literal} {type : TypeRef}

theorem narrow {inside : Literal} {inner : TypeRef} (plain : literal.PlainAt schema type)
    (within : ∀ position part, Literal.PartAt schema inner inside position part →
      Literal.PartAt schema type literal position part) : inside.PlainAt schema inner where
  builtin position part there := plain.builtin position part (within position part there)
  precise position x there := plain.precise position x (within position (.float x) there)

theorem required (plain : literal.PlainAt schema (.nonNull type)) : literal.PlainAt schema type :=
  plain.narrow fun _ _ => .required

theorem nullable (plain : literal.PlainAt schema type) : literal.PlainAt schema type.nullable := by
  cases type with
  | nonNull inner => exact plain.required
  | _ => exact plain

theorem element {items : List (Located Literal)} {item : Located Literal}
    (plain : (Literal.list items).PlainAt schema (.list type)) (member : item ∈ items) :
    item.node.PlainAt schema type := plain.narrow fun _ _ => .element member

theorem only {fields : List (Located String × Located Literal)}
    (plain : (Literal.object fields).PlainAt schema (.list type)) :
    (Literal.object fields).PlainAt schema type := plain.narrow fun _ _ => .only

theorem field {name : String} {input : InputObjectType}
    {fields : List (Located String × Located Literal)}
    (plain : (Literal.object fields).PlainAt schema (.named name))
    (declared : schema.type? name = some (.inputObject input)) {definition : Located InputDefinition}
    (member : definition ∈ input.fields) {entry : Located String × Located Literal}
    (given : entry ∈ fields) (named : entry.1.node = definition.node.name.node) :
    entry.2.node.PlainAt schema definition.node.type.node :=
  plain.narrow fun _ _ => .field declared member given named

end Literal.PlainAt

section Literals

/-- Nothing but itself is, without places, a literal that has none. -/
theorem placeless_scalar {found literal : Literal} (same : found.placeless = literal)
    (flat : ∀ items, literal ≠ .list items) (bare : ∀ fields, literal ≠ .object fields) :
    found = literal := by
  cases found with
  | list items =>
      rw [Literal.placeless] at same
      exact absurd same.symm (flat _)
  | object fields =>
      rw [Literal.placeless] at same
      exact absurd same.symm (bare _)
  | _ => exact same

theorem reread_list_found {found : Literal} {items : List (Located Literal)}
    (same : found.placeless = (Literal.list items).reread.placeless) :
    ∃ others, found = .list others ∧ placelessItems others = placelessItems (rereadItems items) := by
  rw [Literal.reread, Literal.placeless] at same
  cases found with
  | list others =>
      rw [Literal.placeless] at same
      exact ⟨others, rfl, Literal.list.inj same⟩
  | object => cases same
  | _ => cases same

theorem reread_object_found {found : Literal} {fields : List (Located String × Located Literal)}
    (same : found.placeless = (Literal.object fields).reread.placeless) :
    ∃ others, found = .object others ∧
      placelessFields others = placelessFields (rereadFields fields) := by
  rw [Literal.reread, Literal.placeless] at same
  cases found with
  | object others =>
      rw [Literal.placeless] at same
      exact ⟨others, rfl, Literal.object.inj same⟩
  | list => cases same
  | _ => cases same

theorem reread_names {fields others : List (Located String × Located Literal)}
    (same : placelessFields others = placelessFields (rereadFields fields)) :
    others.map (·.1.node) = fields.map (·.1.node) := by
  have names := congrArg (List.map (·.1.node)) same
  rw [placeless_fields, placeless_fields, reread_fields, List.map_map, List.map_map,
    List.map_map] at names
  exact names

variable (executor : Executor σ) (values : Object) (expand : LiteralCoercion σ)

theorem float_literal_follows {x : Single} (legible : x.Legible) :
    FollowsAt ((Literal.float x).PlainAt executor.schema)
      (executor.coerceLiteralWith values expand (.float x))
      (executor.coerceLiteralWith values expand x.reread) := by
  have shape (type : TypeRef) : executor.coerceLiteralWith values expand x.reread type =
      InputShape.coerce executor.isNullish ⟨none, none, executor.coerceNamed expand none
        (fun hooks => hooks.parseLiteral x.reread) (x.reread.toValue values)⟩ type := by
    rcases legible.cases with ⟨-, same⟩ | ⟨-, ⟨n, -, same⟩ | ⟨-, same⟩⟩
    all_goals
      rw [same, Executor.coerceLiteralWith]
      all_goals intros; contradiction
  have named (name : String) (stands : ¬ executor.schema.CustomScalar name ∧
      (name = "Int" → x.Exact)) :
      Follows (executor.coerceNamed expand none (fun hooks => hooks.parseLiteral (.float x))
          (.float x) name)
        (executor.coerceNamed expand none (fun hooks => hooks.parseLiteral x.reread)
          (x.reread.toValue values) name) :=
    float_follows legible values _ _ stands.1 stands.2
  intro type plain
  rw [shape, Executor.coerceLiteralWith, Literal.toValue]
  · exact leaf_follows named executor.isNullish type
      ⟨plain.builtin type _ .whole, plain.precise type x .whole⟩
  all_goals intros; contradiction

theorem list_follows {items others : List (Located Literal)}
    (elements : FollowsAt (fun element => ∀ item ∈ items, item.node.PlainAt executor.schema element)
      (executor.coerceLiteralElements values expand 0 items)
      (executor.coerceLiteralElements values expand 0 others)) :
    FollowsAt ((Literal.list items).PlainAt executor.schema)
      (executor.coerceLiteralWith values expand (.list items))
      (executor.coerceLiteralWith values expand (.list others)) := by
  intro type plain
  rw [Executor.coerceLiteralWith, Executor.coerceLiteralWith]
  refine InputShape.follows executor.isNullish (fun _ => Literal.PlainAt.required)
    (fun absent => by cases absent) ⟨rfl, rfl⟩ (.some ?_) (fun name stands => ?_) type plain
  · exact fun element stands => elements element fun item member => stands.element member
  · have builtin : ¬ executor.schema.CustomScalar name := stands.builtin _ _ .whole
    dsimp only
    rw [Literal.toValue]
    exact coerce_composite_follows (list_composite _) builtin (fun _ _ => rfl) _

theorem object_follows {fields others : List (Located String × Located Literal)}
    (names : others.map (·.1.node) = fields.map (·.1.node))
    (entries : ∀ name, Option.Rel
      (FollowsAt fun type => ∀ entry ∈ fields, entry.1.node = name →
        entry.2.node.PlainAt executor.schema type)
      (executor.coerceLiteralEntry values expand fields name)
      (executor.coerceLiteralEntry values expand others name)) :
    FollowsAt ((Literal.object fields).PlainAt executor.schema)
      (executor.coerceLiteralWith values expand (.object fields))
      (executor.coerceLiteralWith values expand (.object others)) := by
  have given {name : String} (plain : (Literal.object fields).PlainAt executor.schema (.named name))
      {input : InputObjectType} (declared : executor.schema.type? name = some (.inputObject input)) :
      ∀ field ∈ input.fields, Option.Rel
        (FollowsAt fun found => found = field.node.type.node.nullable)
        (executor.coerceLiteralEntry values expand fields field.node.name.node)
        (executor.coerceLiteralEntry values expand others field.node.name.node) := by
    intro field member
    refine FollowsAt.fewer (fun type nullable entry among named => ?_) (entries _)
    rw [nullable]
    exact (plain.field declared member among named).nullable
  intro type plain
  rw [Executor.coerceLiteralWith, Executor.coerceLiteralWith, names]
  refine InputShape.follows executor.isNullish (fun _ => Literal.PlainAt.required)
    (fun _ _ => Literal.PlainAt.only) ⟨rfl, rfl⟩ .none (fun name stands => ?_) type plain
  by_cases asked : ∃ input, executor.schema.type? name = some (.inputObject input)
  · obtain ⟨input, declared⟩ := asked
    dsimp only
    rw [Executor.coerceNamed, Executor.coerceNamed, declared]
    dsimp only
    rw [Executor.coerceInputObject, Executor.coerceInputObject]
    split
    · exact .refl _
    · exact (coerce_fields_follow executor expand (given stands declared)).bind fun _ => .refl _
  · have builtin : ¬ executor.schema.CustomScalar name := stands.builtin _ _ .whole
    dsimp only
    rw [Literal.toValue]
    exact coerce_composite_follows (object_composite _) builtin
      (fun input declared => absurd ⟨input, declared⟩ asked) _

mutual

/-- Whatever is read back of a printed literal follows the literal. -/
theorem literal_follows : ∀ {literal found : Literal},
    found.placeless = literal.reread.placeless → (∀ x ∈ literal.floats, x.Legible) →
    FollowsAt (literal.PlainAt executor.schema)
      (executor.coerceLiteralWith values expand literal)
      (executor.coerceLiteralWith values expand found)
  | .float x, found, same, legible => by
      rw [Literal.floats] at legible
      have own := legible x List.mem_cons_self
      have equal : found = x.reread := by
        rw [Literal.reread] at same
        rcases own.cases with ⟨-, back⟩ | ⟨-, ⟨n, -, back⟩ | ⟨-, back⟩⟩
        all_goals
          rw [back] at same ⊢
          exact placeless_scalar same (by simp) (by simp)
      rw [equal]
      exact float_literal_follows executor values expand own
  | .list items, found, same, legible => by
      obtain ⟨others, rfl, parts⟩ := reread_list_found same
      rw [Literal.floats] at legible
      exact list_follows executor values expand (elements_follow 0 items others parts legible)
  | .object fields, found, same, legible => by
      obtain ⟨others, rfl, parts⟩ := reread_object_found same
      rw [Literal.floats] at legible
      exact object_follows executor values expand (reread_names parts)
        (entries_follow fields others parts legible)
  | .null, found, same, _ | .int _, found, same, _ | .string _, found, same, _
  | .bool _, found, same, _ | .enum _, found, same, _ | .variable _, found, same, _ => by
      simp only [Literal.reread, Literal.placeless] at same
      rw [placeless_scalar same (by simp) (by simp)]
      exact fun type _ => .refl _

theorem elements_follow : ∀ (index : Nat) (items others : List (Located Literal)),
    placelessItems others = placelessItems (rereadItems items) →
    (∀ x ∈ itemFloats items, x.Legible) →
    FollowsAt (fun element => ∀ item ∈ items, item.node.PlainAt executor.schema element)
      (executor.coerceLiteralElements values expand index items)
      (executor.coerceLiteralElements values expand index others)
  | _, [], [], _, _ => fun type _ => .refl _
  | _, [], _ :: _, same, _ => by
      rw [rereadItems, placelessItems, placelessItems] at same
      cases same
  | _, ⟨_, _⟩ :: _, [], same, _ => by
      rw [rereadItems, placelessItems, placelessItems] at same
      cases same
  | index, ⟨item, _⟩ :: rest, ⟨other, _⟩ :: others, same, legible => by
      rw [rereadItems, placelessItems, placelessItems] at same
      obtain ⟨first, later⟩ := List.cons.inj same
      rw [itemFloats, List.forall_mem_append] at legible
      intro element plain
      obtain ⟨own, more⟩ := List.forall_mem_cons.mp plain
      rw [Executor.coerceLiteralElements, Executor.coerceLiteralElements]
      have head := literal_follows (congrArg Located.node first) legible.1 element own
      have tail := elements_follow (index + 1) rest others later legible.2 element more
      exact (head.adapt _).bind fun value => tail.bind fun values => .refl _

theorem entries_follow : ∀ (fields others : List (Located String × Located Literal)),
    placelessFields others = placelessFields (rereadFields fields) →
    (∀ x ∈ fieldFloats fields, x.Legible) → ∀ name,
    Option.Rel
      (FollowsAt fun type => ∀ entry ∈ fields, entry.1.node = name →
        entry.2.node.PlainAt executor.schema type)
      (executor.coerceLiteralEntry values expand fields name)
      (executor.coerceLiteralEntry values expand others name)
  | [], [], _, _, _ => .none
  | [], _ :: _, same, _, _ => by
      rw [rereadFields, placelessFields, placelessFields] at same
      cases same
  | (_, ⟨_, _⟩) :: _, [], same, _, _ => by
      rw [rereadFields, placelessFields, placelessFields] at same
      cases same
  | (key, ⟨value, _⟩) :: rest, (other, ⟨found, _⟩) :: others, same, legible, name => by
      rw [rereadFields, placelessFields, placelessFields] at same
      obtain ⟨first, later⟩ := List.cons.inj same
      obtain ⟨named, valued⟩ := Prod.mk.inj first
      have key_same := congrArg Located.node named
      change other.node = key.node at key_same
      rw [fieldFloats, List.forall_mem_append] at legible
      rw [Executor.coerceLiteralEntry, Executor.coerceLiteralEntry, key_same]
      split
      · rename_i chosen
        refine .some fun type plain => ?_
        exact literal_follows (congrArg Located.node valued) legible.1 type
          (plain _ List.mem_cons_self chosen.symm)
      · refine FollowsAt.fewer (fun type plain entry among => ?_)
          (entries_follow rest others later legible.2 name)
        exact plain entry (List.mem_cons_of_mem _ among)

end

end Literals

end GraphQL
