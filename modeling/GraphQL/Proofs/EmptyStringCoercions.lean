import GraphQL.Proofs.EmptyStrings
import GraphQL.Proofs.SettledInputs
import GraphQL.Proofs.TypedArguments

/-!
Coercion under the policy that takes empty strings for absent.

Coercion is followed along types, literals and values: what comes out is what the input tells, by
itself and with the defaults on the way. Types have built-in scalars only, as others may come to
anything.
-/

namespace GraphQL

variable {σ ε : Type} {executor : Executor σ}

section Wrappers

variable {schema : Schema}

namespace Schema.BuiltinOnly

theorem nullable {type : TypeRef} (builtin : schema.BuiltinOnly type) :
    schema.BuiltinOnly type.nullable := by
  rw [BuiltinOnly, nullable_innermost]
  exact builtin

theorem field {name : String} (builtin : schema.BuiltinOnly (.named name)) {input : InputObjectType}
    (declared : schema.type? name = some (.inputObject input)) {field : Located InputDefinition}
    (member : field ∈ input.fields) : schema.BuiltinOnly field.node.type.node :=
  fun other reached => builtin other (reached.of_field declared member)

end Schema.BuiltinOnly

variable {isNullish : Value → Bool} {fits : TypeRef → Value → Prop}
  (required : ∀ {inner value}, fits inner value → fits (.nonNull inner) value)

include required

/-- A check that a value is there changes nothing about the value. -/
theorem checked_fits {inner : TypeRef} {action : Coercion σ Value}
    (fit : Ensures action (fits inner)) :
    Ensures
      (action >>= fun value =>
        if isNullish value then throwThe CoercionError (.nullFound (.nonNull inner))
        else pure value)
      (fits (.nonNull inner)) := by
  apply fit.bind
  intro value known
  split
  · exact .throw _
  · exact .pure (required known)

theorem settled_fits {value : Value} {elements : Option (TypeRef → Coercion σ (List Value))}
    {named : String → Coercion σ Value}
    (settled : ∀ type, type.isNonNull = false → fits type value) (type : TypeRef) :
    Ensures (InputShape.coerce isNullish ⟨some value, elements, named⟩ type) (fits type) := by
  induction type with
  | named name => exact .pure (settled _ rfl)
  | list element => exact .pure (settled _ rfl)
  | nonNull inner ih =>
      rw [InputShape.coerce]
      exact checked_fits required ih

theorem shape_fits {elements : Option (TypeRef → Coercion σ (List Value))}
    {named : String → Coercion σ Value}
    (single : elements = none → ∀ element value, fits element value →
      fits (.list element) (.list [value]))
    (each : ∀ coerce ∈ elements, ∀ element, schema.BuiltinOnly element →
      Ensures (coerce element) fun items => fits (.list element) (.list items))
    (leaf : ∀ name, schema.BuiltinOnly (.named name) →
      Ensures (named name) (fits (.named name)))
    (type : TypeRef) (builtin : schema.BuiltinOnly type) :
    Ensures (InputShape.coerce isNullish ⟨none, elements, named⟩ type) (fits type) := by
  induction type with
  | named name => exact leaf name builtin
  | list element ih =>
      rw [InputShape.coerce]
      cases elements with
      | some coerce => exact (each coerce rfl element builtin).bind fun _ known => .pure known
      | none => exact (ih builtin).bind fun _ known => .pure (single rfl element _ known)
  | nonNull inner ih =>
      rw [InputShape.coerce]
      exact checked_fits required (ih builtin)

end Wrappers

section Fields

variable {schema : Schema} {values : Object} {expand : LiteralCoercion σ}

/-- A field, an argument or a variable keeps an empty string: as given, or as its default. -/
def KeptOrDefault (schema : Schema) (values : Object) (type : TypeRef)
    (default : Option (Located Literal)) (absent keeps : Prop) : Prop :=
  keeps ∨ absent ∧ ∃ literal ∈ default, literal.node.KeepsEmpty schema values type.nullable

/-- A field that is there and keeps an empty string or not, or one that is left out. -/
def FieldTold (kept : Prop) (found : Option Value) : Prop :=
  found.elim (¬kept) fun value =>
    isNullOrEmpty value = false ∧ value.Tidy ∧ (value.KeepsEmpty ↔ kept)

/-- Fields that are there, some of which keep an empty string or none. -/
def ObjectTold (kept : Prop) (fields : Object) : Prop :=
  (Value.object fields).Tidy ∧ ((Value.object fields).KeepsEmpty ↔ kept)

/-- What is provided for a type, or null instead, counts as absent or keeps an empty string. -/
def Provided (given : Option (TypeRef → Coercion σ Value)) (type : TypeRef) (absent keeps : Prop) :
    Prop :=
  Ensures (given.elim (pure .null) fun coerce => coerce type.nullable) fun value =>
    (isNullOrEmpty value = true ↔ absent) ∧ (value.KeepsEmpty ↔ keeps) ∧ value.Tidy

theorem provided_map {α : Type} {coerce : α → TypeRef → Coercion σ Value} {type : TypeRef}
    {empty absent keeps : α → Prop} {given : Option α}
    (each : ∀ input ∈ given,
      Ensures (coerce input type.nullable) (Tells (empty input) (absent input) (keeps input))) :
    Provided (given.map coerce) type (∀ input ∈ given, absent input)
      (∃ input ∈ given, keeps input) := by
  cases given with
  | none =>
      refine .pure ⟨iff_of_true rfl (by simp), ?_, .single (by simp) (by simp)⟩
      exact iff_of_false (fun kept => by cases kept) (by simp)
  | some input =>
      refine (each input rfl).mono fun value tells => ⟨?_, ?_, tells.tidy⟩
      · simpa using tells.absent
      · simpa using tells.keeps

theorem given_or_default_tells (policy : executor.isNullish = isNullOrEmpty) {type : TypeRef}
    {default : Option (Located Literal)} {given : Option (TypeRef → Coercion σ Value)}
    {absent keeps : Prop} (provided : Provided given type absent keeps)
    (expanded : ∀ literal ∈ default, Ensures (expand literal.node type.nullable)
      (literal.node.Told schema values type.nullable)) :
    Ensures (executor.givenOrDefault expand type default given) fun value =>
      value.Tidy ∧ (value.KeepsEmpty ↔ KeptOrDefault schema values type default absent keeps) := by
  rw [given_or_default_eq]
  apply provided.bind
  rintro value ⟨missing, kept, tidy⟩
  rw [KeptOrDefault, ← missing, ← kept]
  cases nullish : isNullOrEmpty value with
  | false =>
      have same : executor.orDefault expand type default value = pure value := by
        cases default with
        | none => rfl
        | some literal => rw [Executor.orDefault, policy, if_neg (by simp [nullish])]
      rw [same]
      exact .pure ⟨tidy, by simp⟩
  | true =>
      have nothing : ¬value.KeepsEmpty := fun keeps => by simp [keeps.present] at nullish
      cases default with
      | none => exact .pure ⟨tidy, by simp [nothing]⟩
      | some literal =>
          rw [Executor.orDefault, policy, if_pos nullish]
          refine (expanded literal rfl).mono fun value tells => ⟨tells.tidy, ?_⟩
          simp [nothing, tells.keeps]

/-- What counts as absent is left out, and has kept nothing. -/
theorem left_out_tells (policy : executor.isNullish = isNullOrEmpty) {type : TypeRef} {kept : Prop}
    {error : ε} {value : Value} (told : value.Tidy ∧ (value.KeepsEmpty ↔ kept)) :
    Ensures
      (if executor.isNullish value then
          if type.isNonNull then throwThe ε error else pure none
        else pure (some value) : Action σ ε (Option Value))
      (FieldTold kept) := by
  rw [policy]
  cases nullish : isNullOrEmpty value with
  | true =>
      rw [if_pos rfl]
      split
      · exact .throw _
      · refine .pure fun keeps => ?_
        have present := (told.2.mpr keeps).present
        rw [nullish] at present
        cases present
  | false =>
      rw [if_neg (by simp)]
      exact .pure ⟨nullish, told⟩

theorem no_fields_told {kept : Located InputDefinition → Prop} :
    ObjectTold (∃ field ∈ ([] : List (Located InputDefinition)), kept field) [] :=
  ⟨.of_object (List.forall_mem_nil _), by simp [keeps_empty_object]⟩

theorem one_more_tells {name : String} {first : Action σ ε (Option Value)}
    {others : Action σ ε Object} {kept rest : Prop} (found : Ensures first (FieldTold kept))
    (filled : Ensures others (ObjectTold rest)) :
    Ensures
      (do
        let value ← first
        let values ← others
        match value with
        | none => pure values
        | some present => pure ((name, present) :: values))
      (ObjectTold (kept ∨ rest)) := by
  apply found.bind
  intro value known
  apply filled.bind
  rintro values ⟨tidy, same⟩
  cases value with
  | none =>
      refine .pure ⟨tidy, same.trans ?_⟩
      exact (or_iff_right known).symm
  | some value =>
      obtain ⟨present, neat, keeps⟩ := known
      refine .pure ⟨.of_object (List.forall_mem_cons.mpr ⟨⟨present, neat⟩, tidy.of_fields⟩), ?_⟩
      rw [keeps_empty_object, List.exists_mem_cons_iff, keeps, ← same, keeps_empty_object]

/-- The fields of an input object keep an empty string if one of them does. -/
theorem coerce_fields_tell (policy : executor.isNullish = isNullOrEmpty)
    {given : String → Option (TypeRef → Coercion σ Value)} (absent keeps : InputDefinition → Prop)
    (fields : List (Located InputDefinition))
    (provided : ∀ field ∈ fields, Provided (given field.node.name.node) field.node.type.node
      (absent field.node) (keeps field.node))
    (expanded : ∀ field ∈ fields, ∀ literal ∈ field.node.default,
      Ensures (expand literal.node field.node.type.node.nullable)
        (literal.node.Told schema values field.node.type.node.nullable)) :
    Ensures (executor.coerceFields expand given fields)
      (ObjectTold (∃ field ∈ fields, KeptOrDefault schema values field.node.type.node
        field.node.default (absent field.node) (keeps field.node))) := by
  induction fields with
  | nil => exact .pure no_fields_told
  | cons field rest ih =>
      obtain ⟨first_provided, others_provided⟩ := List.forall_mem_cons.mp provided
      obtain ⟨first_expanded, others_expanded⟩ := List.forall_mem_cons.mp expanded
      have found := given_or_default_tells policy first_provided first_expanded
      rw [Executor.coerceFields, List.exists_mem_cons_iff]
      refine one_more_tells ?_ (ih others_provided others_expanded)
      rw [Executor.coerceField]
      exact (found.bind fun value told => left_out_tells policy told).adapt _

end Fields

section Objects

variable {values : Object} {expand : LiteralCoercion σ}

/-- Defaults of built-in types become what they tell. -/
def Executor.ExpandsAsTold (executor : Executor σ) (values : Object) (expand : LiteralCoercion σ) :
    Prop :=
  ∀ literal type, executor.schema.BuiltinOnly type →
    Ensures (expand literal type) (literal.Told executor.schema values type)

/-- At a named type an input becomes an input object or a leaf. -/
theorem coerce_named_tells {name : String} (builtin : executor.schema.BuiltinOnly (.named name))
    {fields : Option (List String × (String → Option (TypeRef → Coercion σ Value)))}
    {custom : ScalarHooks σ → Action σ FieldError Value} {plain : Value} {told : Value → Prop}
    (object : ∀ input, executor.schema.type? name = some (.inputObject input) →
      ∀ entries ∈ fields,
        Ensures (executor.coerceInputObject expand input entries.1 entries.2) told)
    (leaf : ∀ coerced, executor.coerceLeaf name plain = .ok coerced → told coerced) :
    Ensures (executor.coerceNamed expand fields custom plain name) told := by
  have known {scalar : ScalarType} (declared : executor.schema.type? name = some (.scalar scalar))
      (unnamed : BuiltinScalar.ofName? name = none) : False := by
    have named := builtin name .here scalar declared
    rw [unnamed] at named
    cases named
  refine ensuresJudgement.coerce_named object ?_ ?_ leaf
  · exact fun scalar declared unnamed _ => (known declared unnamed).elim
  · exact fun scalar declared unnamed _ _ => (known declared unnamed).elim

theorem coerce_input_object_tells (policy : executor.isNullish = isNullOrEmpty)
    (expanded : executor.ExpandsAsTold values expand) {name : String} {input : InputObjectType}
    (builtin : executor.schema.BuiltinOnly (.named name))
    (declared : executor.schema.type? name = some (.inputObject input)) {names : List String}
    {given : String → Option (TypeRef → Coercion σ Value)} (absent keeps : InputDefinition → Prop)
    (provided : ∀ field ∈ input.fields, Provided (given field.node.name.node) field.node.type.node
      (absent field.node) (keeps field.node)) :
    Ensures (executor.coerceInputObject expand input names given) fun value =>
      ∃ fields, value = .object fields ∧
        ObjectTold (∃ field ∈ input.fields, KeptOrDefault executor.schema values
          field.node.type.node field.node.default (absent field.node) (keeps field.node))
          fields := by
  have each := coerce_fields_tell policy absent keeps input.fields provided
    fun field member literal _ => expanded literal.node _ (builtin.field declared member).nullable
  rw [Executor.coerceInputObject]
  split
  · exact .throw _
  · exact each.bind fun fields told => .pure ⟨fields, rfl, told⟩

/-- An object literal becomes what it tells if its entries do. -/
theorem literal_object_tells (policy : executor.isNullish = isNullOrEmpty)
    (expanded : executor.ExpandsAsTold values expand) {name : String} {input : InputObjectType}
    (builtin : executor.schema.BuiltinOnly (.named name))
    (declared : executor.schema.type? name = some (.inputObject input)) {names : List String}
    {fields : List (Located String × Located Literal)}
    (entries : ∀ name given, (Literal.object fields).field? name = some given → ∀ type,
      executor.schema.BuiltinOnly type →
        Ensures (executor.coerceLiteralWith values expand given.node type)
          (given.node.Told executor.schema values type)) :
    Ensures
      (executor.coerceInputObject expand input names
        (executor.coerceLiteralEntry values expand fields))
      ((Literal.object fields).Told executor.schema values (.named name)) := by
  have given (field : String) : executor.coerceLiteralEntry values expand fields field =
      ((Literal.object fields).field? field).map fun given =>
        executor.coerceLiteralWith values expand given.node :=
    coerce_literal_entry_eq executor values expand fields field
  refine (coerce_input_object_tells policy expanded builtin declared
    (fun field => ∀ given ∈ (Literal.object fields).field? field.name.node,
      given.node.AbsentAt values field.type.node.nullable)
    (fun field => ∃ given ∈ (Literal.object fields).field? field.name.node,
      given.node.KeepsEmpty executor.schema values field.type.node.nullable) ?_).mono ?_
  · intro field member
    rw [given]
    exact provided_map fun located written =>
      entries _ located written _ (builtin.field declared member).nullable
  · rintro _ ⟨found, rfl, tidy, keeps⟩
    refine Literal.told_of_present rfl (by rw [Literal.toValue]; rfl) (keeps.trans ⟨?_, ?_⟩) tidy
    · rintro ⟨field, member, ⟨given, written, inside⟩ | ⟨absent, default, written, inside⟩⟩
      · exact .field declared member written inside
      · exact .default declared member absent written inside
    · intro kept
      cases kept with
      | field declared' member written inside =>
          cases declared.symm.trans declared'
          exact ⟨_, member, .inl ⟨_, written, inside⟩⟩
      | default declared' member absent written inside =>
          cases declared.symm.trans declared'
          exact ⟨_, member, .inr ⟨absent, _, written, inside⟩⟩

theorem value_object_tells (policy : executor.isNullish = isNullOrEmpty)
    (expanded : executor.ExpandsAsTold values expand) {name : String} {input : InputObjectType}
    (builtin : executor.schema.BuiltinOnly (.named name))
    (declared : executor.schema.type? name = some (.inputObject input)) {names : List String}
    {fields : Object}
    (entries : ∀ name given, fields.get? name = some given → ∀ type,
      executor.schema.BuiltinOnly type →
        Ensures (executor.coerceInputWith expand given type)
          (given.Told executor.schema values type)) :
    Ensures
      (executor.coerceInputObject expand input names (executor.coerceEntryWith expand fields))
      ((Value.object fields).Told executor.schema values (.named name)) := by
  have given (field : String) : executor.coerceEntryWith expand fields field =
      (fields.get? field).map (executor.coerceInputWith expand) :=
    coerce_entry_with_eq executor expand fields field
  refine (coerce_input_object_tells policy expanded builtin declared
    (fun field => ∀ given ∈ fields.get? field.name.node, isNullOrEmpty given = true)
    (fun field => ∃ given ∈ fields.get? field.name.node,
      given.KeepsEmptyAt executor.schema values field.type.node.nullable) ?_).mono ?_
  · intro field member
    rw [given]
    exact provided_map fun value provided =>
      entries _ value provided _ (builtin.field declared member).nullable
  · rintro _ ⟨found, rfl, tidy, keeps⟩
    refine ⟨by simp, Iff.rfl, keeps.trans ⟨?_, ?_⟩, tidy⟩
    · rintro ⟨field, member, ⟨given, provided, inside⟩ | ⟨absent, default, written, inside⟩⟩
      · exact .field declared member provided inside
      · exact .default declared member absent written inside
    · intro kept
      cases kept with
      | field declared' member provided inside =>
          cases declared.symm.trans declared'
          exact ⟨_, member, .inl ⟨_, provided, inside⟩⟩
      | default declared' member absent written inside =>
          cases declared.symm.trans declared'
          exact ⟨_, member, .inr ⟨absent, _, written, inside⟩⟩

end Objects

section Coercions

variable {values : Object} {expand : LiteralCoercion σ}

/-- The values of variables are there and in order. -/
def TidyValues (values : Object) : Prop :=
  ∀ name, variableValue values name ≠ .string "" ∧ (variableValue values name).Tidy

/-- A variable stands for null or for a value that is there. -/
theorem variable_value_bound (values : Object) (name : String) :
    variableValue values name = .null ∨ (name, variableValue values name) ∈ values := by
  rw [variableValue]
  cases known : values.get? name with
  | none => exact .inl rfl
  | some value => exact .inr (lookup_member known)

theorem tidy_values_of_each
    (each : ∀ entry ∈ values, isNullOrEmpty entry.2 = false ∧ entry.2.Tidy) :
    TidyValues values := by
  intro name
  rcases variable_value_bound values name with absent | inside
  · rw [absent]
    exact ⟨by simp, .single (by simp) (by simp)⟩
  · obtain ⟨present, tidy⟩ := each _ inside
    refine ⟨fun empty => ?_, tidy⟩
    rw [empty] at present
    cases present

/-- A literal that is neither a list nor an object comes to what it tells. -/
theorem single_literal_tells (enums : executor.schema.EnumsNamed) {literal : Literal}
    (single : literal.IsSingle) {custom : ScalarHooks σ → Action σ FieldError Value}
    (type : TypeRef) (builtin : executor.schema.BuiltinOnly type) :
    Ensures
      (InputShape.coerce executor.isNullish
        ⟨none, none, executor.coerceNamed expand none custom (literal.toValue values)⟩ type)
      (literal.Told executor.schema values type) := by
  refine shape_fits Literal.Told.required (fun _ _ _ => Literal.Told.only single) ?_ ?_ type builtin
  · intro coerce absent
    cases absent
  · intro name inner
    refine coerce_named_tells inner (fun _ _ _ absent => by cases absent) fun coerced done => ?_
    refine literal_leaf_told enums ?_ done
    rintro name rfl
    exact single

/-- A value that is neither a list nor an object comes to what it tells. -/
theorem single_input_tells (enums : executor.schema.EnumsNamed) {input : Value}
    (unlisted : ∀ items, input ≠ .list items)
    {custom : ScalarHooks σ → Action σ FieldError Value} (type : TypeRef)
    (builtin : executor.schema.BuiltinOnly type) :
    Ensures
      (InputShape.coerce isNullOrEmpty
        ⟨if isNullOrEmpty input then some .null else none, none,
          executor.coerceNamed expand none custom input⟩ type)
      (input.Told executor.schema values type) := by
  cases absent : isNullOrEmpty input with
  | true =>
      exact settled_fits Value.Told.required (fun type _ => Value.absent_told absent type) type
  | false =>
      refine shape_fits Value.Told.required (fun _ _ _ told => told.only absent unlisted) ?_ ?_ type
        builtin
      · intro coerce absent
        cases absent
      · intro name inner
        refine coerce_named_tells inner (fun _ _ _ absent => by cases absent) fun coerced done => ?_
        exact input_leaf_told enums absent done

mutual

/-- A literal comes to what it tells, at all types of built-in scalars. -/
theorem coerce_literal_tells (policy : executor.isNullish = isNullOrEmpty)
    (enums : executor.schema.EnumsNamed) (tidy : TidyValues values)
    (expanded : executor.ExpandsAsTold values expand) :
    ∀ literal type, executor.schema.BuiltinOnly type →
      Ensures (executor.coerceLiteralWith values expand literal type)
        (literal.Told executor.schema values type)
  | .variable name, type, _ => by
      rw [Executor.coerceLiteralWith]
      exact settled_fits Literal.Told.required
        (Literal.variable_told (tidy name).1 (tidy name).2) type
  | .null, type, _ => by
      rw [Executor.coerceLiteralWith]
      exact settled_fits Literal.Told.required Literal.null_told type
  | .list items, type, builtin => by
      rw [Executor.coerceLiteralWith]
      refine shape_fits Literal.Told.required (fun absent => by cases absent) ?_ ?_ type builtin
      · rintro coerce ⟨⟩ element inner
        exact (literal_elements_tell policy enums tidy expanded 0 items element inner).mono
          fun _ each => Literal.list_told each
      · intro name inner
        refine coerce_named_tells inner (fun _ _ _ absent => by cases absent) ?_
        exact fun coerced done => literal_leaf_told enums (by simp) done
  | .object fields, type, builtin => by
      rw [Executor.coerceLiteralWith]
      refine shape_fits Literal.Told.required (fun _ _ _ => Literal.Told.only (by trivial)) ?_ ?_
        type builtin
      · intro coerce absent
        cases absent
      · intro name inner
        refine coerce_named_tells inner ?_ fun coerced done =>
          literal_leaf_told enums (by simp) done
        rintro input declared entries ⟨⟩
        exact literal_object_tells policy expanded inner declared
          (literal_entries_tell policy enums tidy expanded fields)
  | .int _, type, builtin | .float _, type, builtin | .string _, type, builtin
  | .bool _, type, builtin | .enum _, type, builtin => by
      rw [Executor.coerceLiteralWith]
      · exact single_literal_tells enums (by trivial) type builtin
      all_goals intros; contradiction

theorem literal_elements_tell (policy : executor.isNullish = isNullOrEmpty)
    (enums : executor.schema.EnumsNamed) (tidy : TidyValues values)
    (expanded : executor.ExpandsAsTold values expand) :
    ∀ (index : Nat) (items : List (Located Literal)) (element : TypeRef),
      executor.schema.BuiltinOnly element →
        Ensures (executor.coerceLiteralElements values expand index items element)
          (List.Forall₂ (fun item value => item.node.Told executor.schema values element value)
            items)
  | _, [], element, _ => by
      rw [Executor.coerceLiteralElements]
      exact .pure .nil
  | index, ⟨item, _⟩ :: rest, element, builtin => by
      have first := coerce_literal_tells policy enums tidy expanded item element builtin
      have others := literal_elements_tell policy enums tidy expanded (index + 1) rest element
        builtin
      rw [Executor.coerceLiteralElements]
      exact (first.adapt _).bind fun _ told => others.bind fun _ each => .pure (.cons told each)

theorem literal_entries_tell (policy : executor.isNullish = isNullOrEmpty)
    (enums : executor.schema.EnumsNamed) (tidy : TidyValues values)
    (expanded : executor.ExpandsAsTold values expand) :
    ∀ (fields : List (Located String × Located Literal)) (name : String) (given : Located Literal),
      (Literal.object fields).field? name = some given → ∀ type,
        executor.schema.BuiltinOnly type →
          Ensures (executor.coerceLiteralWith values expand given.node type)
            (given.node.Told executor.schema values type)
  | [], _, _, found, _, _ => by cases found
  | (key, ⟨value, span⟩) :: rest, name, given, found, type, builtin => by
      rw [Literal.field?, List.find?_cons] at found
      split at found
      · cases found
        exact coerce_literal_tells policy enums tidy expanded value type builtin
      · exact literal_entries_tell policy enums tidy expanded rest name given found type builtin

end

mutual

/-- A value from outside comes to what it tells, at all types of built-in scalars. -/
theorem coerce_input_tells (policy : executor.isNullish = isNullOrEmpty)
    (enums : executor.schema.EnumsNamed) (expanded : executor.ExpandsAsTold values expand) :
    ∀ value type, executor.schema.BuiltinOnly type →
      Ensures (executor.coerceInputWith expand value type)
        (value.Told executor.schema values type)
  | .list items, type, builtin => by
      rw [Executor.coerceInputWith, policy]
      refine shape_fits Value.Told.required (fun absent => by cases absent) ?_ ?_ type builtin
      · rintro coerce ⟨⟩ element inner
        exact (input_elements_tell policy enums expanded 0 items element inner).mono
          fun _ each => Value.list_told each
      · intro name inner
        refine coerce_named_tells inner (fun _ _ _ absent => by cases absent) ?_
        exact fun coerced done => input_leaf_told enums rfl done
  | .object fields, type, builtin => by
      rw [Executor.coerceInputWith, policy]
      refine shape_fits Value.Told.required (fun _ _ _ told => told.only rfl (by simp)) ?_ ?_ type
        builtin
      · intro coerce absent
        cases absent
      · intro name inner
        refine coerce_named_tells inner ?_ fun coerced done => input_leaf_told enums rfl done
        rintro input declared entries ⟨⟩
        exact value_object_tells policy expanded inner declared
          (input_entries_tell policy enums expanded fields)
  | .null, type, builtin | .bool _, type, builtin | .int _, type, builtin
  | .float _, type, builtin | .string _, type, builtin | .record _ _ _, type, builtin => by
      rw [Executor.coerceInputWith, policy]
      · exact single_input_tells enums (by simp) type builtin
      all_goals intros; contradiction

theorem input_elements_tell (policy : executor.isNullish = isNullOrEmpty)
    (enums : executor.schema.EnumsNamed) (expanded : executor.ExpandsAsTold values expand) :
    ∀ (index : Nat) (items : List Value) (element : TypeRef),
      executor.schema.BuiltinOnly element →
        Ensures (executor.coerceElementsWith expand index items element)
          (List.Forall₂ (fun item value => item.Told executor.schema values element value) items)
  | _, [], element, _ => by
      rw [Executor.coerceElementsWith]
      exact .pure .nil
  | index, item :: rest, element, builtin => by
      have first := coerce_input_tells policy enums expanded item element builtin
      have others := input_elements_tell policy enums expanded (index + 1) rest element builtin
      rw [Executor.coerceElementsWith]
      exact (first.adapt _).bind fun _ told => others.bind fun _ each => .pure (.cons told each)

theorem input_entries_tell (policy : executor.isNullish = isNullOrEmpty)
    (enums : executor.schema.EnumsNamed) (expanded : executor.ExpandsAsTold values expand) :
    ∀ (fields : Object) (name : String) (given : Value), fields.get? name = some given →
      ∀ type, executor.schema.BuiltinOnly type →
        Ensures (executor.coerceInputWith expand given type)
          (given.Told executor.schema values type)
  | [], _, _, found, _, _ => by cases found
  | (key, value) :: rest, name, given, found, type, builtin => by
      rw [Object.get?, List.lookup_cons] at found
      split at found
      · cases found
        exact coerce_input_tells policy enums expanded value type builtin
      · exact input_entries_tell policy enums expanded rest name given found type builtin

end

theorem expand_default_tells (policy : executor.isNullish = isNullOrEmpty)
    (enums : executor.schema.EnumsNamed) (tidy : TidyValues values) (depth : Nat) :
    executor.ExpandsAsTold values (executor.expandDefault values depth) := by
  induction depth with
  | zero => exact fun _ _ _ => .unfinished
  | succ depth ih =>
      intro literal type builtin
      rw [Executor.expandDefault]
      exact coerce_literal_tells policy enums tidy ih literal type builtin

theorem argument_literal_tells (policy : executor.isNullish = isNullOrEmpty)
    (enums : executor.schema.EnumsNamed) (tidy : TidyValues values) :
    executor.ExpandsAsTold values (executor.coerceLiteral values) :=
  expand_default_tells policy enums tidy _

end Coercions

end GraphQL
