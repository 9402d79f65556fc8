import GraphQL.Proofs.LiteralCoercion

/-!
Judging coercions by their parts.

A judgement says of an action how it ends and what its values are like. Once it is known which
values are permitted at the named types of a schema, every coercion is judged along the type and the
input: a literal by its parts at the types of their positions, a value from outside by its items and
fields. What counts as absent is up to the executor.
-/

namespace GraphQL

variable {σ ε ε' α β : Type}

/-- What is said of an action and of its values, if it can be said of the parts of the action. -/
structure Judgement (σ : Type) where
  holds : ∀ {ε α : Type}, Action σ ε α → (α → Prop) → Prop
  pure : ∀ {ε α : Type} {value : α} {property : α → Prop}, property value →
    holds (Pure.pure value : Action σ ε α) property
  throw : ∀ {ε α : Type} (error : ε) {property : α → Prop},
    holds (MonadExcept.throw error : Action σ ε α) property
  bind : ∀ {ε α β : Type} {action : Action σ ε α} {next : α → Action σ ε β}
    {property : α → Prop} {result : β → Prop}, holds action property →
      (∀ value, property value → holds (next value) result) → holds (action >>= next) result
  adapt : ∀ {ε ε' α : Type} (change : ε → ε') {action : Action σ ε α} {property : α → Prop},
    holds action property → holds (ExceptT.adapt change action : Action σ ε' α) property
  /-- What is sure of the values in any case is sure of them here. -/
  also : ∀ {ε α : Type} {action : Action σ ε α} {fact property : α → Prop}, Ensures action fact →
    holds action property → holds action fun value => fact value ∧ property value

/-- The judgement that speaks of values only, and of actions that may be unfinished. -/
def ensuresJudgement : Judgement σ where
  holds := Ensures
  pure := .pure
  throw error := .throw error
  bind := .bind
  adapt change := .adapt change
  also known ensured :=
    ⟨fun _ _ _ ran => ⟨known.holds _ _ _ ran, ensured.holds _ _ _ ran⟩⟩

theorem Judgement.mono (judge : Judgement σ) {action : Action σ ε α} {property goal : α → Prop}
    (judged : judge.holds action property) (weaker : ∀ value, property value → goal value) :
    judge.holds action goal := by
  rw [← bind_pure action]
  exact judge.bind judged fun value holds => judge.pure (weaker value holds)

/-- Takes off all outermost non-null wrappers. -/
def TypeRef.fullyNullable : TypeRef → TypeRef
  | .nonNull inner => inner.fullyNullable
  | other => other

theorem fully_nullable_optional (type : TypeRef) : type.fullyNullable.isNonNull = false := by
  induction type with
  | nonNull inner ih => exact ih
  | _ => rfl

/-- Part of a literal at a type stands at a position that has a type of its own. -/
inductive Literal.PartAt (schema : Schema) : TypeRef → Literal → TypeRef → Literal → Prop where
  | whole {type literal} : PartAt schema type literal type literal
  | required {inner literal position part} (within : PartAt schema inner literal position part) :
      PartAt schema (.nonNull inner) literal position part
  | element {element items item position part} (member : item ∈ items)
      (within : PartAt schema element item.node position part) :
      PartAt schema (.list element) (.list items) position part
  /-- An object where a list is asked for is its only element. -/
  | only {element fields position part}
      (within : PartAt schema element (.object fields) position part) :
      PartAt schema (.list element) (.object fields) position part
  | field {typeName input fields definition entry position part}
      (declared : schema.type? typeName = some (.inputObject input))
      (member : definition ∈ input.fields) (given : entry ∈ fields)
      (named : entry.1.node = definition.node.name.node)
      (within : PartAt schema definition.node.type.node entry.2.node position part) :
      PartAt schema (.named typeName) (.object fields) position part

/-- A part of a constant is one. -/
theorem Literal.PartAt.constant {schema : Schema} {type position : TypeRef} {literal part : Literal}
    (inside : Literal.PartAt schema type literal position part) (constant : literal.Constant) :
    part.Constant := by
  induction inside with
  | whole => exact constant
  | required within ih => exact ih constant
  | element member within ih =>
      cases constant with
      | list each => exact ih (each _ member)
  | only within ih => exact ih constant
  | field declared member given named within ih =>
      cases constant with
      | object distinct each => exact ih (each _ given)

/-- The fields of an object fit the declared ones, in their order; those left out have a property. -/
inductive Fills (fits : TypeRef → Value → Prop) (gone : InputDefinition → Prop) :
    List (Located InputDefinition) → Object → Prop where
  | nil : Fills fits gone [] []
  | absent {field fields values} (optional : field.node.type.node.isNonNull = false)
      (left : gone field.node) (rest : Fills fits gone fields values) :
      Fills fits gone (field :: fields) values
  | present {field fields value values} (first : fits field.node.type.node value)
      (rest : Fills fits gone fields values) :
      Fills fits gone (field :: fields) ((field.node.name.node, value) :: values)

/-- The fields of an object are among the declared ones, and in their order. -/
theorem Fills.keys_sublist {fits : TypeRef → Value → Prop} {gone : InputDefinition → Prop}
    {definitions : List (Located InputDefinition)} {values : Object}
    (fills : Fills fits gone definitions values) :
    (Object.keys values).Sublist (definitions.map (·.node.name.node)) := by
  induction fills with
  | nil => exact .slnil
  | absent _ _ _ ih => exact .cons _ ih
  | present _ _ ih => exact ih.cons_cons _

/--
A field of an input object may need its default although an object literal stands there: the literal
does not give the field, or gives it something that may count as absent.
-/
def Executor.LeavesOpen (executor : Executor σ) (fields : List (Located String × Located Literal))
    (field : InputDefinition) : Prop :=
  ∀ given, (Literal.object fields).field? field.name.node = some given →
    ¬∀ values expand, Ensures
      (executor.coerceLiteralWith values expand given.node field.type.node.nullable)
      fun value => executor.isNullish value = false

/-- Looking up a field of an object literal coerces what is given there. -/
theorem coerce_literal_entry_eq (executor : Executor σ) (values : Object)
    (expand : LiteralCoercion σ) (fields : List (Located String × Located Literal))
    (name : String) :
    executor.coerceLiteralEntry values expand fields name =
      ((Literal.object fields).field? name).map fun given =>
        executor.coerceLiteralWith values expand given.node := by
  induction fields with
  | nil => rfl
  | cons field rest ih =>
      obtain ⟨key, value, span⟩ := field
      rw [Executor.coerceLiteralEntry, ih, Literal.field?, Literal.field?, List.find?_cons]
      by_cases same : name = key.node
      · simp [same]
      · simp [same, beq_eq_false_iff_ne.mpr (Ne.symm same)]

/-- What is given for a field may count as absent. -/
def Executor.MayLack (executor : Executor σ) (type : TypeRef)
    (given : Option (TypeRef → Coercion σ Value)) : Prop :=
  ∀ coerce ∈ given, ¬Ensures (coerce type.nullable) fun value => executor.isNullish value = false

theorem Executor.MayLack.leaves_open {executor : Executor σ} {values : Object}
    {expand : LiteralCoercion σ} {fields : List (Located String × Located Literal)}
    {field : InputDefinition}
    (lacks : executor.MayLack field.type.node
      (executor.coerceLiteralEntry values expand fields field.name.node)) :
    executor.LeavesOpen fields field := by
  intro given found sure
  rw [coerce_literal_entry_eq, found, Option.map_some] at lacks
  exact lacks _ rfl (sure values expand)

/-- A value is permitted at a type, and does not count as absent. -/
def Executor.There (executor : Executor σ) (permits : TypeRef → Value → Prop) (type : TypeRef)
    (value : Value) : Prop :=
  executor.isNullish value = false ∧ permits type value

/-- What values are permitted at which types, and what is sure of input fields that are left out. -/
structure InputRules (executor : Executor σ) (permits : TypeRef → Value → Prop)
    (gone : InputDefinition → Prop) : Prop where
  null : ∀ {type : TypeRef}, type.isNonNull = false → permits type .null
  required : ∀ {inner value}, executor.There permits inner value → permits (.nonNull inner) value
  list : ∀ {element items}, (∀ item ∈ items, permits element item) →
    permits (.list element) (.list items)
  leaf : ∀ {name value coerced}, executor.coerceLeaf name value = .ok coerced →
    permits (.named name) coerced
  custom : ∀ {name definition}, executor.schema.type? name = some (.scalar definition) →
    BuiltinScalar.ofName? name = none → ∀ value, permits (.named name) value
  object : ∀ {name input fields}, executor.schema.type? name = some (.inputObject input) →
    Fills (executor.There permits) gone input.fields fields → permits (.named name) (.object fields)
  undefaulted : ∀ {field : InputDefinition}, field.default = none → gone field

namespace Judgement

/-- An input becomes at a named type what an input object, a custom scalar or a leaf makes of it. -/
theorem coerce_named (judge : Judgement σ) {executor : Executor σ} {expand : LiteralCoercion σ}
    {fields : Option (List String × (String → Option (TypeRef → Coercion σ Value)))}
    {custom : ScalarHooks σ → Action σ FieldError Value} {value : Value} {name : String}
    {property : Value → Prop}
    (object : ∀ input, executor.schema.type? name = some (.inputObject input) →
      ∀ entries ∈ fields,
        judge.holds (executor.coerceInputObject expand input entries.1 entries.2) property)
    (plain : ∀ scalar, executor.schema.type? name = some (.scalar scalar) →
      BuiltinScalar.ofName? name = none → executor.scalar? name = none → property value)
    (hooked : ∀ scalar, executor.schema.type? name = some (.scalar scalar) →
      BuiltinScalar.ofName? name = none → ∀ hooks ∈ executor.scalar? name,
        judge.holds (custom hooks) property)
    (leaf : ∀ coerced, executor.coerceLeaf name value = .ok coerced → property coerced) :
    judge.holds (executor.coerceNamed expand fields custom value name) property := by
  have lifted : judge.holds (Executor.coerceNamed.liftExcept (executor.coerceLeaf name value) :
      Coercion σ Value) property := by
    cases done : executor.coerceLeaf name value with
    | ok coerced => exact judge.pure (leaf coerced done)
    | error error => exact judge.throw error
  rw [Executor.coerceNamed]
  split
  · rename_i input declared
    cases fields with
    | none => exact judge.throw _
    | some entries => exact object input declared entries rfl
  · rename_i scalar declared
    cases named : BuiltinScalar.ofName? name with
    | some builtin => exact lifted
    | none =>
        cases found : executor.scalar? name with
        | none => exact judge.pure (plain scalar declared named found)
        | some hooks => exact judge.adapt _ (hooked scalar declared named hooks found)
  · exact lifted

variable (judge : Judgement σ) {executor : Executor σ} {permits : TypeRef → Value → Prop}
  {gone : InputDefinition → Prop} {expand : LiteralCoercion σ}

/-- The callbacks that read custom scalars are judged, whatever they make of their input. -/
structure Reads (executor : Executor σ) : Prop where
  parseValue : ∀ name, ∀ hooks ∈ executor.scalar? name, ∀ value,
    judge.holds (hooks.parseValue value) fun _ => True
  parseLiteral : ∀ name, ∀ hooks ∈ executor.scalar? name, ∀ literal,
    judge.holds (hooks.parseLiteral literal) fun _ => True

/-- Whatever callbacks make of their input, something can be said of it. -/
theorem ensures_reads (executor : Executor σ) : ensuresJudgement.Reads executor where
  parseValue _ _ _ _ := .trivial _
  parseLiteral _ _ _ _ := .trivial _

/-- A default is judged at a nullable type; where it counts as absent too, nothing is left. -/
def ExpandsTo (executor : Executor σ) (permits : TypeRef → Value → Prop) (expand : LiteralCoercion σ)
    (type : TypeRef) (left : Prop) (default : Option (Located Literal)) : Prop :=
  ∀ literal ∈ default, judge.holds (expand literal.node type.nullable) fun value =>
    permits type.nullable value ∧ (executor.isNullish value = true → left)

/-- The defaults of an input object are judged. -/
def Expands (executor : Executor σ) (permits : TypeRef → Value → Prop)
    (gone : InputDefinition → Prop) (expand : LiteralCoercion σ) (name : String) : Prop :=
  ∀ input, executor.schema.type? name = some (.inputObject input) → ∀ field ∈ input.fields,
    judge.ExpandsTo executor permits expand field.node.type.node (gone field.node)
      field.node.default

/-- What is asked of a literal at a type: of its variables, and of the defaults it leaves open. -/
structure Admits (executor : Executor σ) (permits : TypeRef → Value → Prop)
    (gone : InputDefinition → Prop) (expand : LiteralCoercion σ) (values : Object)
    (type : TypeRef) (literal : Literal) : Prop where
  used : ∀ position name,
    Literal.PartAt executor.schema type literal position (.variable name) →
      permits position.fullyNullable (variableValue values name)
  defaults : ∀ name fields,
    Literal.PartAt executor.schema type literal (.named name) (.object fields) →
      ∀ input, executor.schema.type? name = some (.inputObject input) → ∀ field ∈ input.fields,
        executor.LeavesOpen fields field.node →
          judge.ExpandsTo executor permits expand field.node.type.node (gone field.node)
            field.node.default

variable {judge}

/-- What is asked of a literal is asked of its parts. -/
theorem Admits.part {values : Object} {type inner : TypeRef} {literal within : Literal}
    (admits : judge.Admits executor permits gone expand values type literal)
    (inside : ∀ {position part}, Literal.PartAt executor.schema inner within position part →
      Literal.PartAt executor.schema type literal position part) :
    judge.Admits executor permits gone expand values inner within where
  used position name part := admits.used position name (inside part)
  defaults name fields part := admits.defaults name fields (inside part)

/-- Without the outermost non-null wrapper no more is asked. -/
theorem Admits.nullable {values : Object} {type : TypeRef} {literal : Literal}
    (admits : judge.Admits executor permits gone expand values type literal) :
    judge.Admits executor permits gone expand values type.nullable literal := by
  cases type with
  | nonNull inner => exact admits.part .required
  | _ => exact admits

section Wrappers

variable (judge) (rules : InputRules executor permits gone)

include rules

/-- What is checked to be there after a coercion is permitted at the non-null type. -/
theorem demanded {inner : TypeRef} {action : Coercion σ Value}
    (judged : judge.holds action (permits inner)) :
    judge.holds
      (action >>= fun value =>
        if executor.isNullish value then throwThe CoercionError (.nullFound (.nonNull inner))
        else Pure.pure value)
      (permits (.nonNull inner)) := by
  apply judge.bind judged
  intro value inside
  split
  · exact judge.throw _
  · rename_i present
    exact judge.pure (rules.required ⟨by simpa using present, inside⟩)

/-- A value that an input has of its own must be permitted where it stands. -/
theorem settled_coerced {value : Value} {elements : Option (TypeRef → Coercion σ (List Value))}
    {named : String → Coercion σ Value} (type : TypeRef)
    (permitted : permits type.fullyNullable value) :
    judge.holds (InputShape.coerce executor.isNullish ⟨some value, elements, named⟩ type)
      (permits type) := by
  induction type with
  | named name => exact judge.pure permitted
  | list element => exact judge.pure permitted
  | nonNull inner ih =>
      rw [InputShape.coerce]
      exact judge.demanded rules (ih permitted)

theorem null_coerced {elements : Option (TypeRef → Coercion σ (List Value))}
    {named : String → Coercion σ Value} (type : TypeRef) :
    judge.holds (InputShape.coerce executor.isNullish ⟨some .null, elements, named⟩ type)
      (permits type) := by
  apply judge.settled_coerced rules
  exact rules.null (fully_nullable_optional type)

/-- An input is permitted at a type if its elements and named types are, each where it suits. -/
theorem shape_coerced (suited : TypeRef → Prop)
    {elements : Option (TypeRef → Coercion σ (List Value))} {named : String → Coercion σ Value}
    (unwrapped : ∀ inner, suited (.nonNull inner) → suited inner)
    (only : elements = none → ∀ element, suited (.list element) → suited element)
    (each : ∀ coerce ∈ elements, ∀ element, suited (.list element) →
      judge.holds (coerce element) fun items => ∀ item ∈ items, permits element item)
    (leaf : ∀ name, suited (.named name) → judge.holds (named name) (permits (.named name)))
    (type : TypeRef) (suitable : suited type) :
    judge.holds (InputShape.coerce executor.isNullish ⟨none, elements, named⟩ type)
      (permits type) := by
  induction type with
  | named name => exact leaf name suitable
  | list element ih =>
      rw [InputShape.coerce]
      cases elements with
      | some coerce =>
          apply judge.bind (each coerce rfl element suitable)
          intro items permitted
          exact judge.pure (rules.list permitted)
      | none =>
          apply judge.bind (ih (only rfl element suitable))
          intro item permitted
          refine judge.pure (rules.list fun other member => ?_)
          rw [List.mem_singleton.mp member]
          exact permitted
  | nonNull inner ih =>
      rw [InputShape.coerce]
      exact judge.demanded rules (ih (unwrapped inner suitable))

/-- What is permitted under a non-null wrapper is permitted at the type, unless it is absent. -/
theorem under_nullable {type : TypeRef} {value : Value} (permitted : permits type.nullable value)
    (present : executor.isNullish value = false) : executor.There permits type value := by
  cases type with
  | nonNull inner => exact ⟨present, rules.required ⟨present, permitted⟩⟩
  | _ => exact ⟨present, permitted⟩

/-- Where null does not count as absent, it is permitted at every type. -/
theorem null_there (present : executor.isNullish .null = false) (type : TypeRef) :
    executor.There permits type .null := by
  refine ⟨present, ?_⟩
  induction type with
  | nonNull inner ih => exact rules.required ⟨present, ih⟩
  | _ => exact rules.null rfl

/-- What is given is permitted, or the default is; if neither is there, what goes for that holds. -/
theorem given_or_default {type : TypeRef} {default : Option (Located Literal)} {left : Prop}
    (undefaulted : default = none → left) {given : Option (TypeRef → Coercion σ Value)}
    (expanded : executor.MayLack type given →
      judge.ExpandsTo executor permits expand type left default)
    (provided : ∀ coerce ∈ given, judge.holds (coerce type.nullable) (permits type.nullable)) :
    judge.holds (executor.givenOrDefault expand type default given) fun value =>
      (executor.isNullish value = true → left) ∧
        (executor.isNullish value = false → executor.There permits type value) := by
  have first : judge.holds (given.elim (Pure.pure .null) fun coerce => coerce type.nullable)
      fun value => executor.isNullish value = false → executor.There permits type value := by
    cases given with
    | none => exact judge.pure fun present => null_there rules present type
    | some coerce => exact judge.mono (provided coerce rfl) fun _ => under_nullable rules
  rw [given_or_default_eq]
  by_cases lacks : executor.MayLack type given
  · apply judge.bind first
    intro value there
    cases default with
    | none => exact judge.pure ⟨fun _ => undefaulted rfl, there⟩
    | some literal =>
        rw [Executor.orDefault]
        cases absent : executor.isNullish value with
        | true =>
            rw [if_pos rfl]
            exact judge.mono (expanded lacks literal rfl) fun _ inside =>
              ⟨inside.2, under_nullable rules inside.1⟩
        | false =>
            rw [if_neg (by simp)]
            exact judge.pure ⟨fun null => by simp [absent] at null, there⟩
  · -- What is given never counts as absent, so the default is not even looked at.
    simp only [Executor.MayLack, Classical.not_forall, Classical.not_not] at lacks
    obtain ⟨coerce, rfl, sure⟩ := lacks
    rw [Option.elim_some, default_not_needed sure]
    refine judge.mono (judge.also sure first) fun value known => ⟨fun absent => ?_, known.2⟩
    rw [known.1] at absent
    cases absent

omit rules in
/-- What counts as absent is left out, where the type allows it. -/
theorem left_if_absent {type : TypeRef} {value : Value} {error : ε} {left : Prop}
    {fits : TypeRef → Value → Prop} (known : (executor.isNullish value = true → left) ∧
      (executor.isNullish value = false → fits type value)) :
    judge.holds
      (if executor.isNullish value then
          if type.isNonNull then throwThe ε error else Pure.pure none
        else Pure.pure (some value) : Action σ ε (Option Value))
      fun found => found.elim (type.isNonNull = false ∧ left) (fits type) := by
  cases absent : executor.isNullish value with
  | true =>
      rw [if_pos rfl]
      split
      · exact judge.throw _
      · rename_i optional
        exact judge.pure ⟨by simpa using optional, known.1 absent⟩
  | false =>
      rw [if_neg (by simp)]
      exact judge.pure (known.2 absent)

omit rules in
/-- One field more is filled if it fits, or if it is left out and may be. -/
theorem fills_one_more {fits : TypeRef → Value → Prop} {field : Located InputDefinition}
    {fields : List (Located InputDefinition)} {first : Action σ ε (Option Value)}
    {others : Action σ ε Object}
    (found : judge.holds first fun found =>
      found.elim (field.node.type.node.isNonNull = false ∧ gone field.node)
        (fits field.node.type.node))
    (filled : judge.holds others (Fills fits gone fields)) :
    judge.holds
      (do
        let value ← first
        let values ← others
        match value with
        | none => Pure.pure values
        | some present => Pure.pure ((field.node.name.node, present) :: values))
      (Fills fits gone (field :: fields)) := by
  apply judge.bind found
  intro value known
  apply judge.bind filled
  intro values filled
  cases value with
  | none => exact judge.pure (.absent known.1 known.2 filled)
  | some value => exact judge.pure (.present known filled)

theorem coerce_fields {given : String → Option (TypeRef → Coercion σ Value)}
    (fields : List (Located InputDefinition))
    (expanded : ∀ field ∈ fields,
      executor.MayLack field.node.type.node (given field.node.name.node) →
        judge.ExpandsTo executor permits expand field.node.type.node (gone field.node)
          field.node.default)
    (provided : ∀ field ∈ fields, ∀ coerce ∈ given field.node.name.node,
      judge.holds (coerce field.node.type.node.nullable)
        (permits field.node.type.node.nullable)) :
    judge.holds (executor.coerceFields expand given fields)
      (Fills (executor.There permits) gone fields) := by
  induction fields with
  | nil => exact judge.pure .nil
  | cons field rest ih =>
      have found := judge.given_or_default rules rules.undefaulted
        (expanded field List.mem_cons_self) (provided field List.mem_cons_self)
      rw [Executor.coerceFields]
      apply judge.fills_one_more
      · rw [Executor.coerceField]
        exact judge.adapt _ (judge.bind found fun value known => judge.left_if_absent known)
      · exact ih (fun other member => expanded other (List.mem_cons_of_mem _ member))
          fun other member => provided other (List.mem_cons_of_mem _ member)

/-- The arguments of a field are judged if what it gives for them is. -/
theorem coerce_arguments {values : Object} {field : Field}
    (arguments : List (Located InputDefinition))
    (expanded : ∀ argument ∈ arguments,
      judge.ExpandsTo executor permits (executor.coerceLiteral values)
        argument.node.type.node (gone argument.node) argument.node.default)
    (provided : ∀ argument ∈ arguments, ∀ literal ∈ field.argument? argument.node.name.node,
      judge.holds (executor.coerceLiteral values literal.node argument.node.type.node.nullable)
        (permits argument.node.type.node.nullable)) :
    judge.holds (executor.coerceArguments values field arguments)
      (Fills (executor.There permits) gone arguments) := by
  induction arguments with
  | nil => exact judge.pure .nil
  | cons argument rest ih =>
      have given : ∀ coerce ∈ (field.argument? argument.node.name.node).map fun literal =>
          executor.coerceLiteral values literal.node,
          judge.holds (coerce argument.node.type.node.nullable)
            (permits argument.node.type.node.nullable) := by
        intro coerce found
        obtain ⟨literal, written, rfl⟩ := Option.map_eq_some_iff.mp found
        exact provided argument List.mem_cons_self literal written
      have found := judge.given_or_default rules rules.undefaulted
        (fun _ => expanded argument List.mem_cons_self) given
      rw [Executor.coerceArguments]
      apply judge.fills_one_more
      · rw [Executor.coerceArgument]
        exact judge.bind (judge.adapt _ found) fun value known => judge.left_if_absent known
      · exact ih (fun other member => expanded other (List.mem_cons_of_mem _ member))
          fun other member => provided other (List.mem_cons_of_mem _ member)

/-- A variable is judged if its input and its default are. -/
theorem coerce_variable {inputs : Object} {declared : VariableDefinition} {left : Prop}
    (undefaulted : declared.default = none → left)
    (expanded : judge.ExpandsTo executor permits (executor.coerceLiteral []) declared.type.node
      left declared.default)
    (provided : ∀ value ∈ inputs.get? declared.name.node,
      judge.holds (executor.coerceInput [] value declared.type.node.nullable)
        (permits declared.type.node.nullable)) :
    judge.holds (executor.coerceVariable inputs declared) fun found =>
      found.elim (declared.type.node.isNonNull = false ∧ left)
        (executor.There permits declared.type.node) := by
  have given : ∀ coerce ∈ (inputs.get? declared.name.node).map (executor.coerceInput []),
      judge.holds (coerce declared.type.node.nullable)
        (permits declared.type.node.nullable) := by
    intro coerce found
    obtain ⟨value, present, rfl⟩ := Option.map_eq_some_iff.mp found
    exact provided value present
  rw [Executor.coerceVariable]
  split
  · exact judge.throw _
  · split
    · exact judge.bind
        (judge.adapt _ (judge.given_or_default rules undefaulted (fun _ => expanded) given))
        fun value known => judge.left_if_absent known
    · exact judge.throw _

/-- An input is permitted at a named type if its fields are at those of an input object. -/
theorem coerce_named_permitted
    {fields : Option (List String × (String → Option (TypeRef → Coercion σ Value)))}
    {custom : ScalarHooks σ → Action σ FieldError Value} (value : Value) {name : String}
    (read : ∀ hooks ∈ executor.scalar? name, judge.holds (custom hooks) fun _ => True)
    (expands : ∀ input, executor.schema.type? name = some (.inputObject input) →
      ∀ entries ∈ fields, ∀ field ∈ input.fields,
        executor.MayLack field.node.type.node (entries.2 field.node.name.node) →
          judge.ExpandsTo executor permits expand field.node.type.node (gone field.node)
            field.node.default)
    (provided : ∀ input, executor.schema.type? name = some (.inputObject input) →
      ∀ entries ∈ fields, ∀ field ∈ input.fields, ∀ coerce ∈ entries.2 field.node.name.node,
        judge.holds (coerce field.node.type.node.nullable)
          (permits field.node.type.node.nullable)) :
    judge.holds (executor.coerceNamed expand fields custom value name)
      (permits (.named name)) := by
  apply judge.coerce_named
  · intro input declared entries given
    have each := judge.coerce_fields rules input.fields (expands input declared entries given)
      (provided input declared entries given)
    rw [Executor.coerceInputObject]
    split
    · exact judge.throw _
    · exact judge.bind each fun _ filled => judge.pure (rules.object declared filled)
  · intro scalar declared unnamed _
    exact rules.custom declared unnamed value
  · intro scalar declared unnamed hooks registered
    exact judge.mono (read hooks registered) fun result _ => rules.custom declared unnamed result
  · intro coerced done
    exact rules.leaf done

/-- An input without elements and fields is permitted at any type that it can be coerced at. -/
theorem leaf_coerced {custom : ScalarHooks σ → Action σ FieldError Value}
    (read : ∀ name, ∀ hooks ∈ executor.scalar? name, judge.holds (custom hooks) fun _ => True)
    (value : Value) (type : TypeRef) :
    judge.holds (InputShape.coerce executor.isNullish
        ⟨none, none, executor.coerceNamed expand none custom value⟩ type)
      (permits type) := by
  refine judge.shape_coerced rules (fun _ => True) (fun _ _ => trivial) (fun _ _ _ => trivial) ?_ ?_
    type trivial
  · intro coerce absent
    cases absent
  · intro name _
    apply judge.coerce_named_permitted rules value (read name)
    all_goals
      intro _ _ entries absent
      cases absent

end Wrappers

section Inputs

variable (judge)

mutual

/-- A literal of which enough is known is coerced to what is permitted at the type. -/
theorem literal_coerced (rules : InputRules executor permits gone) (reads : judge.Reads executor)
    (values : Object) :
    ∀ literal type, judge.Admits executor permits gone expand values type literal →
      judge.holds (executor.coerceLiteralWith values expand literal type) (permits type)
  | .variable name, type, admits => by
      rw [Executor.coerceLiteralWith]
      exact judge.settled_coerced rules type (admits.used type name .whole)
  | .null, type, _ => by
      rw [Executor.coerceLiteralWith]
      exact judge.null_coerced rules type
  | .list items, type, admits => by
      rw [Executor.coerceLiteralWith]
      refine judge.shape_coerced rules
        (fun type => judge.Admits executor permits gone expand values type (.list items))
        (fun _ admits => admits.part .required) (fun absent => by cases absent) ?_ ?_ type admits
      · rintro coerce ⟨⟩ element admitted
        exact elements_coerced rules reads values 0 items element fun item member =>
          admitted.part (.element member)
      · intro name _
        apply judge.coerce_named_permitted rules _
          (fun hooks registered => reads.parseLiteral name hooks registered _)
        all_goals
          intro _ _ entries absent
          cases absent
  | .object fields, type, admits => by
      rw [Executor.coerceLiteralWith]
      refine judge.shape_coerced rules
        (fun type => judge.Admits executor permits gone expand values type (.object fields))
        (fun _ admits => admits.part .required) (fun _ _ admits => admits.part .only) ?_ ?_ type
        admits
      · intro coerce absent
        cases absent
      · intro name admitted
        apply judge.coerce_named_permitted rules _
          (fun hooks registered => reads.parseLiteral name hooks registered _)
          (by
            rintro input declared entries ⟨⟩ field member lacks
            exact admitted.defaults name fields .whole input declared field member
              lacks.leaves_open)
        rintro input declared entries ⟨⟩ field member coerce found
        exact entry_coerced rules reads values fields _ coerce found _
          fun entry given named => (admitted.part (.field declared member given named)).nullable
  | .int _, type, _ | .float _, type, _ | .string _, type, _ | .bool _, type, _
  | .enum _, type, _ => by
      rw [Executor.coerceLiteralWith]
      · exact judge.leaf_coerced rules
          (fun name hooks registered => reads.parseLiteral name hooks registered _) _ type
      all_goals intros; contradiction

theorem elements_coerced (rules : InputRules executor permits gone) (reads : judge.Reads executor)
    (values : Object) :
    ∀ (index : Nat) (items : List (Located Literal)) (element : TypeRef),
      (∀ item ∈ items, judge.Admits executor permits gone expand values element item.node) →
      judge.holds (executor.coerceLiteralElements values expand index items element)
        fun items => ∀ item ∈ items, permits element item
  | _, [], element, _ => by
      rw [Executor.coerceLiteralElements]
      exact judge.pure fun _ absent => by cases absent
  | index, ⟨item, _⟩ :: rest, element, admits => by
      have first := literal_coerced rules reads values item element (admits _ List.mem_cons_self)
      have others := elements_coerced rules reads values (index + 1) rest element
        fun item member => admits item (List.mem_cons_of_mem _ member)
      rw [Executor.coerceLiteralElements]
      exact judge.bind (judge.adapt _ first) fun value permitted =>
        judge.bind others fun values all => judge.pure (List.forall_mem_cons.mpr ⟨permitted, all⟩)

theorem entry_coerced (rules : InputRules executor permits gone) (reads : judge.Reads executor)
    (values : Object) :
    ∀ (fields : List (Located String × Located Literal)) (name : String),
      ∀ coerce ∈ executor.coerceLiteralEntry values expand fields name, ∀ type,
        (∀ entry ∈ fields, entry.1.node = name →
          judge.Admits executor permits gone expand values type entry.2.node) →
        judge.holds (coerce type) (permits type)
  | [], _, coerce, found, _, _ => by
      rw [Executor.coerceLiteralEntry] at found
      cases found
  | (key, ⟨value, _⟩) :: rest, name, coerce, found, type, admits => by
      rw [Executor.coerceLiteralEntry] at found
      split at found
      · rename_i named
        cases found
        exact literal_coerced rules reads values value type (admits _ List.mem_cons_self named.symm)
      · exact entry_coerced rules reads values rest name coerce found type
          fun entry member => admits entry (List.mem_cons_of_mem _ member)

end

/-- A value that counts as absent is null, others go by what their elements and fields are. -/
theorem present_coerced (rules : InputRules executor permits gone) {value : Value}
    {elements : Option (TypeRef → Coercion σ (List Value))} {named : String → Coercion σ Value}
    {type : TypeRef}
    (present : judge.holds (InputShape.coerce executor.isNullish ⟨none, elements, named⟩ type)
      (permits type)) :
    judge.holds (InputShape.coerce executor.isNullish
        ⟨if executor.isNullish value then some .null else none, elements, named⟩ type)
      (permits type) := by
  cases executor.isNullish value with
  | true => exact judge.null_coerced rules type
  | false => exact present

mutual

/-- A value from outside is coerced to what is permitted at the type. -/
theorem input_coerced (rules : InputRules executor permits gone) (reads : judge.Reads executor)
    (expands : ∀ name, judge.Expands executor permits gone expand name) :
    ∀ value type, judge.holds (executor.coerceInputWith expand value type) (permits type)
  | .list items, type => by
      rw [Executor.coerceInputWith]
      apply judge.present_coerced rules
      refine judge.shape_coerced rules (fun _ => True) (fun _ _ => trivial) (fun _ _ _ => trivial)
        ?_ ?_ type trivial
      · rintro coerce ⟨⟩ element _
        exact items_coerced rules reads expands 0 items element
      · intro name _
        apply judge.coerce_named_permitted rules _
          (fun hooks registered => reads.parseValue name hooks registered _)
        all_goals
          intro _ _ entries absent
          cases absent
  | .object fields, type => by
      rw [Executor.coerceInputWith]
      apply judge.present_coerced rules
      refine judge.shape_coerced rules (fun _ => True) (fun _ _ => trivial) (fun _ _ _ => trivial)
        ?_ ?_ type trivial
      · intro coerce absent
        cases absent
      · intro name _
        apply judge.coerce_named_permitted rules _
          (fun hooks registered => reads.parseValue name hooks registered _)
          (fun input declared _ _ field member _ => expands name input declared field member)
        rintro input declared entries ⟨⟩ field member coerce found
        exact field_coerced rules reads expands fields _ coerce found _
  | .null, type | .bool _, type | .int _, type | .float _, type | .string _, type
  | .record _ _ _, type => by
      rw [Executor.coerceInputWith]
      · apply judge.present_coerced rules
        exact judge.leaf_coerced rules
          (fun name hooks registered => reads.parseValue name hooks registered _) _ type
      all_goals intros; contradiction

theorem items_coerced (rules : InputRules executor permits gone) (reads : judge.Reads executor)
    (expands : ∀ name, judge.Expands executor permits gone expand name) :
    ∀ (index : Nat) (items : List Value) (element : TypeRef),
      judge.holds (executor.coerceElementsWith expand index items element)
        fun items => ∀ item ∈ items, permits element item
  | _, [], element => by
      rw [Executor.coerceElementsWith]
      exact judge.pure fun _ absent => by cases absent
  | index, item :: rest, element => by
      have first := input_coerced rules reads expands item element
      have others := items_coerced rules reads expands (index + 1) rest element
      rw [Executor.coerceElementsWith]
      exact judge.bind (judge.adapt _ first) fun value permitted =>
        judge.bind others fun values all => judge.pure (List.forall_mem_cons.mpr ⟨permitted, all⟩)

theorem field_coerced (rules : InputRules executor permits gone) (reads : judge.Reads executor)
    (expands : ∀ name, judge.Expands executor permits gone expand name) :
    ∀ (fields : List (String × Value)) (name : String),
      ∀ coerce ∈ executor.coerceEntryWith expand fields name, ∀ type,
        judge.holds (coerce type) (permits type)
  | [], _, coerce, found, _ => by
      rw [Executor.coerceEntryWith] at found
      cases found
  | (key, value) :: rest, name, coerce, found, type => by
      rw [Executor.coerceEntryWith] at found
      split at found
      · cases found
        exact input_coerced rules reads expands value type
      · exact field_coerced rules reads expands rest name coerce found type

end

end Inputs

end Judgement

end GraphQL
