import GraphQL.Proofs.ActionLaw
import GraphQL.Proofs.ConstantDefaults

/-!
Literals are coerced as the values that they denote.

Two inputs are coerced alike at a type if they are alike to the wrappers of types, to input objects
and to leaves. A constant literal is alike to its value, unless a custom scalar reads the two by
different callbacks. So is the same literal wherever variables have other values, and the defaults
that fill in for missing fields are constants as well.
-/

namespace GraphQL

variable {σ α : Type}

namespace Object

theorem put_fresh {key : String} {object : Object} (fresh : key ∉ object.keys) (value : Value) :
    object.put key value = object ++ [(key, value)] := by
  induction object with
  | nil => rfl
  | cons field rest ih =>
      simp only [keys, List.map_cons, List.mem_cons, not_or] at fresh
      rw [put, if_neg (Ne.symm fresh.1), ih fresh.2, List.cons_append]

theorem insert_fresh {key : String} {object : Object} (fresh : key ∉ object.keys)
    (value : Value) : insert value key object = object ++ [(key, value)] := by
  have absent : object.get? key = none := by
    rw [get?, List.lookup_eq_none_iff]
    intro field inside
    have differs : key ≠ field.1 := fun same =>
      fresh (same ▸ List.mem_map_of_mem inside)
    simpa using differs
  cases value <;> simp only [insert, absent, put_fresh fresh]

theorem insert_all_fresh {pairs : List (String × Value)} {object : Object}
    (distinct : (object.keys ++ keys pairs).Nodup) :
    insertAll pairs object = object ++ pairs := by
  induction pairs generalizing object with
  | nil => simp [insertAll]
  | cons pair rest ih =>
      obtain ⟨key, value⟩ := pair
      have fresh : key ∉ object.keys := by
        intro inside
        exact (List.nodup_append.mp distinct).2.2 key inside key (by simp [keys]) rfl
      have others : (keys (object ++ [(key, value)]) ++ keys rest).Nodup := by
        simpa [keys] using distinct
      rw [insertAll, insert_fresh fresh, ih others, List.append_assoc, List.singleton_append]

/-- Fields of different names make an object as they stand. -/
theorem of_list_distinct {pairs : List (String × Value)} (distinct : (keys pairs).Nodup) :
    ofList pairs = pairs := by
  rw [ofList, insert_all_fresh (by simpa [keys] using distinct), List.nil_append]

end Object

namespace Literal

theorem keys_to_fields (values : Object) (fields : List (Located String × Located Literal)) :
    Object.keys (toFields values fields) = fields.map (·.1.node) := by
  induction fields with
  | nil => rw [toFields, Object.keys, List.map_nil, List.map_nil]
  | cons field rest ih =>
      obtain ⟨name, value, span⟩ := field
      rw [Object.keys] at ih ⊢
      rw [toFields, List.map_cons, ih, List.map_cons]

mutual

/-- What a constant denotes has nothing to do with variables. -/
theorem Constant.to_value (values other : Object) :
    ∀ {literal : Literal}, literal.Constant → literal.toValue values = literal.toValue other
  | .null, _ | .int _, _ | .float _, _ | .string _, _ | .bool _, _ | .enum _, _ => by
      simp only [toValue]
  | .list items, .list each => by
      rw [toValue, toValue, Constant.to_values values other items each]
  | .object fields, .object _ each => by
      rw [toValue, toValue, Constant.to_fields values other fields each]

theorem Constant.to_values (values other : Object) :
    ∀ (items : List (Located Literal)), (∀ item ∈ items, item.node.Constant) →
      toValues values items = toValues other items
  | [], _ => by rw [toValues, toValues]
  | ⟨item, _⟩ :: rest, each => by
      have first := Constant.to_value values other (each _ List.mem_cons_self)
      have others := Constant.to_values values other rest fun item inside =>
        each item (List.mem_cons_of_mem _ inside)
      rw [toValues, toValues, first, others]

theorem Constant.to_fields (values other : Object) :
    ∀ (fields : List (Located String × Located Literal)),
      (∀ field ∈ fields, field.2.node.Constant) → toFields values fields = toFields other fields
  | [], _ => by rw [toFields, toFields]
  | (name, ⟨value, _⟩) :: rest, each => by
      have first := Constant.to_value values other (each _ List.mem_cons_self)
      have others := Constant.to_fields values other rest fun field inside =>
        each field (List.mem_cons_of_mem _ inside)
      rw [toFields, toFields, first, others]

end

end Literal

/-- Two coercions agree at all types whose innermost one is among the given ones. -/
def SameAmong (among : String → Prop) (left right : TypeRef → Coercion σ α) : Prop :=
  ∀ type, among type.innermost → left type = right type

/-- Two inputs that type wrappers treat alike. -/
structure InputShape.Alike (among : String → Prop) (left right : InputShape σ) : Prop where
  settled : left.settled = right.settled
  elements : Option.Rel (SameAmong among) left.elements right.elements
  named : left.settled = none → ∀ name, among name → left.named name = right.named name

theorem InputShape.Alike.coerce {among : String → Prop} {left right : InputShape σ}
    (alike : left.Alike among right) (isNullish : Value → Bool) :
    SameAmong among (InputShape.coerce isNullish left) (InputShape.coerce isNullish right) := by
  obtain ⟨settled, elements, named⟩ := left
  obtain ⟨settled', elements', named'⟩ := right
  obtain ⟨same, each, leaf⟩ := alike
  obtain rfl : settled = settled' := same
  intro type inside
  induction type with
  | named name =>
      rw [InputShape.coerce, InputShape.coerce]
      cases settled with
      | some value => rfl
      | none => exact leaf rfl name inside
  | list element ih =>
      rw [InputShape.coerce, InputShape.coerce]
      cases settled with
      | some value => rfl
      | none =>
          cases each with
          | none => dsimp only; rw [ih inside]
          | some same => dsimp only; rw [same element inside]
  | nonNull inner ih => rw [InputShape.coerce, InputShape.coerce, ih inside]

/-- Inputs are alike that have a value of their own, whatever their type. -/
theorem InputShape.settled_alike (among : String → Prop) (value : Value)
    (left right : String → Coercion σ Value) :
    InputShape.Alike among ⟨some value, none, left⟩ ⟨some value, none, right⟩ where
  settled := rfl
  elements := .none
  named absent := by cases absent

/-- No scalar among some types, which contain those of their fields, is read by callbacks. -/
structure Executor.PlainAmong (executor : Executor σ) (among : String → Prop) : Prop where
  closed : executor.schema.ClosedUnderFields among
  unhooked : ∀ name, among name → executor.customScalar? name = none

/-- Two ways of expanding defaults agree on all defaults of the input objects among some types. -/
def Executor.DefaultsAgree (executor : Executor σ) (among : String → Prop)
    (expand other : LiteralCoercion σ) : Prop :=
  ∀ name input, among name → executor.schema.type? name = some (.inputObject input) →
    ∀ field ∈ input.fields, ∀ default ∈ field.node.default,
      SameAmong among (expand default.node) (other default.node)

/-- A value, or the default at the nullable type if the value counts as absent. -/
def Executor.orDefault (executor : Executor σ) (expand : LiteralCoercion σ) (type : TypeRef) :
    Option (Located Literal) → Value → Coercion σ Value
  | none, value => pure value
  | some literal, value =>
      if executor.isNullish value then expand literal.node type.nullable else pure value

/-- What is given is coerced first, and then a default may take its place. -/
theorem given_or_default_eq (executor : Executor σ) (expand : LiteralCoercion σ) (type : TypeRef)
    (default : Option (Located Literal)) (given : Option (TypeRef → Coercion σ Value)) :
    executor.givenOrDefault expand type default given =
      given.elim (pure .null) (fun coerce => coerce type.nullable) >>=
        executor.orDefault expand type default := by
  cases given with
  | none | some coerce =>
      rw [Executor.givenOrDefault]
      refine congrArg (_ >>= ·) (funext fun value => ?_)
      cases default <;> cases nullish : executor.isNullish value <;>
        simp [Executor.orDefault, nullish]

/-- A default is not asked for where nothing counts as absent. -/
theorem default_not_needed {executor : Executor σ} {expand : LiteralCoercion σ}
    {action : Coercion σ Value}
    (present : Ensures action fun value => executor.isNullish value = false) (type : TypeRef)
    (default : Option (Located Literal)) :
    action >>= executor.orDefault expand type default = action := by
  funext context
  rw [Action.bind_apply]
  cases ran : action context with
  | none => rfl
  | some outcome =>
      obtain ⟨result, later⟩ := outcome
      cases result with
      | error error => rfl
      | ok value =>
          have somewhere := present.holds context value later ran
          cases default with
          | none => rfl
          | some literal =>
              simp only [Executor.orDefault, somewhere, Bool.false_eq_true, if_false]
              rfl

section Fields

variable {among : String → Prop} {expand other : LiteralCoercion σ}

theorem given_or_default_alike (executor : Executor σ) {type : TypeRef}
    (inside : among type.innermost) {default : Option (Located Literal)}
    (agree : ∀ literal ∈ default, SameAmong among (expand literal.node) (other literal.node))
    {left right : Option (TypeRef → Coercion σ Value)}
    (given : Option.Rel (SameAmong among) left right) :
    executor.givenOrDefault expand type default left =
      executor.givenOrDefault other type default right := by
  have within : among type.nullable.innermost := by rwa [nullable_innermost]
  have filled : executor.orDefault expand type default = executor.orDefault other type default := by
    funext value
    cases default with
    | none => rfl
    | some literal => rw [Executor.orDefault, Executor.orDefault, agree literal rfl _ within]
  rw [given_or_default_eq, given_or_default_eq, filled]
  cases given with
  | none => rfl
  | some same => rw [Option.elim_some, Option.elim_some, same _ within]

theorem coerce_fields_alike (executor : Executor σ)
    {left right : String → Option (TypeRef → Coercion σ Value)}
    (given : ∀ name, Option.Rel (SameAmong among) (left name) (right name))
    (fields : List (Located InputDefinition))
    (inside : ∀ field ∈ fields, among field.node.type.node.innermost)
    (agree : ∀ field ∈ fields, ∀ default ∈ field.node.default,
      SameAmong among (expand default.node) (other default.node)) :
    executor.coerceFields expand left fields = executor.coerceFields other right fields := by
  induction fields with
  | nil => rfl
  | cons field rest ih =>
      have first := given_or_default_alike executor (inside field List.mem_cons_self)
        (agree field List.mem_cons_self) (given field.node.name.node)
      have others := ih (fun other member => inside other (List.mem_cons_of_mem _ member))
        fun other member => agree other (List.mem_cons_of_mem _ member)
      simp only [Executor.coerceFields, Executor.coerceField, first, others]

variable {executor : Executor σ} (plain : executor.PlainAmong among)
  (agree : executor.DefaultsAgree among expand other)

include plain agree

/-- Inputs with the same fields and the same plain value are alike at named types. -/
theorem coerce_named_alike
    {left right : Option (List String × (String → Option (TypeRef → Coercion σ Value)))}
    (fields : Option.Rel (fun left right => left.1 = right.1 ∧
      ∀ name, Option.Rel (SameAmong among) (left.2 name) (right.2 name)) left right)
    (custom custom' : ScalarHooks σ → Action σ FieldError Value) (value : Value) (name : String)
    (inside : among name) :
    executor.coerceNamed expand left custom value name =
      executor.coerceNamed other right custom' value name := by
  rw [Executor.coerceNamed, Executor.coerceNamed]
  split
  · rename_i input declared
    cases fields with
    | none => rfl
    | some same =>
        obtain ⟨names, given⟩ := same
        have each := coerce_fields_alike executor given input.fields
          (plain.closed name input inside declared) (agree name input inside declared)
        dsimp only
        rw [Executor.coerceInputObject, Executor.coerceInputObject, names, each]
  · rename_i scalar declared
    cases builtin : BuiltinScalar.ofName? name with
    | some found => rfl
    | none =>
        have plainly : executor.scalar? name = none := by
          have no_hooks := plain.unhooked name inside
          simpa only [Executor.customScalar?, declared, builtin] using no_hooks
        simp only [plainly]
  · rfl

/-- Inputs with the same elements, the same fields and the same plain value are alike. -/
theorem shape_alike {elements elements' : Option (TypeRef → Coercion σ (List Value))}
    (each : Option.Rel (SameAmong among) elements elements')
    {left right : Option (List String × (String → Option (TypeRef → Coercion σ Value)))}
    (fields : Option.Rel (fun left right => left.1 = right.1 ∧
      ∀ name, Option.Rel (SameAmong among) (left.2 name) (right.2 name)) left right)
    (custom custom' : ScalarHooks σ → Action σ FieldError Value) (value : Value) :
    InputShape.Alike among ⟨none, elements, executor.coerceNamed expand left custom value⟩
      ⟨none, elements', executor.coerceNamed other right custom' value⟩ where
  settled := rfl
  elements := each
  named _ name inside := coerce_named_alike plain agree fields custom custom' value name inside

end Fields

section Literals

variable {among : String → Prop} {expand other : LiteralCoercion σ} {executor : Executor σ}

mutual

/-- A constant literal is coerced as its value is. -/
theorem literal_alike (policy : executor.isNullish = Value.isNull)
    (plain : executor.PlainAmong among) (agree : executor.DefaultsAgree among expand other)
    (values written : Object) : ∀ {literal : Literal}, literal.Constant →
      SameAmong among (executor.coerceLiteralWith values expand literal)
        (executor.coerceInputWith other (literal.toValue written))
  | .null, _ => by
      intro type inside
      rw [Literal.toValue, Executor.coerceLiteralWith, Executor.coerceInputWith, policy]
      · exact (InputShape.settled_alike among .null _ _).coerce _ type inside
      all_goals intros; contradiction
  | .list items, constant => by
      cases constant with
      | list each =>
          have same : (Literal.list items).toValue values =
              .list (Literal.toValues written items) := by
            rw [Literal.toValue, Literal.Constant.to_values values written items each]
          have elements := elements_alike policy plain agree values written 0 items each
          intro type inside
          rw [Literal.toValue, Executor.coerceLiteralWith, Executor.coerceInputWith, policy, same]
          exact (shape_alike plain agree (.some elements) .none _ _ _).coerce _ type inside
  | .object fields, constant => by
      cases constant with
      | object distinct each =>
          have keys := Literal.keys_to_fields written fields
          have kept : Object.ofList (Literal.toFields written fields) =
              Literal.toFields written fields := Object.of_list_distinct (keys ▸ distinct)
          have same : (Literal.object fields).toValue values =
              .object (Literal.toFields written fields) := by
            rw [Literal.toValue, Literal.Constant.to_fields values written fields each, kept]
          have entries := entries_alike policy plain agree values written fields each
          intro type inside
          rw [Literal.toValue, kept, Executor.coerceLiteralWith, Executor.coerceInputWith, policy,
            same]
          exact (shape_alike plain agree .none (.some ⟨keys.symm, entries⟩) _ _ _).coerce _ type
            inside
  | .int _, _ | .float _, _ | .string _, _ | .bool _, _ | .enum _, _ => by
      intro type inside
      rw [Literal.toValue, Executor.coerceLiteralWith, Executor.coerceInputWith, policy]
      · exact (shape_alike plain agree .none .none _ _ _).coerce _ type inside
      all_goals intros; contradiction

theorem elements_alike (policy : executor.isNullish = Value.isNull)
    (plain : executor.PlainAmong among) (agree : executor.DefaultsAgree among expand other)
    (values written : Object) :
    ∀ (index : Nat) (items : List (Located Literal)), (∀ item ∈ items, item.node.Constant) →
      SameAmong among (executor.coerceLiteralElements values expand index items)
        (executor.coerceElementsWith other index (Literal.toValues written items))
  | _, [], _ => by
      intro type _
      rw [Literal.toValues, Executor.coerceLiteralElements, Executor.coerceElementsWith]
  | index, ⟨item, _⟩ :: rest, each => by
      intro type inside
      have first := literal_alike policy plain agree values written
        (each _ List.mem_cons_self) type inside
      have others := elements_alike policy plain agree values written (index + 1) rest
        (fun item member => each item (List.mem_cons_of_mem _ member)) type inside
      rw [Literal.toValues, Executor.coerceLiteralElements, Executor.coerceElementsWith, first,
        others]

theorem entries_alike (policy : executor.isNullish = Value.isNull)
    (plain : executor.PlainAmong among) (agree : executor.DefaultsAgree among expand other)
    (values written : Object) :
    ∀ (fields : List (Located String × Located Literal)),
      (∀ field ∈ fields, field.2.node.Constant) →
      ∀ name, Option.Rel (SameAmong among)
        (executor.coerceLiteralEntry values expand fields name)
        (executor.coerceEntryWith other (Literal.toFields written fields) name)
  | [], _, name => by
      rw [Literal.toFields, Executor.coerceLiteralEntry, Executor.coerceEntryWith]
      exact .none
  | (key, ⟨value, _⟩) :: rest, each, name => by
      rw [Literal.toFields, Executor.coerceLiteralEntry, Executor.coerceEntryWith]
      split
      · exact .some (literal_alike policy plain agree values written (each _ List.mem_cons_self))
      · exact entries_alike policy plain agree values written rest
          (fun field member => each field (List.mem_cons_of_mem _ member)) name

end

variable (policy : executor.isNullish = Value.isNull)
  (constants : executor.schema.ConstantDefaults) (plain : executor.PlainAmong among)

include policy plain

/-- Variables do not matter to a constant. -/
theorem constant_literal_alike (agree : executor.DefaultsAgree among expand other)
    (values values' : Object) {literal : Literal} (constant : literal.Constant) :
    SameAmong among (executor.coerceLiteralWith values expand literal)
      (executor.coerceLiteralWith values' other literal) := by
  have unchanged : executor.DefaultsAgree among other other := fun _ _ _ _ _ _ _ _ _ _ => rfl
  intro type inside
  have left := literal_alike policy plain agree values [] constant type inside
  have right := literal_alike policy plain unchanged values' [] constant type inside
  exact left.trans right.symm

include constants

theorem expand_default_alike (values values' : Object) (depth : Nat) {literal : Literal}
    (constant : literal.Constant) :
    SameAmong among (executor.expandDefault values depth literal)
      (executor.expandDefault values' depth literal) := by
  induction depth generalizing literal with
  | zero => exact fun _ _ => rfl
  | succ depth ih =>
      have agree : executor.DefaultsAgree among (executor.expandDefault values depth)
          (executor.expandDefault values' depth) := fun name input _ declared field member
        default given => ih (constants.inputs name input declared field member default given)
      exact constant_literal_alike policy plain agree values values' constant

theorem defaults_agree (values values' : Object) (depth : Nat) :
    executor.DefaultsAgree among (executor.expandDefault values depth)
      (executor.expandDefault values' depth) :=
  fun name input _ declared field member default given =>
    expand_default_alike policy constants plain values values' depth
      (constants.inputs name input declared field member default given)

theorem coerce_literal_alike (values values' : Object) {literal : Literal}
    (constant : literal.Constant) :
    SameAmong among (executor.coerceLiteral values literal)
      (executor.coerceLiteral values' literal) :=
  expand_default_alike policy constants plain values values' _ constant

theorem coerce_literal_as_value (values values' written : Object) {literal : Literal}
    (constant : literal.Constant) :
    SameAmong among (executor.coerceLiteral values literal)
      (executor.coerceInput values' (literal.toValue written)) :=
  literal_alike policy plain
    (defaults_agree policy constants plain values values' executor.schema.defaultCount)
    values written constant

end Literals

end GraphQL
