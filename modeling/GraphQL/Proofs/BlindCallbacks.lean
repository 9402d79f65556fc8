import GraphQL.Execution.Response
import GraphQL.Proofs.AlikeDefinitions
import Mathlib.Data.List.Basic

/-!
What executors do with a request when callbacks do not look at places.

Literals denote the same values without their places, and become the same inputs, if the hooks of
custom scalars do not look at places. Fields are collected alike with and without places.
-/

namespace GraphQL

variable {σ : Type} {view : Option String → Option String}

mutual

theorem literal_placeless_twice : (literal : Literal) →
    literal.placeless.placeless = literal.placeless
  | .null => by simp [Literal.placeless]
  | .int _ => by simp [Literal.placeless]
  | .float _ => by simp [Literal.placeless]
  | .string _ => by simp [Literal.placeless]
  | .bool _ => by simp [Literal.placeless]
  | .enum _ => by simp [Literal.placeless]
  | .variable _ => by simp [Literal.placeless]
  | .list items => by simp [Literal.placeless, items_placeless_twice items]
  | .object fields => by simp [Literal.placeless, fields_placeless_twice fields]

theorem items_placeless_twice : (items : List (Located Literal)) →
    placelessItems (placelessItems items) = placelessItems items
  | [] => rfl
  | ⟨item, _⟩ :: rest => by
      simp [placelessItems, Located.unplaced, literal_placeless_twice item,
        items_placeless_twice rest]

theorem fields_placeless_twice : (fields : List (Located String × Located Literal)) →
    placelessFields (placelessFields fields) = placelessFields fields
  | [] => rfl
  | (name, ⟨value, _⟩) :: rest => by
      simp [placelessFields, Located.unplaced, Located.placeless, literal_placeless_twice value,
        fields_placeless_twice rest]

end

/-- A field without places. -/
def Field.placeless (field : Field) : Field where
  aliasName := field.aliasName.map Located.bareName
  name := field.name.bareName
  arguments := placelessArguments field.arguments
  directives := field.directives.placeless
  selections := field.selections.map placelessSelections

theorem selection_field_placeless (field : Located Field) :
    (Selection.field field).placeless = .field (field.placeless Field.placeless) := by
  obtain ⟨⟨_, _, _, _, selections⟩, _⟩ := field
  cases selections <;> simp [Selection.placeless, Located.placeless, Field.placeless]

/-- What a resolver gets to see, without places. -/
def FieldContext.seen (view : Option String → Option String) (context : FieldContext σ) :
    FieldContext σ :=
  { context with
    document := context.document.seen view
    field := context.field.placeless Field.placeless }

/-- A resolver that does not look at places. -/
structure Resolver.Blind (view : Option String → Option String) (resolver : Resolver σ) : Prop where
  before : ∀ hook ∈ resolver.before, ∀ left right : FieldContext σ,
    left.seen view = right.seen view → hook left = hook right
  resolve : ∀ left right : FieldContext σ, left.seen view = right.seen view →
    resolver.resolve left = resolver.resolve right
  after : ∀ hook ∈ resolver.after, ∀ left right : FieldContext σ,
    left.seen view = right.seen view → hook left = hook right

/-- A custom scalar that reads literals without looking at places. -/
def ScalarHooks.Blind (hooks : ScalarHooks σ) : Prop :=
  ∀ left right : Literal, left.placeless = right.placeless →
    hooks.parseLiteral left = hooks.parseLiteral right

/-- No callback looks at places; of descriptions in a request callbacks see what `view` shows. -/
structure Executor.Blind (view : Option String → Option String) (executor : Executor σ) : Prop where
  resolvers : ∀ entry ∈ executor.resolvers, entry.resolver.Blind view
  scalars : ∀ entry ∈ executor.scalars, entry.2.Blind

section Literals

variable (values : Object)

mutual

theorem to_value_placeless : (literal : Literal) →
    literal.placeless.toValue values = literal.toValue values
  | .null => by simp [Literal.placeless]
  | .int _ => by simp [Literal.placeless]
  | .float _ => by simp [Literal.placeless]
  | .string _ => by simp [Literal.placeless]
  | .bool _ => by simp [Literal.placeless]
  | .enum _ => by simp [Literal.placeless]
  | .variable _ => by simp [Literal.placeless]
  | .list items => by simp [Literal.placeless, Literal.toValue, to_values_placeless items]
  | .object fields => by simp [Literal.placeless, Literal.toValue, to_fields_placeless fields]

theorem to_values_placeless : (items : List (Located Literal)) →
    Literal.toValues values (placelessItems items) = Literal.toValues values items
  | [] => rfl
  | ⟨item, _⟩ :: rest => by
      simp [placelessItems, Located.unplaced, Literal.toValues, to_value_placeless item,
        to_values_placeless rest]

theorem to_fields_placeless : (fields : List (Located String × Located Literal)) →
    Literal.toFields values (placelessFields fields) = Literal.toFields values fields
  | [] => rfl
  | (name, ⟨value, _⟩) :: rest => by
      simp [placelessFields, Located.unplaced, Located.placeless, Literal.toFields,
        to_value_placeless value, to_fields_placeless rest]

end

variable {executor : Executor σ} (expand : LiteralCoercion σ)

/-- Only the hooks that the executor has matter. -/
theorem coerce_named_hooks
    (fields : Option (List String × (String → Option (TypeRef → Coercion σ Value))))
    {custom other : ScalarHooks σ → Action σ FieldError Value}
    (same : ∀ name hooks, executor.scalar? name = some hooks → custom hooks = other hooks)
    (plain : Value) :
    executor.coerceNamed expand fields custom plain =
      executor.coerceNamed expand fields other plain := by
  funext name
  unfold Executor.coerceNamed
  cases executor.schema.type? name with
  | none => rfl
  | some definition =>
      cases definition with
      | scalar scalar =>
          dsimp only
          cases BuiltinScalar.ofName? name with
          | some builtin => rfl
          | none =>
              cases found : executor.scalar? name with
              | none => rfl
              | some hooks =>
                  dsimp only
                  rw [same name hooks found]
      | _ => rfl

/-- A hook of the executor reads a literal alike without its places. -/
theorem parse_literal_placeless (blind : executor.Blind view) (literal : Literal) (name : String)
    (hooks : ScalarHooks σ) (found : executor.scalar? name = some hooks) :
    hooks.parseLiteral literal.placeless = hooks.parseLiteral literal := by
  obtain ⟨before, after, same, -⟩ := List.lookup_eq_some_iff.mp found
  refine blind.scalars (name, hooks) ?_ _ _ (literal_placeless_twice literal)
  simp [same]

mutual

theorem coerce_literal_with_placeless (blind : executor.Blind view) : (literal : Literal) →
    executor.coerceLiteralWith values expand literal.placeless =
      executor.coerceLiteralWith values expand literal
  | .null => by simp [Literal.placeless]
  | .int _ => by simp [Literal.placeless]
  | .float _ => by simp [Literal.placeless]
  | .string _ => by simp [Literal.placeless]
  | .bool _ => by simp [Literal.placeless]
  | .enum _ => by simp [Literal.placeless]
  | .variable _ => by simp [Literal.placeless]
  | .list items => by
      have value := to_value_placeless values (.list items)
      have read := parse_literal_placeless blind (.list items)
      have elements := coerce_elements_placeless blind items 0
      rw [Literal.placeless] at value read ⊢
      funext type
      rw [Executor.coerceLiteralWith, Executor.coerceLiteralWith, value, elements,
        coerce_named_hooks expand none read]
  | .object fields => by
      have value := to_value_placeless values (.object fields)
      have read := parse_literal_placeless blind (.object fields)
      have entries := coerce_entry_placeless blind fields
      have names : (placelessFields fields).map (fun field => field.1.node) =
          fields.map fun field => field.1.node := by
        rw [placeless_fields, List.map_map]
        rfl
      rw [Literal.placeless] at value read ⊢
      funext type
      rw [Executor.coerceLiteralWith, Executor.coerceLiteralWith, value, entries, names,
        coerce_named_hooks expand _ read]

theorem coerce_elements_placeless (blind : executor.Blind view) :
    (items : List (Located Literal)) → (index : Nat) →
    executor.coerceLiteralElements values expand index (placelessItems items) =
      executor.coerceLiteralElements values expand index items
  | [], _ => rfl
  | ⟨item, _⟩ :: rest, index => by
      funext type
      rw [placelessItems, Located.unplaced, Executor.coerceLiteralElements,
        Executor.coerceLiteralElements, coerce_literal_with_placeless blind item,
        coerce_elements_placeless blind rest (index + 1)]

theorem coerce_entry_placeless (blind : executor.Blind view) :
    (fields : List (Located String × Located Literal)) →
    executor.coerceLiteralEntry values expand (placelessFields fields) =
      executor.coerceLiteralEntry values expand fields
  | [] => rfl
  | (name, ⟨value, _⟩) :: rest => by
      funext key
      rw [placelessFields, Located.unplaced, Executor.coerceLiteralEntry,
        Executor.coerceLiteralEntry, coerce_literal_with_placeless blind value,
        coerce_entry_placeless blind rest]
      rfl

end

end Literals

section Collection

/-- The fragments of a request without places. -/
theorem fragments_seen (document : Document) :
    (document.seen view).fragments =
      document.fragments.map (Located.placeless Fragment.placeless) := by
  rw [Document.fragments, Document.seen, List.filterMap_map, Document.fragments,
    List.map_filterMap]
  refine List.filterMap_congr fun definition _ => ?_
  cases definition <;> rfl

theorem fragment_seen (document : Document) (name : String) :
    (document.seen view).fragment? name =
      (document.fragment? name).map (Located.placeless Fragment.placeless) := by
  rw [Document.fragment?, fragments_seen, List.find?_map]
  rfl

/-- A scope without places. -/
def RequestScope.seen (view : Option String → Option String) (scope : RequestScope) :
    RequestScope :=
  { scope with document := scope.document.seen view }

theorem admits_placeless (scope : RequestScope) (directive : Directive) :
    (scope.seen view).admits directive.placeless = scope.admits directive := by
  have condition : (scope.seen view).condition? directive.placeless =
      scope.condition? directive := by
    rw [RequestScope.condition?, directive_argument_placeless, RequestScope.condition?]
    cases directive.argument? "if" with
    | none => rfl
    | some literal => exact congrArg Value.toBool? (to_value_placeless _ literal.node)
  rw [RequestScope.admits, condition, RequestScope.admits]
  rfl

theorem includes_placeless (scope : RequestScope) (directives : Directives) :
    (scope.seen view).includes directives.placeless = scope.includes directives := by
  cases directives with
  | none => rfl
  | some marks =>
      rw [RequestScope.includes, Directives.placeless, Option.map_some, Option.getD_some,
        List.all_map]
      simp only [RequestScope.includes, Option.getD_some, Function.comp_def, Located.placeless,
        Located.unplaced, admits_placeless]

/-- A group of fields without places. -/
def FieldGroup.placeless (group : FieldGroup) : FieldGroup where
  key := group.key
  first := group.first.placeless Field.placeless
  others := group.others.map (Located.placeless Field.placeless)

theorem response_key_placeless (field : Field) :
    field.placeless.responseKey = field.responseKey := by
  rw [Field.responseKey, Field.responseKey, Field.placeless]
  cases field.aliasName <;> rfl

theorem add_to_groups_placeless (field : Located Field) (groups : List FieldGroup) :
    addToGroups (field.placeless Field.placeless) (groups.map FieldGroup.placeless) =
      (addToGroups field groups).map FieldGroup.placeless := by
  have key : (field.placeless Field.placeless).node.responseKey = field.node.responseKey :=
    response_key_placeless field.node
  induction groups with
  | nil => simp [addToGroups, key, FieldGroup.placeless]
  | cons group rest ih =>
      rw [List.map_cons, addToGroups, addToGroups, key, ih]
      change (if group.key = field.node.responseKey then _ else _) = _
      split
      · simp [FieldGroup.placeless]
      · rfl

/-- What was collected, without places. -/
def Collected.placeless (collected : Collected) : Collected where
  visited := collected.visited
  groups := collected.groups.map FieldGroup.placeless

variable (schema : Schema) (scope : RequestScope) (objectName : String)

section Expansion

variable {expand other : List Selection → Collected → Collected}

theorem spread_into_placeless
    (expands : ∀ selections collected,
      other (placelessSelections selections) collected.placeless =
        (expand selections collected).placeless)
    (spread : FragmentSpread) (collected : Collected) :
    spreadInto schema (scope.seen view) objectName other
        ⟨spread.name.bareName, spread.directives.placeless⟩ collected.placeless =
      (spreadInto schema scope objectName expand spread collected).placeless := by
  have found : (scope.seen view).document.fragment? spread.name.bareName.node =
      (scope.document.fragment? spread.name.node).map (Located.placeless Fragment.placeless) :=
    fragment_seen scope.document spread.name.node
  rw [spreadInto, spreadInto, includes_placeless, found]
  change (if !scope.includes spread.directives ||
    decide (spread.name.node ∈ collected.visited) then _ else _) = _
  split
  · rfl
  · cases scope.document.fragment? spread.name.node with
    | none => rfl
    | some fragment =>
        dsimp only [Option.map_some, Located.placeless, Located.unplaced, Fragment.placeless]
        rw [includes_placeless]
        change (if scope.includes fragment.node.directives &&
          schema.applies objectName fragment.node.typeCondition.node then _ else _) = _
        split
        · exact expands fragment.node.selections ⟨_, collected.groups⟩
        · rfl

mutual

theorem collect_with_placeless
    (expands : ∀ selections collected,
      other (placelessSelections selections) collected.placeless =
        (expand selections collected).placeless) :
    (selections : List Selection) → (collected : Collected) →
    collectWith schema (scope.seen view) objectName other (placelessSelections selections)
        collected.placeless =
      (collectWith schema scope objectName expand selections collected).placeless
  | [], _ => by simp [placelessSelections, collectWith]
  | selection :: rest, collected => by
      rw [placelessSelections, collectWith, collectWith,
        collect_one_placeless expands selection collected, collect_with_placeless expands rest]

theorem collect_one_placeless
    (expands : ∀ selections collected,
      other (placelessSelections selections) collected.placeless =
        (expand selections collected).placeless) :
    (selection : Selection) → (collected : Collected) →
    collectOne schema (scope.seen view) objectName other selection.placeless collected.placeless =
      (collectOne schema scope objectName expand selection collected).placeless
  | .field field, collected => by
      rw [selection_field_placeless, collectOne, collectOne]
      change (if (scope.seen view).includes field.node.directives.placeless then _ else _) = _
      rw [includes_placeless]
      split
      · exact congrArg (Collected.mk _) (add_to_groups_placeless field collected.groups)
      · rfl
  | .spread ⟨⟨name, directives⟩, _⟩, collected => by
      rw [Selection.placeless, collectOne, collectOne]
      exact spread_into_placeless schema scope objectName expands ⟨name, directives⟩ collected
  | .inline ⟨⟨condition, directives, selections⟩, _⟩, collected => by
      rw [Selection.placeless, Located.unplaced, collectOne, collectOne, includes_placeless,
        collect_with_placeless expands selections collected]
      have applies : conditionApplies schema objectName (condition.map Located.bareName) =
          conditionApplies schema objectName condition := by cases condition <;> rfl
      rw [applies]
      split <;> rfl

end

end Expansion

theorem collect_within_placeless (depth : Nat) (selections : List Selection)
    (collected : Collected) :
    collectWithin schema (scope.seen view) objectName depth (placelessSelections selections)
        collected.placeless =
      (collectWithin schema scope objectName depth selections collected).placeless := by
  induction depth generalizing selections collected with
  | zero => exact collect_with_placeless schema scope objectName (fun _ _ => rfl) _ _
  | succ depth ih => exact collect_with_placeless schema scope objectName ih _ _

/-- Without places the same fields are collected, without places. -/
theorem collect_fields_placeless (sets : List (List Selection)) :
    collectFields schema (scope.seen view) objectName (sets.map placelessSelections) =
      (collectFields schema scope objectName sets).map FieldGroup.placeless := by
  have depth : (scope.seen view).document.fragments.length = scope.document.fragments.length := by
    rw [RequestScope.seen, fragments_seen, List.length_map]
  have folded (collected : Collected) :
      (sets.map placelessSelections).foldl
          (fun collected selections => collectWithin schema (scope.seen view) objectName
            scope.document.fragments.length selections collected) collected.placeless =
        (sets.foldl (fun collected selections => collectWithin schema scope objectName
          scope.document.fragments.length selections collected) collected).placeless := by
    induction sets generalizing collected with
    | nil => rfl
    | cons set rest ih =>
        rw [List.map_cons, List.foldl_cons, List.foldl_cons, collect_within_placeless, ih]
  rw [collectFields, depth, collectFields]
  exact congrArg Collected.groups (folded ⟨[], []⟩)

end Collection

end GraphQL
