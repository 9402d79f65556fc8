import GraphQL.Proofs.Coverage
import GraphQL.Proofs.Inlining
import GraphQL.Proofs.SchemaRoots
import GraphQL.Proofs.Settling
import GraphQL.Proofs.SpelledTexts

/-!
Execution comes to an end.

Where no fragment reaches itself, every object on the way down takes a field off what is selected, as
it stands once all fragments are written out. Where fragments do reach themselves, nothing is taken
off; but if there are no resolvers for the objects below an object, they are found in its source
value, one inside the other. Either way the objects that are within each other are limited in number,
and larger bounds leave the outcome as it is.

Two kinds of callers are not covered. A default of an input field may call for itself, and a policy
by which null counts as present makes an object of every field that is missing.
-/

namespace GraphQL

variable {σ ε α : Type}

/-- Bounds of an execution: how deep objects nest, and how deep requests do at each of these depths. -/
structure Bounds where
  requests : Nat → Nat
  depth : Nat

namespace Executor

/-- Executes objects that nest up to a depth; the requests they make nest up to others. -/
def runBelow (executor : Executor σ) (requests : Nat → Nat) : Nat → RequestScope → ObjectRunner σ
  | 0, _ => fun _ _ _ _ => unfinished
  | depth + 1, scope =>
      executor.executeObject scope (executor.execute (requests depth))
        (executor.runBelow requests depth scope)

/-- One depth for objects and requests alike. -/
theorem run_below_id (executor : Executor σ) (depth : Nat) :
    executor.runBelow id depth = executor.runWithin depth := by
  induction depth with
  | zero => rfl
  | succ depth ih =>
      funext scope object source path selectionSets
      rw [runBelow, ih]
      rfl

/--
An execution ends, and no larger bounds change its outcome, if objects may nest so many levels and the
requests that are made on these levels may nest deep enough.
-/
def EndsWithin (executor : Executor σ) (levels : Nat)
    (execution : (Request → Action σ RequestError Value) → (RequestScope → ObjectRunner σ) →
      Completion σ α) : Prop :=
  ∀ journal, ∃ floor outcome, ∀ requests depth, levels ≤ depth →
    (∀ left, depth ≤ left + levels → floor ≤ requests left) →
      execution (executor.execute (requests depth)) (executor.runBelow requests depth) journal =
        some outcome

end Executor

/-- Bounds that leave room for so many levels of objects. -/
def objectLevels (levels : Nat) : Growth Bounds where
  beyond floor bounds :=
    levels ≤ bounds.depth ∧
      ∀ left, bounds.depth ≤ left + levels → floor ≤ bounds.requests left
  lower le beyond := ⟨beyond.1, fun left inside => le.trans (beyond.2 left inside)⟩
  unlimited floor := ⟨⟨fun _ => floor, levels⟩, Nat.le_refl levels, fun _ _ => Nat.le_refl floor⟩

theorem Executor.ends_within_of_settles {executor : Executor σ} {levels : Nat}
    {execution : (Request → Action σ RequestError Value) → (RequestScope → ObjectRunner σ) →
      Completion σ α}
    (settles : (objectLevels levels).Settles fun bounds =>
      execution (executor.execute (bounds.requests bounds.depth))
        (executor.runBelow bounds.requests bounds.depth)) :
    executor.EndsWithin levels execution := by
  intro journal
  obtain ⟨floor, outcome, settled⟩ := settles journal
  exact ⟨floor, outcome, fun requests depth deep enough => settled ⟨requests, depth⟩ ⟨deep, enough⟩⟩

/-- From an object to one that a value of a field of its is completed at. -/
structure Executor.Descent (executor : Executor σ) (object : ObjectType) (source : Value)
    (group : FieldGroup) (inner : ObjectType) (part : Value) : Prop where
  typed : ∃ definition, object.selectable? group.first.node.name.node = some definition ∧
    executor.schema.ObjectAt definition.type.node.innermost inner
  found : ∃ value, executor.FieldMayBe object source group.first.node.name.node value ∧
    value.ListPart part
  present : executor.isNullish part = false

/-- Fewer levels are enough for what is executed below an object than for the object. -/
def Executor.Descends (executor : Executor σ) (scope : RequestScope)
    (within : Nat → ObjectType → Value → List (List Selection) → Prop) : Prop :=
  ∀ levels object source sets, within levels object source sets →
    ∀ group ∈ collectFields executor.schema scope object.name.node sets, ∀ inner part,
      executor.Descent object source group inner part →
        ∃ less, levels = less + 1 ∧ within less inner part group.selectionSets

section Levels

variable {executor : Executor σ} (returns : executor.CallbacksReturn)
  (finite : executor.FiniteDefaults) {scope : RequestScope}

/-- What is left for the objects below an object. -/
def Bounds.below (bounds : Bounds) : Bounds := ⟨bounds.requests, bounds.depth - 1⟩

omit returns finite in
theorem Growth.Settles.below {levels : Nat} {action : Bounds → Action σ ε α}
    (settles : (objectLevels levels).Settles action) :
    (objectLevels (levels + 1)).Settles fun bounds => action bounds.below := by
  apply settles.along
  intro floor bounds beyond
  refine ⟨Nat.le_sub_one_of_lt beyond.1, fun left inside => beyond.2 left ?_⟩
  have deep : bounds.depth - 1 ≤ left + levels := inside
  omega

include returns finite

theorem run_below_settles {within : Nat → ObjectType → Value → List (List Selection) → Prop}
    (descends : executor.Descends scope within) {levels : Nat} {object : ObjectType}
    {source : Value} {sets : List (List Selection)} (inside : within levels object source sets)
    (path : FieldPath) :
    (objectLevels (levels + 1)).Settles fun bounds =>
      executor.runBelow bounds.requests bounds.depth scope object source path sets := by
  induction levels using Nat.strong_induction_on generalizing object source sets path with
  | _ levels ih =>
      have enough (floor : Nat) (bounds : Bounds)
          (beyond : (objectLevels (levels + 1)).beyond floor bounds) :
          floor ≤ bounds.requests (bounds.depth - 1) := beyond.2 _ (by omega)
      have executes : (objectLevels (levels + 1)).Settles fun bounds =>
          executor.executeObject scope (executor.execute (bounds.requests (bounds.depth - 1)))
            (executor.runBelow bounds.requests (bounds.depth - 1) scope) object source path sets := by
        refine execute_groups_settles enough returns finite scope object source path _ ?_
        intro group member definition defined value may_be part within' present inner at_type below
        obtain ⟨less, rfl, deeper⟩ := descends _ _ _ _ inside group member _ _
          ⟨⟨definition, defined, at_type⟩, ⟨value, may_be, within'⟩, present⟩
        exact (ih less (Nat.lt_succ_self less) deeper below).below
      refine executes.congr fun bounds beyond => ?_
      obtain ⟨depth, deep⟩ : ∃ depth, bounds.depth = depth + 1 :=
        Nat.exists_eq_add_one.mpr (Nat.lt_of_lt_of_le (Nat.succ_pos levels) beyond.1)
      rw [deep]
      rfl

end Levels

mutual

/-- How many fields selections have within each other; spread fragments are not looked into. -/
def fieldNesting : List Selection → Nat
  | [] => 0
  | selection :: rest => max (fieldNestingOne selection) (fieldNesting rest)

def fieldNestingOne : Selection → Nat
  | .field ⟨⟨_, _, _, _, none⟩, _⟩ => 1
  | .field ⟨⟨_, _, _, _, some selections⟩, _⟩ => fieldNesting selections + 1
  | .spread _ => 0
  | .inline ⟨⟨_, _, selections⟩, _⟩ => fieldNesting selections

end

theorem field_nesting_append (first second : List Selection) :
    fieldNesting (first ++ second) = max (fieldNesting first) (fieldNesting second) := by
  induction first with
  | nil => simp [fieldNesting]
  | cons selection rest ih => rw [List.cons_append, fieldNesting, fieldNesting, ih, max_assoc]

theorem field_nesting_one (selection : Selection) :
    fieldNesting [selection] = fieldNestingOne selection := by
  rw [fieldNesting, fieldNesting, Nat.max_zero]

namespace Document

/-- How many fields selections have within each other once all spreads are written out. -/
def nesting (document : Document) (selections : List Selection) : Nat :=
  fieldNesting (document.inlineSelections selections)

variable {document : Document} (acyclic : document.Acyclic)

include acyclic

theorem nesting_cons (selection : Selection) (rest : List Selection) :
    document.nesting (selection :: rest) =
      max (fieldNesting (inlineOne document document.inlineSelections selection))
        (document.nesting rest) := by
  rw [nesting, nesting, inline_selections_fixed acyclic, inlineWith, field_nesting_append,
    ← inline_selections_fixed acyclic]

theorem nesting_singleton (selection : Selection) :
    document.nesting [selection] =
      fieldNesting (inlineOne document document.inlineSelections selection) := by
  rw [nesting_cons acyclic, nesting, inline_selections_fixed acyclic, inlineWith, fieldNesting,
    Nat.max_zero]

theorem nesting_field (field : Located Field) :
    document.nesting [.field field] =
      ((field.node.selections.map document.nesting).getD 0) + 1 := by
  rw [nesting_singleton acyclic, inline_one_field (inline_selections_fixed acyclic),
    field_nesting_one]
  obtain ⟨⟨aliasName, name, arguments, directives, selections⟩, span⟩ := field
  cases selections <;> rfl

/-- What is met in selections, fragments included, is nested no deeper than they are. -/
theorem nesting_carries (bound : Nat) :
    document.Carries (fun selections => document.nesting selections ≤ bound)
      fun field => ((field.node.selections.map document.nesting).getD 0) + 1 ≤ bound where
  head inside := by
    rw [nesting_cons acyclic] at inside
    rw [nesting_singleton acyclic]
    exact (Nat.le_max_left _ _).trans inside
  tail inside := by
    rw [nesting_cons acyclic] at inside
    exact (Nat.le_max_right _ _).trans inside
  field inside := by
    rwa [nesting_field acyclic] at inside
  inline inside := by
    rename_i fragment
    obtain ⟨⟨condition, directives, selections⟩, span⟩ := fragment
    rwa [nesting_singleton acyclic, inlineOne, field_nesting_one, fieldNestingOne,
      ← inline_selections_fixed acyclic] at inside
  spread inside found := by
    rwa [nesting_singleton acyclic, inlineOne, found, field_nesting_one, inlineSpread,
      fieldNestingOne] at inside

/-- Whatever is selected below the fields of a group is nested less deep than they are. -/
theorem nesting_below {schema : Schema} {values : Object} {objectName : String}
    {sets : List (List Selection)} {bound : Nat}
    (inside : ∀ selections ∈ sets, document.nesting selections ≤ bound) {group : FieldGroup}
    (member : group ∈ collectFields schema ⟨document, values⟩ objectName sets) :
    ∃ less, bound = less + 1 ∧
      ∀ selections ∈ group.selectionSets, document.nesting selections ≤ less := by
  rw [collect_fields_grouped] at member
  have held (field : Located Field) (among : field ∈ group.fields) :
      ((field.node.selections.map document.nesting).getD 0) + 1 ≤ bound :=
    @fields_asked_carried schema ⟨document, values⟩ objectName _ _ (nesting_carries acyclic bound)
      sets inside field (grouped_member_met member among).1
  obtain ⟨less, rfl⟩ : ∃ less, bound = less + 1 := by
    have first := held group.first List.mem_cons_self
    exact ⟨bound - 1, by omega⟩
  refine ⟨less, rfl, fun selections below => ?_⟩
  obtain ⟨field, among, has⟩ := List.mem_filterMap.mp below
  have bounded := held field among
  rw [has] at bounded
  exact Nat.le_of_succ_le_succ bounded

end Document

section Requests

variable {executor : Executor σ} (returns : executor.CallbacksReturn)
  (finite : executor.FiniteDefaults)

include returns finite

/-- Without cycles among fragments, objects nest no deeper than what is selected for them. -/
theorem selections_settle {document : Document} (acyclic : document.Acyclic) (values : Object)
    (object : ObjectType) (source : Value) (path : FieldPath) (selections : List Selection) :
    (objectLevels (document.nesting selections + 1)).Settles fun bounds =>
      executor.runBelow bounds.requests bounds.depth ⟨document, values⟩ object source path
        [selections] := by
  let within (levels : Nat) (_ : ObjectType) (_ : Value) (sets : List (List Selection)) : Prop :=
    ∀ selections ∈ sets, document.nesting selections ≤ levels
  have whole : within (document.nesting selections) object source [selections] := by
    intro other member
    rw [List.mem_singleton.mp member]
  have descends : executor.Descends ⟨document, values⟩ within :=
    fun _ _ _ _ inside _ member _ _ _ => Document.nesting_below acyclic inside member
  exact run_below_settles returns finite descends whole path

theorem coerce_variables_settle {growth : Growth Bounds} (inputs : Object) (place : Position)
    (definitions : List VariableDefinition) :
    growth.Settles fun _ => executor.coerceVariables inputs place definitions := by
  induction definitions with
  | nil => exact .pure []
  | cons definition rest ih =>
      have first := coerce_variable_ends returns.reads finite inputs definition
      refine (Growth.Settles.of_ends first).observe.and_then fun result => ?_
      cases result with
      | error error =>
          have recorded : growth.Settles fun _ => (Completion.record ⟨[], place⟩
              (.ofMessage error.message) : Completion σ Unit) := .of_ends fun _ => rfl
          exact recorded.and_then fun _ => ih
      | ok found =>
          cases found with
          | none => exact ih
          | some value => exact ih.and_then fun others => .pure _

theorem execute_operation_ends {document : Document} (acyclic : document.Acyclic)
    (operation : Located Operation) (root : ObjectType) (inputs : Object) :
    executor.EndsWithin (document.nesting operation.node.selections + 1) fun _ run =>
      executor.executeOperation run document operation root inputs := by
  apply Executor.ends_within_of_settles
  refine (coerce_variables_settle returns finite inputs _ _).and_then fun values => ?_
  have runs := selections_settle returns finite acyclic values root (.object [])
    ⟨[], operation.span.start⟩ operation.node.selections
  exact (runs.and_then fun fields => .pure (Value.object fields)).absorb

end Requests

mutual

/-- How many objects a value has within each other; what records hold is not looked at. -/
def Value.nesting : Value → Nat
  | .list items => Value.nestingItems items
  | .object fields => Value.nestingFields fields + 1
  | _ => 0

def Value.nestingItems : List Value → Nat
  | [] => 0
  | item :: rest => max item.nesting (Value.nestingItems rest)

def Value.nestingFields : List (String × Value) → Nat
  | [] => 0
  | (_, value) :: rest => max value.nesting (Value.nestingFields rest)

end

mutual

/-- No record is in a value. -/
def Value.isPlain : Value → Bool
  | .list items => Value.allPlain items
  | .object fields => Value.fieldsPlain fields
  | .record _ _ _ => false
  | _ => true

def Value.allPlain : List Value → Bool
  | [] => true
  | item :: rest => item.isPlain && Value.allPlain rest

def Value.fieldsPlain : List (String × Value) → Bool
  | [] => true
  | (_, value) :: rest => value.isPlain && Value.fieldsPlain rest

end

namespace Value

theorem item_within {item : Value} {items : List Value} (member : item ∈ items)
    (plain : Value.allPlain items = true) :
    item.isPlain = true ∧ item.nesting ≤ Value.nestingItems items := by
  induction items with
  | nil => cases member
  | cons first rest ih =>
      rw [allPlain, Bool.and_eq_true] at plain
      rw [nestingItems]
      rcases List.mem_cons.mp member with rfl | inside
      · exact ⟨plain.1, Nat.le_max_left _ _⟩
      · obtain ⟨held, bounded⟩ := ih inside plain.2
        exact ⟨held, bounded.trans (Nat.le_max_right _ _)⟩

theorem field_within {name : String} {value : Value} {fields : Object}
    (found : fields.get? name = some value) (plain : Value.fieldsPlain fields = true) :
    value.isPlain = true ∧ value.nesting ≤ Value.nestingFields fields := by
  induction fields with
  | nil => cases found
  | cons first rest ih =>
      obtain ⟨key, held⟩ := first
      rw [fieldsPlain, Bool.and_eq_true] at plain
      rw [nestingFields]
      rw [Object.get?, List.lookup_cons] at found
      split at found
      · cases found
        exact ⟨plain.1, Nat.le_max_left _ _⟩
      · obtain ⟨inside, bounded⟩ := ih found plain.2
        exact ⟨inside, bounded.trans (Nat.le_max_right _ _)⟩

/-- Elements of lists are plain if the lists are, and nest no deeper. -/
theorem ListPart.within {value part : Value} (inside : value.ListPart part)
    (plain : value.isPlain = true) : part.isPlain = true ∧ part.nesting ≤ value.nesting := by
  induction inside with
  | whole => exact ⟨plain, Nat.le_refl _⟩
  | element member _ ih =>
      obtain ⟨held, bounded⟩ := item_within member plain
      obtain ⟨kept, below⟩ := ih held
      exact ⟨kept, below.trans bounded⟩

/-- What a plain value has as a field is plain again and has fewer objects within each other. -/
theorem field_below {source value : Value} {name : String} (plain : source.isPlain = true)
    (found : source.field? name = some value) :
    value.isPlain = true ∧ value.nesting < source.nesting := by
  cases source with
  | object fields =>
      obtain ⟨inside, bounded⟩ := field_within found plain
      exact ⟨inside, Nat.lt_succ_of_le bounded⟩
  | record identity label field => cases plain
  | _ => cases found

end Value

/-- A type that values are executed at, rather than written as they are. -/
def TypeDefinition.isComposite : TypeDefinition → Bool
  | .object _ => true
  | .interface _ => true
  | .union _ => true
  | _ => false

/-- The second object type is one that a field of the first one may lead to. -/
def Schema.LeadsTo (schema : Schema) (outer inner : ObjectType) : Prop :=
  ∃ name definition, outer.selectable? name = some definition ∧
    schema.ObjectAt definition.type.node.innermost inner

/-- No resolver answers for what is executed below an object. -/
def Executor.Unresolved (executor : Executor σ) (object : ObjectType) : Prop :=
  ∀ name definition type, object.selectable? name = some definition →
    executor.schema.type? definition.type.node.innermost = some type → type.isComposite = true →
      executor.resolver? object.name.node name = none

/-- No resolver answers for what is executed below an object and the objects that it leads to. -/
def Executor.UnresolvedBelow (executor : Executor σ) (object : ObjectType) : Prop :=
  ∀ inner, Relation.ReflTransGen executor.schema.LeadsTo object inner → executor.Unresolved inner

theorem Schema.ObjectAt.composite {schema : Schema} {name : String} {object : ObjectType}
    (at_type : schema.ObjectAt name object) :
    ∃ type, schema.type? name = some type ∧ type.isComposite = true := by
  cases at_type with
  | declared found => exact ⟨_, found, rfl⟩
  | possible found abstract =>
      rename_i definition _ _ _
      refine ⟨definition, found, ?_⟩
      cases definition with
      | interface | union => rfl
      | _ => cases abstract

section Sources

variable {executor : Executor σ}

/-- A source value that has so many objects within each other, and is all there is below it. -/
structure Executor.SourceWithin (executor : Executor σ) (levels : Nat) (object : ObjectType)
    (source : Value) : Prop where
  unresolved : executor.UnresolvedBelow object
  plain : source.isPlain = true
  nesting : source.nesting ≤ levels

/-- What is found below an object is taken from its source value, and is smaller. -/
theorem Executor.SourceWithin.below (absent : executor.isNullish .null = true) {levels : Nat}
    {object : ObjectType} {source : Value} (within : executor.SourceWithin levels object source)
    {group : FieldGroup} {inner : ObjectType} {part : Value}
    (descent : executor.Descent object source group inner part) :
    ∃ less, levels = less + 1 ∧ executor.SourceWithin less inner part := by
  obtain ⟨⟨definition, defined, at_type⟩, ⟨value, may_be, inside⟩, present⟩ := descent
  obtain ⟨type, found, composite⟩ := at_type.composite
  have resolved := within.unresolved object .refl _ definition type defined found composite
  have taken := may_be resolved
  cases has : source.field? group.first.node.name.node with
  | none =>
      -- A missing field is null, and null is not executed.
      rw [has, Option.getD_none] at taken
      subst taken
      cases inside
      rw [absent] at present
      cases present
  | some held =>
      rw [has, Option.getD_some] at taken
      subst taken
      obtain ⟨plain, smaller⟩ := Value.field_below within.plain has
      obtain ⟨kept, bounded⟩ := inside.within plain
      have enough := within.nesting
      refine ⟨levels - 1, by omega, fun deeper leads => ?_, kept, by omega⟩
      have step : executor.schema.LeadsTo object inner := ⟨_, definition, defined, at_type⟩
      exact within.unresolved deeper (.head step leads)

/-- If all that is executed below an object is taken from its source, it nests no deeper than that. -/
theorem execute_fields_ends (returns : executor.CallbacksReturn) (finite : executor.FiniteDefaults)
    (absent : executor.isNullish .null = true) (scope : RequestScope) {object : ObjectType}
    {source : Value} (unresolved : executor.UnresolvedBelow object)
    (plain : source.isPlain = true) (path : FieldPath) (groups : List FieldGroup) :
    executor.EndsWithin source.nesting fun execute run =>
      executor.executeGroups scope execute (run scope) object source path groups := by
  apply Executor.ends_within_of_settles
  have enough (floor : Nat) (bounds : Bounds)
      (beyond : (objectLevels source.nesting).beyond floor bounds) :
      floor ≤ bounds.requests bounds.depth := beyond.2 _ (Nat.le_add_right _ _)
  refine execute_groups_settles enough returns finite scope object source path groups ?_
  intro group member definition defined value may_be part inside present inner at_type below
  have whole : executor.SourceWithin source.nesting object source :=
    ⟨unresolved, plain, Nat.le_refl _⟩
  obtain ⟨less, same, smaller⟩ := whole.below absent
    ⟨⟨definition, defined, at_type⟩, ⟨value, may_be, inside⟩, present⟩
  rw [same]
  let within (levels : Nat) (object : ObjectType) (source : Value) (_ : List (List Selection)) : Prop :=
    executor.SourceWithin levels object source
  have descends : executor.Descends scope within :=
    fun _ _ _ _ inside _ _ _ _ descent => Executor.SourceWithin.below absent inside descent
  have start : within less inner part group.selectionSets := smaller
  exact run_below_settles returns finite descends start below

end Sources

/-- Completes a value in a limited number of steps from one type to the type within. -/
def Executor.completeWithin (executor : Executor σ) (run : ObjectRunner σ) (scope : FieldScope) :
    Nat → TypeRef → Value → Completion σ Value
  | 0, _, _ => unfinished
  | steps + 1, type, value =>
      if executor.isNullish value then pure .null
      else
        match type with
        | .named name => executor.completeNamed run scope name value
        | .nonNull inner => scope.required (executor.completeWithin run scope steps inner value)
        | .list element =>
            match value with
            | .list items => do
                let completed ← Completion.overItems
                  (fun item => scope.guarded element
                    (executor.completeWithin run scope steps element item))
                  items
                pure (.list completed)
            | _ => Completion.nullBecause scope.path .notAList

/-- A value is completed in one step for each wrapper of its type and one more. -/
theorem complete_within_wrappers (executor : Executor σ) (run : ObjectRunner σ)
    (scope : FieldScope) {steps : Nat} {type : TypeRef} (enough : type.wrappers < steps)
    (value : Value) :
    executor.completeWithin run scope steps type value =
      executor.completeBare run scope type value := by
  induction type generalizing steps value with
  | named name =>
      obtain ⟨left, rfl⟩ := Nat.exists_eq_add_one.mpr enough
      rw [Executor.completeWithin, Executor.completeBare]
  | nonNull inner ih =>
      obtain ⟨left, rfl⟩ := Nat.exists_eq_add_one.mpr (Nat.zero_lt_of_lt enough)
      rw [Executor.completeWithin, Executor.completeBare]
      simp only [ih (Nat.lt_of_succ_lt_succ enough)]
  | list element ih =>
      obtain ⟨left, rfl⟩ := Nat.exists_eq_add_one.mpr (Nat.zero_lt_of_lt enough)
      have items := ih (Nat.lt_of_succ_lt_succ enough)
      cases value with
      | list values => simp only [Executor.completeWithin, Executor.completeBare, items]
      | _ => rfl

/-- An execution that ends has the same outcome under all larger depths for objects and requests. -/
theorem Executor.EndsWithin.settled {executor : Executor σ} {levels : Nat}
    {execution : (Request → Action σ RequestError Value) → (RequestScope → ObjectRunner σ) →
      Completion σ α}
    (ends : executor.EndsWithin levels execution) (journal : Journal σ) :
    ∃ floor outcome, ∀ depth, floor + levels ≤ depth →
      execution (executor.execute depth) (executor.runWithin depth) journal = some outcome := by
  obtain ⟨floor, outcome, settled⟩ := ends journal
  refine ⟨floor, outcome, fun depth deep => ?_⟩
  have ran := settled id depth (Nat.le_of_add_left_le deep) fun left inside =>
    show floor ≤ left by omega
  rwa [Executor.run_below_id] at ran

/--
Executions end. Without cycles among fragments, an operation is executed with no more objects within
each other than its selections have fields, spreads written out. With any fragments, the fields of
an object are executed with no more objects than its source value has, unless there are resolvers
for what is below it. Both need callbacks that return and defaults that do not call for themselves,
and the second one that null counts as absent. Larger bounds change no outcome; values are completed
in a step for each wrapper of their type, and fields collected no deeper than there are fragments.
-/
theorem executions_end (executor : Executor σ) (returns : executor.CallbacksReturn)
    (finite : executor.FiniteDefaults) :
    (∀ document, document.Acyclic → ∀ operation root inputs,
      executor.EndsWithin (document.nesting operation.node.selections + 1) fun _ run =>
        executor.executeOperation run document operation root inputs) ∧
      (executor.isNullish .null = true → ∀ scope object source,
        executor.UnresolvedBelow object → source.isPlain = true → ∀ path groups,
          executor.EndsWithin source.nesting fun execute run =>
            executor.executeGroups scope execute (run scope) object source path groups) ∧
      (∀ {α : Type} levels (execution : (Request → Action σ RequestError Value) →
          (RequestScope → ObjectRunner σ) → Completion σ α),
        executor.EndsWithin levels execution → ∀ journal, ∃ floor outcome, ∀ depth,
          floor + levels ≤ depth →
            execution (executor.execute depth) (executor.runWithin depth) journal =
              some outcome) ∧
      (∀ run field steps type value, type.wrappers < steps →
        executor.completeWithin run field steps type value =
          executor.completeBare run field type value) ∧
      ∀ scope objectName selectionSets depth, scope.document.fragments.length ≤ depth →
        (selectionSets.foldl (fun collected selections =>
            collectWithin executor.schema scope objectName depth selections collected)
          ⟨[], []⟩).groups =
          collectFields executor.schema scope objectName selectionSets := by
  refine ⟨?_, ?_, ?_, ?_, ?_⟩
  · intro document acyclic operation root inputs
    exact execute_operation_ends returns finite acyclic operation root inputs
  · intro absent scope object source unresolved plain path groups
    exact execute_fields_ends returns finite absent scope unresolved plain path groups
  · intro α levels execution ends journal
    exact ends.settled journal
  · intro run field steps type value enough
    exact complete_within_wrappers executor run field enough value
  · intro scope objectName selectionSets depth enough
    exact collect_fields_stable executor.schema scope objectName enough selectionSets

/-- A resolver that has a value at hand asks for nothing. -/
theorem Resolver.known_value_returns (value : Value) (executor : Executor σ) :
    (Resolver.ofFunction fun _ : FieldContext σ => value).Return executor where
  before _ absent := by cases absent
  resolve _ _ := @Growth.Settles.pure _ _ _ _ requestDepths value
  after _ absent := by cases absent

theorem kennel_callbacks_return : kennel.CallbacksReturn where
  resolvers entry member := by
    rcases List.mem_pair.mp member with rfl | rfl
    · exact Resolver.known_value_returns _ kennel
    · exact Resolver.known_value_returns _ kennel
  scalars _ absent := by cases absent

theorem kennel_finite_defaults : kennel.FiniteDefaults := by
  intro field cycle
  obtain ⟨inner, calls, -⟩ := Relation.TransGen.head'_iff.mp cycle
  obtain ⟨literal, -, name, fields, input, -, declared, -⟩ := calls
  have among := List.mem_of_find?_eq_some declared
  simp [Document.types, kennel, Definition.type?, Located.unplaced] at among

def kennelDog : ObjectType := kennelType "Dog" [("name", .nonNull (.named "String"))]

/-- Dogs have nothing but names. -/
theorem kennel_dog_leads_nowhere (inner : ObjectType) : ¬kennel.schema.LeadsTo kennelDog inner := by
  rintro ⟨name, definition, defined, at_type⟩
  have text : definition.type.node.innermost = "String" := by
    rw [ObjectType.selectable?] at defined
    split at defined
    · cases defined
      rfl
    · obtain ⟨field, found, rfl⟩ := Option.map_eq_some_iff.mp defined
      rw [List.mem_singleton.mp (List.mem_of_find?_eq_some found)]
      rfl
  rw [text] at at_type
  cases at_type with
  | declared found => cases found
  | possible found abstract =>
      cases found
      cases abstract

theorem kennel_dog_unresolved : kennel.UnresolvedBelow kennelDog := by
  intro inner leads
  rcases Relation.ReflTransGen.cases_head leads with rfl | ⟨middle, step, -⟩
  · intro name _ _ _ _ _
    have none_registered : (kennel.resolvers.find? fun entry =>
        entry.fieldName == name && entry.typeName == "Dog") = none := by
      simp [kennel]
    exact congrArg (Option.map ResolverEntry.resolver) none_registered
  · exact absurd step (kennel_dog_leads_nowhere middle)

/-- The kennel is visited on three levels, and a dog needs one, whatever is asked of it. -/
theorem kennel_visit_ends :
    (∃ floor outcome, ∀ depth, floor + 3 ≤ depth →
        kennel.executeOperation (kennel.runWithin depth) kennelFragments kennelVisit kennelRoot []
          ⟨(), []⟩ = some outcome) ∧
      (∀ scope path groups, kennel.EndsWithin 1 fun execute run =>
        kennel.executeGroups scope execute (run scope) kennelDog
          (.object [("name", .string "Rex")]) path groups) ∧
      (∀ run field value, kennel.completeWithin run field 2 (.list (.named "Dog")) value =
        kennel.completeBare run field (.list (.named "Dog")) value) ∧
      (collectWithin kennel.schema ⟨kennelFragments, []⟩ "Kennel" 2 kennelVisit.node.selections
        ⟨[], []⟩).groups =
        collectFields kennel.schema ⟨kennelFragments, []⟩ "Kennel" [kennelVisit.node.selections] := by
  obtain ⟨operations, fields, bounds, wrappers, collecting⟩ :=
    executions_end kennel kennel_callbacks_return kennel_finite_defaults
  have visit := operations kennelFragments kennel_fragments_acyclic kennelVisit kennelRoot []
  refine ⟨bounds 3 _ visit ⟨(), []⟩, ?_, ?_, ?_⟩
  · intro scope path groups
    exact fields rfl scope kennelDog (.object [("name", .string "Rex")]) kennel_dog_unresolved rfl
      path groups
  · intro run field value
    exact wrappers run field 2 _ value (by decide)
  · exact collecting ⟨kennelFragments, []⟩ "Kennel" [kennelVisit.node.selections] 2 (Nat.le_refl 2)

/-! Requests that do not end: a default that calls for itself, and null that counts as present. -/

def endlessSource : String := "input A{a:A={}} type Q{f(x:A={}):Int t:T} type T{t:T}"

/-- The field whose argument has a default that calls for itself. -/
def endlessField : Located Field := .unplaced ⟨none, .unplaced "f", none, none, none⟩

def endlessQuery : Located Operation :=
  kennelTour.map (Operation.selecting [.field endlessField])

def endlessDocument : Document where
  definitions := [.operation endlessQuery]
  span := .unplaced

/-- A field below which a fragment is spread that has this very field. -/
def nestedField : Located Field :=
  .unplaced ⟨none, .unplaced "t", none, none, some [kennelSpread "F"]⟩

def nestedDocument : Document where
  definitions := [kennelFragment "F" "T" [.field nestedField]]
  span := .unplaced

def defaultingExecutor (schema : Schema) : Executor Unit :=
  { kennel with
    schema := schema
    resolvers := [⟨"Q", "f", .ofFunction fun _ => .int 1⟩] }

/-- An executor without resolvers that takes all values for present. -/
def presentExecutor (schema : Schema) : Executor Unit :=
  { kennel with
    schema := schema
    resolvers := []
    isNullish := fun _ => false }

/-- The types of the schema, and what is known of the fields that requests do not get past. -/
structure EndlessFields (schema : Schema) (root object : ObjectType) : Prop where
  root_found : schema.queryType? = some root
  root_named : root.name.node = "Q"
  coerces : ∃ definition, root.selectable? "f" = some definition ∧
    (defaultingExecutor schema).coerceArguments [] endlessField.node definition.arguments () = none
  object_found : schema.type? "T" = some (.object object)
  object_named : object.name.node = "T"
  leads : ∃ definition, object.selectable? "t" = some definition ∧
    definition.type.node = .named "T"

def endlessTypes? (schema : Schema) : Option (ObjectType × ObjectType) :=
  match schema.queryType?, schema.type? "T" with
  | some root, some (.object object) =>
      match root.selectable? "f", object.selectable? "t" with
      | some given, some inner =>
          let coerced := (defaultingExecutor schema).coerceArguments [] endlessField.node
            given.arguments ()
          if root.name.node = "Q" ∧ object.name.node = "T" ∧ inner.type.node = .named "T" ∧
              coerced.isNone then
            some (root, object)
          else none
      | _, _ => none
  | _, _ => none

theorem endless_source_read :
    ((Schema.ofSource endlessSource "Q" none).toOption.bind endlessTypes?).isSome = true := by
  rw [Schema.of_source_spelled endlessSource String.toList_ofList]
  decide +kernel

theorem endless_types_fields {schema : Schema} {root object : ObjectType}
    (found : endlessTypes? schema = some (root, object)) : EndlessFields schema root object := by
  unfold endlessTypes? at found
  split at found
  · rename_i root' object' root_found object_found
    split at found
    · rename_i given inner takes leads
      dsimp only at found
      split at found
      · rename_i facts
        cases found
        exact ⟨root_found, facts.1, ⟨given, takes, Option.isNone_iff_eq_none.mp facts.2.2.2⟩,
          object_found, facts.2.1, ⟨inner, leads, facts.2.2.1⟩⟩
      · cases found
    · cases found
  · cases found

section Endless

variable {schema : Schema} {root object : ObjectType} (fields : EndlessFields schema root object)

include fields

/-- The default of the argument is never done with, so the field is never resolved. -/
theorem endless_query_endless (depth : Nat) :
    (defaultingExecutor schema).executeOperation ((defaultingExecutor schema).runWithin depth)
      endlessDocument endlessQuery root [] ⟨(), []⟩ = none := by
  let executor := defaultingExecutor schema
  let scope : RequestScope := ⟨endlessDocument, []⟩
  have runs : executor.runWithin depth scope root (.object []) ⟨[], endlessQuery.span.start⟩
      [[.field endlessField]] ⟨(), []⟩ = none := by
    cases depth with
    | zero => rfl
    | succ depth =>
        obtain ⟨definition, takes, stuck⟩ := fields.coerces
        have selected : root.selectable? endlessField.node.name.node = some definition := takes
        have registered : executor.resolver? root.name.node endlessField.node.name.node =
            some (.ofFunction fun _ => .int 1) := by
          rw [fields.root_named]
          rfl
        change executor.executeGroups scope (executor.execute depth)
          (executor.runWithin depth scope) root _ _ [⟨"f", endlessField, []⟩] _ = none
        rw [Executor.executeGroups, selected]
        dsimp only
        rw [Action.bind_apply, Executor.executeGroup, Action.bind_apply, Completion.observe_apply,
          Executor.resolveValue, registered]
        dsimp only
        rw [Action.bind_apply, Action.adapt_apply, stuck]
        rfl
  change Executor.rootData (executor.runWithin depth scope) endlessQuery root ⟨(), []⟩ = none
  have selections : endlessQuery.node.selections = [.field endlessField] := rfl
  rw [Executor.rootData, Completion.absorb_apply, Action.bind_apply, selections, runs]
  rfl

/-- Every field is null, and null has the same field again. -/
theorem nested_field_endless (depth : Nat) (source : Value) (missing : source.field? "t" = none)
    (path : FieldPath) (journal : Journal Unit) :
    (presentExecutor schema).executeGroups ⟨nestedDocument, []⟩
      ((presentExecutor schema).execute depth)
      ((presentExecutor schema).runWithin depth ⟨nestedDocument, []⟩) object source path
      [⟨"t", nestedField, []⟩] journal = none := by
  let executor := presentExecutor schema
  let scope : RequestScope := ⟨nestedDocument, []⟩
  have below (path : FieldPath) (journal : Journal Unit) : executor.runWithin depth scope object
      .null path [[kennelSpread "F"]] journal = none := by
    cases depth with
    | zero => rfl
    | succ depth =>
        have collected : collectFields schema scope object.name.node [[kennelSpread "F"]] =
            [⟨"t", nestedField, []⟩] := by
          rw [fields.object_named]
          rfl
        change executor.executeGroups scope (executor.execute depth)
          (executor.runWithin depth scope) object _ _
          (collectFields schema scope object.name.node [[kennelSpread "F"]]) _ = none
        rw [collected]
        exact nested_field_endless depth .null rfl path journal
  obtain ⟨definition, leads, typed⟩ := fields.leads
  have selected : object.selectable? nestedField.node.name.node = some definition := leads
  have taken : executor.resolveValue scope (executor.execute depth) object source nestedField
      definition = pure .null := by
    have asked : nestedField.node.name.node = "t" := rfl
    have unregistered : executor.resolver? object.name.node "t" = none := rfl
    rw [Executor.resolveValue, asked, unregistered, missing]
    rfl
  have declared : executor.schema.type? "T" = some (.object object) := fields.object_found
  let field : FieldScope := ⟨object.name.node, "t",
    ⟨path.keys ++ ["t"], nestedField.node.name.span.start⟩, [[kennelSpread "F"]]⟩
  have completed : executor.complete (executor.runWithin depth scope) field (.named "T") .null
      journal = none := by
    rw [Executor.complete_nullable _ _ _ _ rfl, Completion.absorb_apply,
      Executor.complete_bare_named _ _ _ _ rfl, Executor.completeNamed, declared]
    dsimp only
    rw [Executor.completeObject, Action.bind_apply, below]
    rfl
  have group : executor.executeGroup scope (executor.execute depth)
      (executor.runWithin depth scope) object source path ⟨"t", nestedField, []⟩ definition journal =
        none := by
    rw [Executor.executeGroup, Action.bind_apply, Completion.observe_apply, taken, typed]
    exact completed
  rw [Executor.executeGroups, selected]
  dsimp only
  rw [Action.bind_apply, group]

end Endless

/--
Without the conditions on defaults and null, executions may not end, whatever their bounds: of an
operation without fragments, and of a field below which no resolver is registered.
-/
theorem executions_may_not_end :
    ∃ schema root object, Schema.ofSource endlessSource "Q" none = .ok schema ∧
      schema.queryType? = some root ∧ schema.type? "T" = some (.object object) ∧
      ((defaultingExecutor schema).CallbacksReturn ∧ endlessDocument.Acyclic ∧
        ∀ depth, (defaultingExecutor schema).executeOperation
          ((defaultingExecutor schema).runWithin depth) endlessDocument endlessQuery root []
            ⟨(), []⟩ = none) ∧
      (presentExecutor schema).CallbacksReturn ∧ (presentExecutor schema).UnresolvedBelow object ∧
        ∀ depth path, (presentExecutor schema).executeGroups ⟨nestedDocument, []⟩
          ((presentExecutor schema).execute depth)
          ((presentExecutor schema).runWithin depth ⟨nestedDocument, []⟩) object (.object []) path
          [⟨"t", nestedField, []⟩] ⟨(), []⟩ = none := by
  obtain ⟨schema, ⟨root, object⟩, built, known⟩ := Schema.found_in_source endless_source_read
  have fields := endless_types_fields known
  refine ⟨schema, root, object, built, fields.root_found, fields.object_found,
    ⟨?_, ?_, endless_query_endless fields⟩, ?_, ?_, ?_⟩
  · refine ⟨fun entry member => ?_, fun _ absent => (nomatch absent)⟩
    rw [List.mem_singleton.mp member]
    exact Resolver.known_value_returns _ _
  · intro name cycle
    obtain ⟨other, ⟨fragment, defined, -⟩, -⟩ := Relation.TransGen.head'_iff.mp cycle
    cases defined
  · exact ⟨fun _ absent => (nomatch absent), fun _ absent => (nomatch absent)⟩
  · intro inner _ name definition type _ _ _
    rfl
  · intro depth path
    exact nested_field_endless fields depth (.object []) rfl path ⟨(), []⟩

end GraphQL
