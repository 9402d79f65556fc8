import GraphQL.Proofs.Completion
import GraphQL.Proofs.Derivation
import GraphQL.Proofs.Steady
import GraphQL.Proofs.Tree

/-!
Null propagation in two steps.

First everything that is asked is resolved and completed as if null were allowed everywhere. This
grows a tree, and nothing bubbles or is left out. Then one pass over the tree says what is left of
it. Execution does both at once and gives up early what lies beside a bubble. Where the callbacks
are steady, it ends with the same data.
-/

namespace GraphQL

variable {σ : Type}

/-- How objects are grown. -/
abbrev Grower := ObjectType → Value → List (List Selection) → Option Branches

namespace Executor

/-- What a custom scalar is written as, null where its hook fails. -/
def growScalar (executor : Executor σ) (context : σ) (name : String) (value : Value) :
    Option Tree :=
  match executor.scalar? name with
  | none => some (.leaf value)
  | some hooks => (outcome (hooks.serialize value) context).map fun result => .leaf (orNull result)

/-- The object type at which a value of an abstract type is executed. -/
def objectFor? (executor : Executor σ) (abstractName : String) (value : Value) :
    Option ObjectType :=
  match (executor.resolveType value).filter (· ≠ "") with
  | none => none
  | some objectName =>
      if executor.schema.isPossibleType abstractName objectName then
        executor.schema.document.object? objectName
      else none

def growAbstract (executor : Executor σ) (grow : Grower) (selectionSets : List (List Selection))
    (abstractName : String) (value : Value) : Option Tree :=
  match executor.objectFor? abstractName value with
  | none => some (.leaf .null)
  | some object => (grow object value selectionSets).map .object

/-- Grows a value at a named type. -/
def growNamed (executor : Executor σ) (context : σ) (grow : Grower)
    (selectionSets : List (List Selection)) (name : String) (value : Value) : Option Tree :=
  match executor.schema.type? name with
  | some (.scalar _) =>
      match BuiltinScalar.ofName? name with
      | some scalar => some (.leaf ((scalar.coerce value).getD .null))
      | none => executor.growScalar context name value
  | some (.enum _) => some (.leaf (enumText value))
  | some (.object object) => (grow object value selectionSets).map .object
  | some (.interface interface) =>
      executor.growAbstract grow selectionSets interface.name.node value
  | some (.union union) => executor.growAbstract grow selectionSets union.name.node value
  | some (.inputObject _) => some (.leaf .null)
  | none => some (.leaf .null)

/-- Grows a value at a type that is read as if it were nullable throughout. -/
def growValue (executor : Executor σ) (context : σ) (grow : Grower)
    (selectionSets : List (List Selection)) : TypeRef → Value → Option Tree
  | type, value =>
      if executor.isNullish value then some (.leaf .null)
      else
        match type with
        | .named name => executor.growNamed context grow selectionSets name value
        | .nonNull inner => growValue executor context grow selectionSets inner value
        | .list element =>
            match value with
            | .list items => do
                let trees ← items.mapM (growValue executor context grow selectionSets element)
                pure (.list trees)
            | _ => some (.leaf .null)

/-- Grows groups one after another; fields that are not defined are passed over. -/
def growGroups (executor : Executor σ) (context : σ) (scope : RequestScope)
    (execute : Request → Action σ RequestError Value) (grow : Grower) (object : ObjectType)
    (source : Value) : List FieldGroup → Option Branches
  | [] => some []
  | group :: rest =>
      match object.selectable? group.first.node.name.node with
      | none => growGroups executor context scope execute grow object source rest
      | some definition => do
          let type := definition.type.node
          let resolved ← outcome
            (executor.resolveValue scope execute object source group.first definition) context
          let tree ← executor.growValue context grow group.selectionSets type (orNull resolved)
          let branches ← growGroups executor context scope execute grow object source rest
          pure ((group.key, type, tree) :: branches)

/-- Grows objects that nest up to a depth, asking the callbacks in one context only. -/
def growWithin (executor : Executor σ) (context : σ) : Nat → RequestScope → Grower
  | 0, _, _, _, _ => none
  | depth + 1, scope, object, source, selectionSets =>
      executor.growGroups context scope (executor.execute depth)
        (fun object source selectionSets =>
          growWithin executor context depth scope object source selectionSets)
        object source
        (collectFields executor.schema scope object.name.node selectionSets)

end Executor

/-- A completion ends in one way, wherever it starts. -/
def Answers {σ α : Type} (completion : Completion σ α) (result : Except Bubble α) : Prop :=
  ∀ journal, ∃ later, completion journal = some (result, later)

namespace Answers

variable {ε α β : Type} {completion : Completion σ α} {result : Except Bubble α}

theorem pure (value : α) : Answers (Pure.pure value : Completion σ α) (.ok value) :=
  fun journal => ⟨journal, rfl⟩

theorem record (path : FieldPath) (error : FieldError) :
    Answers (Completion.record path error : Completion σ Unit) (.ok ()) :=
  fun journal => ⟨journal.note path error, rfl⟩

theorem null_because (path : FieldPath) (error : CompletionError) :
    Answers (Completion.nullBecause path error : Completion σ Value) (.ok .null) :=
  fun journal => ⟨_, Completion.null_because_apply path error journal⟩

theorem bind {next : α → Completion σ β} {follow : α → Except Bubble β}
    (first : Answers completion result) (second : ∀ value, Answers (next value) (follow value)) :
    Answers (completion >>= next) (result >>= follow) := by
  intro journal
  obtain ⟨middle, ran⟩ := first journal
  cases result with
  | error _ =>
      refine ⟨middle, ?_⟩
      rw [Action.bind_apply, ran]
      rfl
  | ok value =>
      obtain ⟨later, ended⟩ := second value middle
      refine ⟨later, ?_⟩
      rw [Action.bind_apply, ran]
      exact ended

/-- Where the first part has a value, the second part needs to be known for that value alone. -/
theorem bind_ok {next : α → Completion σ β} {value : α} {ending : Except Bubble β}
    (first : Answers completion (.ok value)) (second : Answers (next value) ending) :
    Answers (completion >>= next) ending := by
  intro journal
  obtain ⟨middle, ran⟩ := first journal
  obtain ⟨later, ended⟩ := second middle
  refine ⟨later, ?_⟩
  rw [Action.bind_apply, ran]
  exact ended

/-- A steady action that was seen to end in one way always does. -/
theorem observe {action : Action σ ε α} (steady : Steady action) {context : σ}
    {ended : Except ε α} (seen : outcome action context = some ended) :
    Answers (Completion.observe action) (.ok ended) := by
  intro journal
  have same := (steady journal.context context).trans seen
  obtain ⟨⟨_, later⟩, ran, rfl⟩ := Option.map_eq_some_iff.mp same
  exact ⟨_, by rw [Completion.observe_apply, ran]; rfl⟩

theorem absorb {completion : Completion σ Value} {result : Except Bubble Value}
    (answers : Answers completion result) :
    Answers (Completion.absorb completion) (.ok (orNull result)) := by
  intro journal
  obtain ⟨later, ran⟩ := answers journal
  exact ⟨later, by rw [Completion.absorb_apply, ran]; rfl⟩

theorem required (field : FieldScope) {completion : Completion σ Value}
    {result : Except Bubble Value} (answers : Answers completion result) :
    Answers (field.required completion) (insist result) := by
  intro journal
  obtain ⟨later, ran⟩ := answers journal
  rw [FieldScope.required_apply, ran]
  cases result with
  | error _ => exact ⟨later, rfl⟩
  | ok value =>
      cases value with
      | null => exact ⟨_, rfl⟩
      | _ => exact ⟨later, rfl⟩

end Answers

namespace Executor

variable {executor : Executor σ} {run : ObjectRunner σ} {grow : Grower} {context : σ}

/-- Objects are executed to what is left of them when they are grown. -/
def Harvests (run : ObjectRunner σ) (grow : Grower) : Prop :=
  ∀ object source path selectionSets branches, grow object source selectionSets = some branches →
    Answers (run object source path selectionSets) (Tree.settleFields branches)

theorem complete_object_answers (harvests : Harvests run grow) {field : FieldScope}
    {object : ObjectType} {value : Value} {tree : Tree} (type : TypeRef)
    (grown : (grow object value field.selectionSets).map Tree.object = some tree) :
    Answers (completeObject run field object value) (tree.contents type) := by
  obtain ⟨branches, reached, rfl⟩ := Option.map_eq_some_iff.mp grown
  have executed := harvests object value field.path field.selectionSets branches reached
  rw [completeObject, Tree.contents]
  apply executed.bind
  intro fields
  exact .pure (Value.object fields)

theorem serialize_scalar_answers (steady : executor.Steadfast) (field : FieldScope) {name : String}
    {value : Value} {tree : Tree} (type : TypeRef)
    (grown : executor.growScalar context name value = some tree) :
    Answers (executor.serializeScalar field name value) (tree.contents type) := by
  rw [growScalar] at grown
  rw [serializeScalar]
  cases hooked : executor.scalar? name with
  | none =>
      simp only [hooked] at grown ⊢
      cases grown
      exact .pure value
  | some hooks =>
      simp only [hooked] at grown ⊢
      obtain ⟨written, seen, rfl⟩ := Option.map_eq_some_iff.mp grown
      have observed := Answers.observe ((steady.hooks hooked).serialize value) seen
      apply observed.bind_ok
      cases written with
      | ok result => exact .pure result
      | error error =>
          apply (Answers.record field.path error).bind_ok
          exact .pure Value.null

theorem complete_abstract_answers (harvests : Harvests run grow) {field : FieldScope}
    {abstractName : String} {value : Value} {tree : Tree} (kind : String) (type : TypeRef)
    (grown : executor.growAbstract grow field.selectionSets abstractName value = some tree) :
    Answers (executor.completeAbstract run field kind abstractName value)
      (tree.contents type) := by
  rw [growAbstract, objectFor?] at grown
  rw [completeAbstract]
  cases named : (executor.resolveType value).filter (· ≠ "") with
  | none =>
      simp only [named] at grown ⊢
      cases grown
      exact .null_because _ _
  | some objectName =>
      simp only [named] at grown ⊢
      by_cases member : executor.schema.isPossibleType abstractName objectName = true
      · rw [if_pos member] at grown ⊢
        cases known : executor.schema.document.object? objectName with
        | none =>
            simp only [known] at grown ⊢
            cases grown
            exact .null_because _ _
        | some object =>
            simp only [known] at grown ⊢
            exact complete_object_answers harvests type grown
      · rw [if_neg member] at grown ⊢
        cases grown
        exact .null_because _ _

theorem complete_named_answers (steady : executor.Steadfast) (harvests : Harvests run grow)
    {field : FieldScope} {name : String} {value : Value} {tree : Tree} (type : TypeRef)
    (grown : executor.growNamed context grow field.selectionSets name value = some tree) :
    Answers (executor.completeNamed run field name value) (tree.contents type) := by
  rw [growNamed] at grown
  rw [completeNamed]
  cases found : executor.schema.type? name with
  | none =>
      simp only [found] at grown ⊢
      cases grown
      exact .null_because _ _
  | some definition =>
      cases definition with
      | scalar definition =>
          simp only [found] at grown ⊢
          cases named : BuiltinScalar.ofName? name with
          | some scalar =>
              simp only [named] at grown ⊢
              cases grown
              exact .pure _
          | none =>
              simp only [named] at grown ⊢
              exact serialize_scalar_answers steady field type grown
      | enum definition =>
          simp only [found] at grown ⊢
          cases grown
          rw [Tree.contents, enumText]
          cases value.toEnumName? with
          | none => exact .pure Value.null
          | some text => exact .pure (Value.string text)
      | object object =>
          simp only [found] at grown ⊢
          exact complete_object_answers harvests type grown
      | interface interface =>
          simp only [found] at grown ⊢
          exact complete_abstract_answers harvests "interface" type grown
      | union union =>
          simp only [found] at grown ⊢
          exact complete_abstract_answers harvests "union" type grown
      | inputObject definition =>
          simp only [found] at grown ⊢
          cases grown
          exact .null_because _ _

/-- The items of a list are completed to what is left of their trees. -/
theorem over_items_answers {field : FieldScope} {element : TypeRef}
    {each : Value → Option Tree}
    (item_answers : ∀ {value tree}, each value = some tree →
      Answers (executor.complete run field element value) (tree.settle element))
    {values : List Value} {trees : List Tree} (grown : values.mapM each = some trees) :
    Answers (Completion.overItems (executor.complete run field element) values)
      (Tree.settleItems element trees) := by
  induction values generalizing trees with
  | nil =>
      rw [List.mapM_nil] at grown
      cases grown
      rw [Tree.settleItems]
      exact .pure []
  | cons value values ih =>
      rw [List.mapM_cons, Option.bind_eq_bind, Option.bind_eq_some_iff] at grown
      obtain ⟨tree, first, rest⟩ := grown
      rw [Option.bind_eq_bind, Option.bind_eq_some_iff] at rest
      obtain ⟨others, tail, same⟩ := rest
      cases same
      rw [Completion.overItems, Tree.settle_items_cons]
      apply (item_answers first).bind
      intro value
      apply (ih tail).bind
      intro values
      exact .pure (value :: values)

section Growing

variable (executor : Executor σ) (context : σ) (grow : Grower)
  (selectionSets : List (List Selection))

theorem grow_nullish (type : TypeRef) {value : Value} (nullish : executor.isNullish value = true) :
    executor.growValue context grow selectionSets type value = some (.leaf .null) := by
  cases type <;> simp [growValue, nullish]

theorem grow_named (name : String) {value : Value} (present : executor.isNullish value = false) :
    executor.growValue context grow selectionSets (.named name) value =
      executor.growNamed context grow selectionSets name value := by
  rw [growValue, if_neg (by simp [present])]

theorem grow_list (element : TypeRef) {items : List Value}
    (present : executor.isNullish (.list items) = false) :
    executor.growValue context grow selectionSets (.list element) (.list items) =
      (items.mapM (executor.growValue context grow selectionSets element)).map .list := by
  rw [growValue, if_neg (by simp [present])]
  cases items.mapM (executor.growValue context grow selectionSets element) <;> rfl

theorem grow_not_list (element : TypeRef) {value : Value}
    (present : executor.isNullish value = false) (mismatch : value.asList? = none) :
    executor.growValue context grow selectionSets (.list element) value = some (.leaf .null) := by
  cases value <;> simp_all [growValue, Value.asList?]

/-- A non-null type is read as the type within. -/
theorem grow_non_null (inner : TypeRef) (value : Value) :
    executor.growValue context grow selectionSets (.nonNull inner) value =
      executor.growValue context grow selectionSets inner value := by
  cases nullish : executor.isNullish value with
  | true =>
      rw [grow_nullish executor context grow selectionSets _ nullish,
        grow_nullish executor context grow selectionSets _ nullish]
  | false => rw [growValue, if_neg (by simp [nullish])]

end Growing

/-- Contents do not depend on whether their type is non-null. -/
theorem contents_non_null (inner : TypeRef) (tree : Tree) :
    tree.contents (.nonNull inner) = tree.contents inner := by
  cases tree <;> rfl

/-- What counts as absent is settled at every type, so only other values need to be looked at. -/
theorem bare_answers_of_present {field : FieldScope} {type : TypeRef} {value : Value} {tree : Tree}
    (grown : executor.growValue context grow field.selectionSets type value = some tree)
    (present : executor.isNullish value = false →
      Answers (executor.completeBare run field type value) (tree.contents type)) :
    Answers (executor.completeBare run field type value) (tree.contents type) := by
  cases nullish : executor.isNullish value with
  | true =>
      rw [grow_nullish executor context grow _ _ nullish] at grown
      cases grown
      rw [complete_bare_nullish executor run field _ nullish, Tree.contents]
      exact .pure Value.null
  | false => exact present nullish

theorem bare_list_answers {field : FieldScope} {element : TypeRef}
    (item_answers : ∀ {value tree},
      executor.growValue context grow field.selectionSets element value = some tree →
        Answers (executor.complete run field element value) (tree.settle element))
    {value : Value} {tree : Tree} (present : executor.isNullish value = false)
    (grown : executor.growValue context grow field.selectionSets (.list element) value =
      some tree) :
    Answers (executor.completeBare run field (.list element) value)
      (tree.contents (.list element)) := by
  cases listed : value.asList? with
  | none =>
      rw [grow_not_list executor context grow _ element present listed] at grown
      cases grown
      rw [complete_bare_not_list executor run field element present listed, Tree.contents]
      exact .null_because _ _
  | some items =>
      obtain rfl : value = .list items := by
        cases value <;> simp_all [Value.asList?]
      rw [grow_list executor context grow _ element present] at grown
      obtain ⟨trees, each, rfl⟩ := Option.map_eq_some_iff.mp grown
      have completed := over_items_answers item_answers each
      rw [complete_bare_list executor run field element present, Tree.contents]
      apply completed.bind
      intro values
      exact .pure (Value.list values)

/-- At a nullable type it is enough to know how a value is completed before nulls are treated. -/
theorem nullable_answers {field : FieldScope} {type : TypeRef} {value : Value} {tree : Tree}
    (optional : type.isNonNull = false)
    (bare : Answers (executor.completeBare run field type value) (tree.contents type)) :
    Answers (executor.complete run field type value) (tree.settle type) ∧
      Answers (field.required (executor.completeBare run field type value))
        (insist (tree.contents type)) := by
  refine ⟨?_, .required field bare⟩
  rw [complete_nullable executor run field value optional, Tree.settle,
    TypeRef.settle_optional optional]
  exact .absorb bare

/--
Completion ends with what is left of the tree. The second half is what a non-null type around this
one needs; there, nulls are treated once however many wrappers follow each other.
-/
theorem complete_answers (steady : executor.Steadfast) (harvests : Harvests run grow)
    (field : FieldScope) (type : TypeRef) {value : Value} {tree : Tree}
    (grown : executor.growValue context grow field.selectionSets type value = some tree) :
    Answers (executor.complete run field type value) (tree.settle type) ∧
      Answers (field.required (executor.completeBare run field type value))
        (insist (tree.contents type)) := by
  induction type generalizing value tree with
  | named name =>
      refine nullable_answers rfl (bare_answers_of_present grown fun present => ?_)
      rw [grow_named executor context grow _ name present] at grown
      rw [complete_bare_named executor run field name present]
      exact complete_named_answers steady harvests _ grown
  | list element ih =>
      refine nullable_answers rfl (bare_answers_of_present grown fun present => ?_)
      exact bare_list_answers (fun grown => (ih grown).1) present grown
  | nonNull inner ih =>
      have within := grown
      rw [grow_non_null] at within
      have insisted := (ih within).2
      have guarded : Answers (executor.complete run field (.nonNull inner) value)
          (tree.settle (.nonNull inner)) := by
        rw [complete_non_null, Tree.settle, TypeRef.settle_required rfl, contents_non_null]
        exact insisted
      refine ⟨guarded, ?_⟩
      rw [contents_non_null]
      cases nullish : executor.isNullish value with
      | true =>
          rw [complete_bare_nullish executor run field _ nullish] at insisted ⊢
          exact insisted
      | false =>
          rw [complete_bare_non_null executor run field inner nullish, complete_non_null,
            FieldScope.required_required]
          exact insisted

/-- The field of a group is completed to what is left of its tree. -/
theorem execute_group_answers (steady : executor.Steadfast) (harvests : Harvests run grow)
    {scope : RequestScope} {depth : Nat} {object : ObjectType} {source : Value}
    {group : FieldGroup} {definition : FieldDefinition} {resolved : Except FieldError Value}
    {tree : Tree} (path : FieldPath)
    (seen : outcome (executor.resolveValue scope (executor.execute depth) object source group.first
      definition) context = some resolved)
    (grown : executor.growValue context grow group.selectionSets definition.type.node
      (orNull resolved) = some tree) :
    Answers (executor.executeGroup scope (executor.execute depth) run object source path group
      definition) (tree.settle definition.type.node) := by
  have settled := resolve_value_steady steady scope depth object source group.first definition
  have completed (field : FieldScope) (same : field.selectionSets = group.selectionSets) :
      Answers (executor.complete run field definition.type.node (orNull resolved))
        (tree.settle definition.type.node) := by
    rw [← same] at grown
    exact (complete_answers steady harvests field definition.type.node grown).1
  rw [executeGroup]
  apply (Answers.observe settled seen).bind_ok
  cases resolved with
  | ok value => exact completed _ rfl
  | error error => exact (Answers.record _ error).bind_ok (completed _ rfl)

theorem execute_groups_answers (steady : executor.Steadfast) (harvests : Harvests run grow)
    {scope : RequestScope} {depth : Nat} {object : ObjectType} {source : Value}
    {groups : List FieldGroup} {branches : Branches} (path : FieldPath)
    (grown : executor.growGroups context scope (executor.execute depth) grow object source groups =
      some branches) :
    Answers (executor.executeGroups scope (executor.execute depth) run object source path groups)
      (Tree.settleFields branches) := by
  induction groups generalizing branches with
  | nil =>
      cases grown
      rw [Tree.settleFields]
      exact .pure []
  | cons group groups ih =>
      rw [growGroups] at grown
      rw [executeGroups]
      cases known : object.selectable? group.first.node.name.node with
      | none =>
          simp only [known] at grown ⊢
          exact ih grown
      | some definition =>
          simp only [known] at grown ⊢
          obtain ⟨resolved, seen, grown⟩ := Option.bind_eq_some_iff.mp grown
          obtain ⟨tree, first, grown⟩ := Option.bind_eq_some_iff.mp grown
          obtain ⟨others, rest, same⟩ := Option.bind_eq_some_iff.mp grown
          cases same
          have executed := execute_group_answers steady harvests path seen first
          rw [Tree.settle_fields_cons]
          apply executed.bind
          intro value
          apply (ih rest).bind
          intro fields
          exact .pure ((group.key, value) :: fields)

/-- Every object is executed to what is left of it when it is grown, whatever the depth. -/
theorem run_within_harvests (executor : Executor σ) (context : σ) (steady : executor.Steadfast)
    (depth : Nat) (scope : RequestScope) :
    Harvests (executor.runWithin depth scope) (executor.growWithin context depth scope) := by
  induction depth with
  | zero =>
      intro object source path selectionSets branches grown
      cases grown
  | succ depth ih =>
      intro object source path selectionSets branches grown
      exact execute_groups_answers steady ih path grown

end Executor

/--
Where the tree of an operation can be grown, the operation ends, and its data is what is left of the
tree: null stands where a bubble stopped, and everything else stays as it was grown.
-/
theorem data_is_left_of_grown_tree (executor : Executor σ) (steady : executor.Steadfast)
    (depth : Nat) (document : Document) (operation : Located Operation) (root : ObjectType)
    (inputs variableValues : Object) (journal coerced : Journal σ)
    (ready : executor.coerceVariables inputs (operationPlace operation)
      ((operation.node.variableDefinitions.map (·.node)).getD []) journal =
        some (.ok variableValues, coerced))
    (context : σ) (branches : Branches)
    (grown : executor.growWithin context depth ⟨document, variableValues⟩ root (.object [])
      [operation.node.selections] = some branches) :
    (∃ later, executor.executeOperation (executor.runWithin depth) document operation root inputs
      journal = some (.ok (dataOf branches), later)) ∧
        Leaves (.named root.name.node) (.object branches) (dataOf branches) := by
  refine ⟨?_, data_of_leaves rfl branches⟩
  have harvests := executor.run_within_harvests context steady depth ⟨document, variableValues⟩
  have root_answers : Answers
      (Executor.rootData (executor.runWithin depth ⟨document, variableValues⟩) operation root)
      (.ok (dataOf branches)) := by
    have executed := harvests root (.object []) ⟨[], operation.span.start⟩
      [operation.node.selections] branches grown
    rw [Executor.rootData]
    apply Answers.absorb
    apply executed.bind
    intro fields
    exact .pure (Value.object fields)
  obtain ⟨later, ended⟩ := root_answers coerced
  refine ⟨later, ?_⟩
  rw [Executor.executeOperation, Action.bind_apply, ready]
  exact ended

theorem kennel_steadfast : kennel.Steadfast where
  resolvers := by
    have function_steady (f : FieldContext Unit → Value) :
        (Resolver.ofFunction f).Steadfast kennel.Asks :=
      { before := fun _ absent => by cases absent
        resolve := fun _ _ => .pure _
        after := fun _ absent => by cases absent }
    intro entry member
    rcases List.mem_cons.mp member with rfl | other
    · exact function_steady _
    · rw [List.mem_singleton.mp other]
      exact function_steady _
  scalars := by
    intro entry member
    cases member

/-- The missing name of one dog rises past the dog and its place in the list to the dogs. -/
theorem nameless_dog_propagates :
    ∃ branches, kennel.growWithin () 2 ⟨kennelDocument, []⟩ kennelRoot (.object [])
        [kennelTour.node.selections] = some branches ∧
      dataOf branches = .object [("name", .string "Elm"), ("dogs", .null)] ∧
      (∃ later, kennel.executeOperation (kennel.runWithin 2) kennelDocument kennelTour kennelRoot []
        ⟨(), []⟩ = some (.ok (dataOf branches), later)) ∧
      Leaves (.named "Kennel") (.object branches) (dataOf branches) :=
  ⟨_, rfl, rfl, data_is_left_of_grown_tree kennel kennel_steadfast 2 kennelDocument kennelTour
    kennelRoot [] [] ⟨(), []⟩ _ rfl () _ rfl⟩

end GraphQL
