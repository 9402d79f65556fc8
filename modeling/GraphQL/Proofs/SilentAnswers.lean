import GraphQL.Proofs.Collection
import GraphQL.Proofs.Completion
import GraphQL.Proofs.RequestLayout

/-!
Selections that are answered without errors.

A selection is answered silently if it comes to a value and does nothing else: no error is recorded
and the context stays as it is. There is one rule for each kind of type, one for objects and one for
their fields. Places play no part in them, so what is selected is given without its places.
-/

namespace GraphQL

variable {σ : Type} {view : Option String → Option String}

namespace Executor

section Judgements

variable (executor : Executor σ) (scope : RequestScope)

/-- At any field with these selection sets the value is shown as this answer. -/
def Shows (depth : Nat) (type : TypeRef) (value : Value) (sets : List (List Selection))
    (answer : Value) : Prop :=
  ∀ field : FieldScope, field.selectionSets.map placelessSelections = sets →
    executor.complete (executor.runWithin depth scope) field type value = pure answer

/-- At any path the selection sets are answered on the object by these fields. -/
def AnswersBy (depth : Nat) (object : ObjectType) (source : Value) (sets : List (List Selection))
    (answer : Object) : Prop :=
  ∀ (path : FieldPath) (selected : List (List Selection)),
    selected.map placelessSelections = sets →
      executor.runWithin depth scope object source path selected = pure answer

/-- Whatever else a resolver gets to see, the field has this value before it is completed. -/
def ResolvesTo (object : ObjectType) (source : Value) (field : Field) (definition : FieldDefinition)
    (value : Value) : Prop :=
  ∀ execute (located : Located Field), located.node.placeless = field →
    executor.resolveValue scope execute object source located definition = pure value

/-- The fields of a group are resolved to a value, and that is shown as this answer. -/
structure Gives (depth : Nat) (object : ObjectType) (source : Value) (group : FieldGroup)
    (answer : Value) : Prop where
  given : ∃ definition value, object.selectable? group.first.node.name.node = some definition ∧
    executor.ResolvesTo scope object source group.first.node definition value ∧
    executor.Shows scope depth definition.type.node value group.selectionSets answer

end Judgements

variable {executor : Executor σ} {scope : RequestScope} {depth : Nat}
  {sets : List (List Selection)} {value answer : Value}

namespace Shows

theorem null {type : TypeRef} (optional : type.isNonNull = false)
    (nullish : executor.isNullish .null = true) :
    executor.Shows scope depth type .null sets .null := by
  intro field _
  rw [complete_nullable _ _ _ _ optional, complete_bare_nullish _ _ _ _ nullish]
  rfl

/-- What is completed at a name does not fail, so there is nothing to absorb. -/
theorem named {name : String} (present : executor.isNullish value = false)
    (completed : ∀ field : FieldScope, field.selectionSets.map placelessSelections = sets →
      executor.completeNamed (executor.runWithin depth scope) field name value = pure answer) :
    executor.Shows scope depth (.named name) value sets answer := by
  intro field same
  rw [complete_nullable _ _ _ _ rfl, complete_bare_named _ _ _ _ present, completed field same]
  rfl

theorem scalar {scalar : BuiltinScalar} {definition : ScalarType}
    (found : executor.schema.type? scalar.name = some (.scalar definition))
    (present : executor.isNullish value = false) (coerced : scalar.coerce value = some answer) :
    executor.Shows scope depth (.named scalar.name) value sets answer := by
  have known : BuiltinScalar.ofName? scalar.name = some scalar := by cases scalar <;> decide
  refine named present fun field _ => ?_
  rw [completeNamed, found]
  simp only [known, coerced, Option.getD_some]

theorem enum {name text : String} {definition : EnumType}
    (found : executor.schema.type? name = some (.enum definition))
    (present : executor.isNullish (.string text) = false) :
    executor.Shows scope depth (.named name) (.string text) sets (.string text) := by
  refine named present fun field _ => ?_
  rw [completeNamed, found]
  rfl

theorem object {name : String} {object : ObjectType} {fields : Object}
    (found : executor.schema.type? name = some (.object object))
    (present : executor.isNullish value = false)
    (answers : executor.AnswersBy scope depth object value sets fields) :
    executor.Shows scope depth (.named name) value sets (.object fields) := by
  refine named present fun field same => ?_
  rw [completeNamed, found]
  simp only [completeObject, answers field.path field.selectionSets same, pure_bind]

theorem list {element : TypeRef} {items answers : List Value}
    (present : executor.isNullish (.list items) = false)
    (each : List.Forall₂
      (fun item answer => executor.Shows scope depth element item sets answer) items answers) :
    executor.Shows scope depth (.list element) (.list items) sets (.list answers) := by
  intro field same
  have items_filled : Completion.overItems
      (executor.complete (executor.runWithin depth scope) field element) items = pure answers := by
    clear present
    induction each with
    | nil => rfl
    | cons first _ ih => rw [Completion.overItems, first field same, ih, pure_bind, pure_bind]
  rw [complete_nullable _ _ _ _ rfl, complete_bare_list _ _ _ _ present, items_filled]
  rfl

/-- Where an answer is there, it may be demanded. -/
theorem required {type : TypeRef} (shows : executor.Shows scope depth type value sets answer)
    (optional : type.isNonNull = false) (there : answer.isNull = false) :
    executor.Shows scope depth (.nonNull type) value sets answer := by
  intro field same
  have absorbed := shows field same
  rw [complete_nullable _ _ _ _ optional] at absorbed
  rw [complete_non_null]
  funext journal
  have ran := congrFun absorbed journal
  rw [Completion.absorb_apply] at ran
  obtain ⟨⟨result, later⟩, bare, kept⟩ := Option.map_eq_some_iff.mp ran
  obtain ⟨same, rfl⟩ := Prod.mk.inj kept
  rw [FieldScope.required_apply, bare, Option.map_some]
  cases result with
  | ok found =>
      obtain rfl : found = answer := Except.ok.inj same
      simp only [FieldScope.demand, there, Bool.false_eq_true, if_false]
      rfl
  | error _ =>
      obtain rfl : Value.null = answer := Except.ok.inj same
      cases there

end Shows

section Resolving

variable {object : ObjectType} {source : Value} {field : Field} {definition : FieldDefinition}

/-- Without a resolver a field is what the source has under its name. -/
theorem ResolvesTo.by_name
    (absent : executor.resolver? object.name.node field.name.node = none) :
    executor.ResolvesTo scope object source field definition
      ((source.field? field.name.node).getD .null) := by
  rintro execute located rfl
  have unresolved : executor.resolver? object.name.node located.node.name.node = none := absent
  rw [resolveValue, unresolved]
  rfl

/-- The arguments of a field become this object, wherever the field is written. -/
def Supplies (executor : Executor σ) (scope : RequestScope) (field : Field)
    (arguments : List (Located InputDefinition)) (supplied : Object) : Prop :=
  ∀ located : Field, located.placeless = field →
    executor.coerceArguments scope.variableValues located arguments = pure supplied

/-- A resolver that is a function gives the value of the function. -/
theorem ResolvesTo.by_function {function : FieldContext σ → Value} {arguments : Object}
    (found : executor.resolver? object.name.node field.name.node = some (.ofFunction function))
    (supplied : executor.Supplies scope field definition.arguments arguments)
    (same : ∀ context : FieldContext σ, context.schema = executor.schema →
      context.source = source → context.arguments = arguments → function context = value) :
    executor.ResolvesTo scope object source field definition value := by
  rintro execute located rfl
  have resolver : executor.resolver? object.name.node located.node.name.node =
    some (.ofFunction function) := found
  have adapted : (ExceptT.adapt (fun error => FieldError.ofMessage error.message)
      (pure arguments : Action σ InputError Object) : Action σ FieldError Object) =
    pure arguments := rfl
  have run (context : FieldContext σ) :
      runResolver (.ofFunction function) context = pure (function context) := rfl
  rw [resolveValue, resolver]
  simp only [supplied located.node rfl, adapted, pure_bind, run]
  rw [same _ rfl rfl rfl]

theorem Supplies.nothing : executor.Supplies scope field [] [] := fun _ _ => rfl

end Resolving

/-- Groups that are given one after another make up an object. -/
theorem execute_groups_given {object : ObjectType} {source : Value}
    (execute : Request → Action σ RequestError Value) (path : FieldPath)
    {groups : List FieldGroup} {answer : Object}
    (each : List.Forall₂ (fun group entry => entry.1 = group.key ∧
      executor.Gives scope depth object source group.placeless entry.2) groups answer) :
    executor.executeGroups scope execute (executor.runWithin depth scope) object source path
      groups = pure answer := by
  induction each with
  | nil => rfl
  | @cons group entry groups answer first _ ih =>
      obtain ⟨key, ⟨definition, value, declared, resolves, shows⟩⟩ := first
      have selected : object.selectable? group.first.node.name.node = some definition := declared
      have resolved := resolves execute group.first rfl
      rw [executeGroups, selected]
      simp only
      rw [executeGroup, resolved]
      have observed (journal : Journal σ) :
          Completion.observe (pure value : Action σ FieldError Value) journal =
            some (.ok (.ok value), journal) := rfl
      have silent : (Completion.observe (pure value : Action σ FieldError Value) :
          Completion σ (Except FieldError Value)) = pure (.ok value) := funext observed
      simp only [silent, pure_bind]
      rw [shows _ (selection_sets_placeless group), pure_bind, ih, pure_bind, ← key]

/-- An object is answered group by group. -/
theorem AnswersBy.grouped {object : ObjectType} {source : Value} {groups : List FieldGroup}
    {answer : Object}
    (collected : collectFields executor.schema (scope.seen view) object.name.node sets = groups)
    (each : List.Forall₂ (fun group entry => entry.1 = group.key ∧
      executor.Gives scope depth object source group entry.2) groups answer) :
    executor.AnswersBy scope (depth + 1) object source sets answer := by
  rintro path selected rfl
  rw [collect_fields_placeless] at collected
  subst collected
  exact execute_groups_given _ path (List.forall₂_map_left_iff.mp each)

end Executor

section Plain

/-- A selection set that consists of fields. -/
def plainSelections (fields : List Field) : List Selection :=
  fields.map fun field => .field (.unplaced field)

/-- A selection set that is nothing but a spread. -/
def spreadOf (name : String) : List Selection := [.spread (.unplaced ⟨.unplaced name, none⟩)]

/-- A field that is the only one of its key. -/
def Field.alone (field : Field) : FieldGroup := ⟨field.responseKey, .unplaced field, []⟩

/-- Fields without directives, each of them with a key of its own. -/
structure PlainFields (fields : List Field) : Prop where
  unmarked : ∀ field ∈ fields, field.directives = none
  distinct : (fields.map Field.responseKey).Nodup

theorem add_to_groups_new {field : Located Field} {groups : List FieldGroup}
    (new : field.node.responseKey ∉ groups.map (·.key)) :
    addToGroups field groups = groups ++ [⟨field.node.responseKey, field, []⟩] := by
  induction groups with
  | nil => rfl
  | cons group rest ih =>
      obtain ⟨other, fresh⟩ := not_or.mp (mt List.mem_cons.mpr new)
      rw [addToGroups, if_neg (Ne.symm other), ih fresh, List.cons_append]

theorem grouped_plain {fields : List Field} (distinct : (fields.map Field.responseKey).Nodup) :
    grouped (fields.map .unplaced) = fields.map Field.alone := by
  induction fields using List.reverseRecOn with
  | nil => rfl
  | append_singleton fields field ih =>
      rw [List.map_append, List.map_singleton, List.nodup_append] at distinct
      obtain ⟨before, -, apart⟩ := distinct
      have new : (Located.unplaced field).node.responseKey ∉
          (fields.map Field.alone).map (·.key) := by
        rw [List.map_map]
        exact fun old => apart _ old _ (List.mem_singleton.mpr rfl) rfl
      rw [List.map_append, List.map_singleton, grouped_append_one, ih before,
        add_to_groups_new new, List.map_append, List.map_singleton]
      rfl

variable {schema : Schema} {scope : RequestScope} {objectName : String} {fields : List Field}

theorem gather_plain {meet : List Selection → Gathered → Gathered}
    (unmarked : ∀ field ∈ fields, field.directives = none) (gathered : Gathered) :
    gatherWith schema scope objectName meet (plainSelections fields) gathered =
      ⟨gathered.visited, gathered.fields ++ fields.map .unplaced⟩ := by
  induction fields generalizing gathered with
  | nil => simp [plainSelections, gatherWith]
  | cons field rest ih =>
      have included : scope.includes (Located.unplaced field).node.directives = true := by
        rw [show (Located.unplaced field).node.directives = none from
          unmarked field List.mem_cons_self]
        rfl
      rw [plainSelections, List.map_cons, gatherWith, gatherOne, if_pos included]
      refine (ih (fun other member => unmarked other (List.mem_cons_of_mem _ member)) _).trans ?_
      rw [List.append_assoc, List.map_cons, List.singleton_append]

theorem gather_within_plain (unmarked : ∀ field ∈ fields, field.directives = none) (depth : Nat)
    (gathered : Gathered) :
    gatherWithin schema scope objectName depth (plainSelections fields) gathered =
      ⟨gathered.visited, gathered.fields ++ fields.map .unplaced⟩ := by
  cases depth <;> exact gather_plain unmarked gathered

/-- Plain fields are collected as they stand. -/
theorem collect_plain (plain : PlainFields fields) :
    collectFields schema scope objectName [plainSelections fields] = fields.map Field.alone := by
  rw [collect_fields_grouped, fieldsAsked, List.foldl_cons, List.foldl_nil,
    gather_within_plain plain.unmarked, List.nil_append, grouped_plain plain.distinct]

/-- A fragment on the type of the object stands for the plain fields in it. -/
theorem collect_spread (plain : PlainFields fields) {name : String} {fragment : Located Fragment}
    (found : scope.document.fragment? name = some fragment)
    (unmarked : fragment.node.directives = none)
    (condition : fragment.node.typeCondition.node = objectName)
    (selections : fragment.node.selections = plainSelections fields) :
    collectFields schema scope objectName [spreadOf name] = fields.map Field.alone := by
  have some_fragment : scope.document.fragments ≠ [] := by
    intro absent
    rw [Document.fragment?, absent] at found
    cases found
  obtain ⟨depth, counted⟩ := Nat.exists_eq_add_one.mpr (List.length_pos_of_ne_nil some_fragment)
  have applies : schema.applies objectName objectName = true := by simp [Schema.applies]
  have included : scope.includes none = true := rfl
  rw [collect_fields_grouped, fieldsAsked, List.foldl_cons, List.foldl_nil, counted, gatherWithin,
    spreadOf, gatherWith, gatherWith, gatherOne, gatherSpread]
  simp only [Located.unplaced, found, unmarked, included, condition, applies, selections,
    List.not_mem_nil, decide_false, Bool.not_true, Bool.or_self, Bool.and_self, if_true,
    Bool.false_eq_true, if_false, gather_within_plain plain.unmarked]
  exact grouped_plain plain.distinct

variable {executor : Executor σ} {depth : Nat} {object : ObjectType} {source : Value}
  {answer : Object}

/-- Plain fields are answered one by one. -/
structure AnswersEach (executor : Executor σ) (scope : RequestScope) (depth : Nat)
    (object : ObjectType) (source : Value) (fields : List Field) (answer : Object) : Prop where
  plain : PlainFields fields
  each : List.Forall₂ (fun field entry => entry.1 = field.responseKey ∧
    executor.Gives scope depth object source field.alone entry.2) fields answer

theorem AnswersEach.selected
    (answers : AnswersEach executor scope depth object source fields answer) :
    executor.AnswersBy scope (depth + 1) object source [plainSelections fields] answer :=
  @Executor.AnswersBy.grouped _ id _ _ _ _ _ _ _ _ (collect_plain answers.plain)
    (List.forall₂_map_left_iff.mpr answers.each)

theorem AnswersEach.spread
    (answers : AnswersEach executor scope depth object source fields answer) {name : String}
    {fragment : Located Fragment}
    (found : (scope.seen view).document.fragment? name = some fragment)
    (unmarked : fragment.node.directives = none)
    (condition : fragment.node.typeCondition.node = object.name.node)
    (selections : fragment.node.selections = plainSelections fields) :
    executor.AnswersBy scope (depth + 1) object source [spreadOf name] answer :=
  Executor.AnswersBy.grouped (collect_spread answers.plain found unmarked condition selections)
    (List.forall₂_map_left_iff.mpr answers.each)

end Plain

/-- An operation without variables is answered by the data of its root, and by no errors. -/
theorem execute_answered {executor : Executor σ} {request : Request} {document : Document}
    {operation : Located Operation} {root : ObjectType} {depth : Nat} {answer : Object}
    (read : Document.ofSource request.source = .ok document)
    (selected : (document.seen view).selectOperation request.operationName = .ok operation)
    (unvaried : operation.node.variableDefinitions = none)
    (rooted : executor.rootType? operation.node.kind = some root)
    (answers : executor.AnswersBy ⟨document, []⟩ depth root (.object [])
      [operation.node.selections] answer) (context : σ) :
    executor.execute depth request context =
      some (.ok (.object [("data", .object answer)]), context) := by
  rw [document.select_operation_seen] at selected
  cases chosen : document.selectOperation request.operationName with
  | error error =>
      rw [chosen] at selected
      cases selected
  | ok own =>
      rw [chosen] at selected
      obtain rfl := Except.ok.inj selected
      have none_declared : own.node.variableDefinitions = none := Option.map_eq_none_iff.mp unvaried
      have kind : executor.rootType? own.node.kind = some root := rooted
      have ran := answers ⟨[], own.span.start⟩ [own.node.selections] rfl
      have finished : executor.executeOperation (executor.runWithin depth) document own root
          request.variableValues ⟨context, []⟩ = some (.ok (.object answer), ⟨context, []⟩) := by
        rw [Executor.executeOperation, none_declared]
        simp only [Option.map_none, Option.getD_none, Executor.coerceVariables, pure_bind,
          Executor.rootData, ran]
        rfl
      rw [Executor.execute, Executor.respond, read]
      simp only [chosen, kind, finished]
      rfl

end GraphQL
