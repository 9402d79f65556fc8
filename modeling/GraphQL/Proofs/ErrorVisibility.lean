import GraphQL.Proofs.Coverage
import GraphQL.Proofs.ErrorLog

/-!
Every field error is visible as a null.

The path of an error leads through the data to a null, at its end or before it, and the error points
at a field of the document that has the last key of the path. Errors without a path are those of
variables and come first. The policy has to count null itself as absent: otherwise the null of a
failed resolver could be completed to something else.
-/

namespace GraphQL

namespace Object

theorem get_cons_other {key other : String} (different : other ≠ key) (value : Value)
    (object : Object) : Object.get? ((key, value) :: object) other = object.get? other := by
  rw [Object.get?, Object.get?, List.lookup_cons, beq_false_of_ne different]

theorem mem_keys_of_get {object : Object} {key : String} {value : Value}
    (found : object.get? key = some value) : key ∈ object.keys := by
  have present : (object.lookup key).isSome = true := by
    rw [Object.get?] at found
    simp [found]
  obtain ⟨pair, member, same⟩ := List.lookup_isSome_iff.mp present
  exact List.mem_map.mpr ⟨pair, member, (eq_of_beq same).symm⟩

end Object

/-- Following response keys through a value, along some element of each list, leads to a null. -/
inductive MeetsNull : List String → Value → Prop where
  | null {path} : MeetsNull path .null
  | element {path items item} (member : item ∈ items) (meets : MeetsNull path item) :
      MeetsNull path (.list items)
  | field {key path fields value} (found : Object.get? fields key = some value)
      (meets : MeetsNull path value) : MeetsNull (key :: path) (.object fields)

/-- A path ends in the response key of a field of the document, and is placed at its name. -/
def Document.Marks (document : Document) (path : FieldPath) : Prop :=
  ∃ field, document.Selects field ∧ path.keys.getLast? = some field.node.responseKey ∧
    field.node.name.span.start = path.location

/-- An error points at a field below a place of the response, whose result shows it as a null. -/
structure ErrorVisible (document : Document) (base : List String) (result : Except Bubble Value)
    (error : ExecutionError) : Prop where
  marked : document.Marks ⟨error.path, error.location⟩
  shown : ∃ rest, error.path = base ++ rest ∧ ∀ value, result = .ok value → MeetsNull rest value

/-- Where the response keys of some work start from. -/
def Work.base : Work → List String
  | .complete field _ _ => field.path.keys
  | .bare field _ _ => field.path.keys
  | .items field _ _ => field.path.keys
  | .groups _ _ path _ => path.keys

/-- Work that is done for fields of a document. -/
def Work.Belongs (document : Document) : Work → Prop
  | .complete field _ _ => document.Marks field.path ∧
      ∀ selections ∈ field.selectionSets, document.Covers selections
  | .bare field _ _ => document.Marks field.path ∧
      ∀ selections ∈ field.selectionSets, document.Covers selections
  | .items field _ _ => document.Marks field.path ∧
      ∀ selections ∈ field.selectionSets, document.Covers selections
  | .groups _ _ _ list => (list.map (·.key)).Nodup ∧
      ∀ group ∈ list, document.Selects group.first ∧
        group.first.node.responseKey = group.key ∧
        ∀ selections ∈ group.selectionSets, document.Covers selections

section Visibility

variable {document : Document} {base : List String} {error : ExecutionError}

theorem ErrorVisible.at_field {path : FieldPath} {reason : FieldError}
    {result : Except Bubble Value} (marked : document.Marks path)
    (null : ∀ value, result = .ok value → value = .null) :
    ErrorVisible document path.keys result ⟨path.location, path.keys, reason⟩ where
  marked := marked
  shown := ⟨[], by simp, fun value same => null value same ▸ .null⟩

theorem ErrorVisible.rising {result : Except Bubble Value}
    (visible : ErrorVisible document base result error) :
    ErrorVisible document base (.error .bubble) error where
  marked := visible.marked
  shown := visible.shown.imp fun _ shown => ⟨shown.1, fun _ impossible => by cases impossible⟩

theorem ErrorVisible.nulled {result : Except Bubble Value}
    (visible : ErrorVisible document base result error) :
    ErrorVisible document base (.ok .null) error where
  marked := visible.marked
  shown := visible.shown.imp fun _ shown => ⟨shown.1, fun _ same => by cases same; exact .null⟩

theorem ErrorVisible.in_first_item {first : Value} {others : List Value}
    (visible : ErrorVisible document base (.ok first) error) :
    ErrorVisible document base (.ok (.list (first :: others))) error where
  marked := visible.marked
  shown := visible.shown.imp fun rest shown => ⟨shown.1, fun value same => by
    cases same
    exact .element (by simp) (shown.2 first rfl)⟩

theorem ErrorVisible.in_other_item {first : Value} {others : List Value}
    (visible : ErrorVisible document base (.ok (.list others)) error) :
    ErrorVisible document base (.ok (.list (first :: others))) error where
  marked := visible.marked
  shown := visible.shown.imp fun rest shown => ⟨shown.1, fun value same => by
    cases same
    cases shown.2 _ rfl with
    | element member meets => exact .element (List.mem_cons_of_mem _ member) meets⟩

theorem ErrorVisible.in_first_field {key : String} {first : Value} {others : Object}
    (visible : ErrorVisible document (base ++ [key]) (.ok first) error) :
    ErrorVisible document base (.ok (.object ((key, first) :: others))) error where
  marked := visible.marked
  shown := by
    obtain ⟨rest, path, meets⟩ := visible.shown
    refine ⟨key :: rest, by simpa using path, fun value same => ?_⟩
    cases same
    exact .field (by simp [Object.get?]) (meets first rfl)

theorem ErrorVisible.in_other_field {key : String} {first : Value} {others : Object}
    (fresh : key ∉ Object.keys others)
    (visible : ErrorVisible document base (.ok (.object others)) error) :
    ErrorVisible document base (.ok (.object ((key, first) :: others))) error where
  marked := visible.marked
  shown := by
    obtain ⟨rest, path, meets⟩ := visible.shown
    refine ⟨rest, path, fun value same => ?_⟩
    cases same
    cases meets _ rfl with
    | field found inner =>
        have different : _ ≠ key := fun same => fresh (same ▸ Object.mem_keys_of_get found)
        exact .field ((Object.get_cons_other different first others).trans found) inner

theorem ErrorVisible.below {key : String} {result : Except Bubble Value}
    (visible : ErrorVisible document (base ++ [key]) result error) :
    ErrorVisible document base (.error .bubble) error where
  marked := visible.marked
  shown := by
    obtain ⟨rest, path, -⟩ := visible.shown
    exact ⟨key :: rest, by simpa using path, fun _ impossible => by cases impossible⟩

end Visibility

variable {σ : Type} {executor : Executor σ} {scope : RequestScope}

theorem FieldGroup.scope_belongs {document : Document} {object : ObjectType} {path : FieldPath}
    {group : FieldGroup} (selected : document.Selects group.first)
    (keyed : group.first.node.responseKey = group.key) :
    document.Marks (group.scope object path).path :=
  ⟨group.first, selected, by simp [FieldGroup.scope, keyed], rfl⟩

/-- The groups that are executed below a field of the document are again fields of the document. -/
theorem groups_below_belong {object : ObjectType} {source : Value} {path : FieldPath}
    {selectionSets : List (List Selection)}
    (covered : ∀ selections ∈ selectionSets, scope.document.Covers selections) :
    (Work.groups object source path (executor.groupsBelow scope object selectionSets)).Belongs
      scope.document := by
  rw [Executor.groupsBelow, collect_fields_grouped]
  have held : ∀ field ∈ fieldsAsked executor.schema scope object.name.node selectionSets,
      scope.document.Holds field := fields_asked_held covered
  refine ⟨grouped_keys_nodup _, fun group member => ?_⟩
  have inside : group.first ∈ group.fields := by simp [FieldGroup.fields]
  obtain ⟨met, keyed⟩ := grouped_member_met member inside
  exact ⟨(held group.first met).1, keyed, group_covered held member⟩

/-- What counts as absent is completed to null, or bubbles. -/
theorem Runs.nullish_value {field : FieldScope} {type : TypeRef} {value result : Value}
    {journal later : Journal σ} (nullish : executor.isNullish value = true)
    (runs : Runs executor scope (.complete field type value) journal (.ok result) later) :
    result = .null := by
  have bare {type : TypeRef} {result : Except Bubble Value} {journal later : Journal σ}
      (inner : Runs executor scope (.bare field type value) journal result later) :
      result = .ok .null := by
    cases inner with
    | absent => rfl
    | settled present => simp [nullish] at present
    | nested present => simp [nullish] at present
    | list present => simp [nullish] at present
    | object present => simp [nullish] at present
  cases runs with
  | nullable _ inner => exact Except.ok.inj (bare inner)
  | absorbed => rfl
  | present _ inner => exact Except.ok.inj (bare inner)

theorem OneErrorAtMost.visible {document : Document} {path : FieldPath} {value : Value}
    {journal later : Journal σ} (one : OneErrorAtMost path journal value later)
    (marked : document.Marks path) {result : Except Bubble Value}
    (null : value = .null → ∀ outcome, result = .ok outcome → outcome = .null) :
    ∃ added, journal.Gains added later ∧
      ∀ error ∈ added, ErrorVisible document path.keys result error := by
  rcases one with nothing | ⟨isNull, error, gained⟩
  · exact ⟨[], nothing, by simp⟩
  · refine ⟨_, gained, fun other member => ?_⟩
    rw [List.mem_singleton.mp member]
    exact .at_field marked (null isNull)

/-- Joins what two steps recorded. -/
theorem Journal.Gains.both {journal middle later : Journal σ}
    {holds : ExecutionError → Prop}
    (earlier : ∃ added, journal.Gains added middle ∧ ∀ error ∈ added, holds error)
    (next : ∃ added, middle.Gains added later ∧ ∀ error ∈ added, holds error) :
    ∃ added, journal.Gains added later ∧ ∀ error ∈ added, holds error := by
  obtain ⟨first, gained, all⟩ := earlier
  obtain ⟨second, gained', all'⟩ := next
  refine ⟨first ++ second, gained.trans gained', fun error member => ?_⟩
  rcases List.mem_append.mp member with inside | inside
  · exact all error inside
  · exact all' error inside

theorem Journal.Gains.weaken {journal later : Journal σ} {holds holds' : ExecutionError → Prop}
    (gained : ∃ added, journal.Gains added later ∧ ∀ error ∈ added, holds error)
    (weaker : ∀ error, holds error → holds' error) :
    ∃ added, journal.Gains added later ∧ ∀ error ∈ added, holds' error :=
  gained.imp fun _ all => ⟨all.1, fun error member => weaker error (all.2 error member)⟩

theorem Work.Belongs.first_group {document : Document} {object : ObjectType} {source : Value}
    {path : FieldPath} {group : FieldGroup} {groups : List FieldGroup}
    (belongs : (Work.groups object source path (group :: groups)).Belongs document) :
    document.Marks (group.scope object path).path ∧
      ∀ selections ∈ (group.scope object path).selectionSets, document.Covers selections := by
  obtain ⟨selected, keyed, covered⟩ := belongs.2 group (by simp)
  exact ⟨FieldGroup.scope_belongs selected keyed, covered⟩

theorem Work.Belongs.other_groups {document : Document} {object : ObjectType} {source : Value}
    {path : FieldPath} {group : FieldGroup} {groups : List FieldGroup}
    (belongs : (Work.groups object source path (group :: groups)).Belongs document) :
    (Work.groups object source path groups).Belongs document :=
  ⟨(List.nodup_cons.mp belongs.1).2,
    fun other member => belongs.2 other (List.mem_cons_of_mem _ member)⟩

/-- The errors of resolving a field and of completing it are visible in the field. -/
theorem field_errors_visible {document : Document} {object : ObjectType} {source value : Value}
    {path : FieldPath} {group : FieldGroup} {definition : FieldDefinition}
    {journal resolved later : Journal σ} {result : Except Bubble Value}
    (nullAbsent : executor.isNullish .null = true)
    (marked : document.Marks (group.scope object path).path)
    (resolves : Resolves executor scope object source path group definition journal value resolved)
    (completes : Runs executor scope
      (.complete (group.scope object path) definition.type.node value) resolved result later)
    (completed : ∃ added, resolved.Gains added later ∧ ∀ error ∈ added,
      ErrorVisible document (path.keys ++ [group.key]) result error) :
    ∃ added, journal.Gains added later ∧
      ∀ error ∈ added, ErrorVisible document (path.keys ++ [group.key]) result error := by
  refine Journal.Gains.both (resolves.one_error_at_most.visible marked ?_) completed
  rintro rfl outcome rfl
  exact completes.nullish_value nullAbsent

/-- Every error that work records is visible in its result. -/
theorem Runs.errors_visible (nullAbsent : executor.isNullish .null = true) {work : Work}
    {journal later : Journal σ} {result : Except Bubble Value}
    (runs : Runs executor scope work journal result later)
    (belongs : work.Belongs scope.document) :
    ∃ added, journal.Gains added later ∧
      ∀ error ∈ added, ErrorVisible scope.document work.base result error := by
  induction runs with
  | nullable _ _ ih => exact ih belongs
  | absorbed _ _ ih => exact Journal.Gains.weaken (ih belongs) fun _ visible => visible.nulled
  | present _ _ ih => exact ih belongs
  | violated _ ih =>
      refine Journal.Gains.both
        (Journal.Gains.weaken (ih belongs) fun _ visible => visible.rising) ⟨_, rfl, ?_⟩
      intro error member
      rw [List.mem_singleton.mp member]
      exact .at_field belongs.1 (by simp)
  | passed _ ih => exact ih belongs
  | absent => exact ⟨[], .nothing _, by simp⟩
  | settled _ settles =>
      refine settles.one_error_at_most.visible belongs.1 fun null outcome same => ?_
      cases same
      exact null
  | nested _ _ ih => exact ih belongs
  | list _ _ ih => exact ih belongs
  | object _ _ _ ih => exact ih (groups_below_belong belongs.2)
  | noItems => exact ⟨[], .nothing _, by simp⟩
  | item _ _ head tail =>
      exact Journal.Gains.both
        (Journal.Gains.weaken (head belongs) fun _ visible => visible.in_first_item)
        (Journal.Gains.weaken (tail belongs) fun _ visible => visible.in_other_item)
  | itemBubbled _ head => exact head belongs
  | itemsBubbled _ _ head tail =>
      exact Journal.Gains.both
        (Journal.Gains.weaken (head belongs) fun _ visible => visible.rising) (tail belongs)
  | noGroups => exact ⟨[], .nothing _, by simp⟩
  | undefinedField _ _ ih => exact ih belongs.other_groups
  | field _ resolves completes others head tail =>
      have own := belongs.first_group
      obtain ⟨fields, same, keys⟩ := others.groups_object
      cases same
      have fresh := (List.nodup_cons.mp belongs.1).1
      refine Journal.Gains.both
        (Journal.Gains.weaken
          (field_errors_visible nullAbsent own.1 resolves completes (head own))
          fun _ visible => visible.in_first_field)
        (Journal.Gains.weaken (tail belongs.other_groups)
          fun _ visible => visible.in_other_field fun member => fresh ?_)
      rw [keys] at member
      exact (List.filter_sublist.map _).subset member
  | fieldBubbled _ resolves completes head =>
      have own := belongs.first_group
      exact Journal.Gains.weaken
        (field_errors_visible nullAbsent own.1 resolves completes (head own))
        fun _ visible => visible.below
  | fieldsBubbled _ resolves completes _ head tail =>
      have own := belongs.first_group
      exact Journal.Gains.both
        (Journal.Gains.weaken
          (field_errors_visible nullAbsent own.1 resolves completes (head own))
          fun _ visible => visible.below)
        (tail belongs.other_groups)

theorem Document.Marks.path_ne_nil {document : Document} {path : FieldPath}
    (marked : document.Marks path) : path.keys ≠ [] := by
  obtain ⟨field, -, last, -⟩ := marked
  rintro empty
  simp [empty] at last

/--
Errors of variables come first and have no path. Every other error has one, which leads to a null of
the data and ends at a field of the document whose name stands where the error was placed.
-/
theorem field_errors_meet_null (executor : Executor σ)
    (nullAbsent : executor.isNullish .null = true) (depth : Nat) (document : Document)
    (operation : Located Operation) (chosen : operation ∈ document.operations)
    (root : ObjectType) (inputs : Object) (context : σ) (result : Except Bubble Value)
    (journal : Journal σ)
    (finished : executor.executeOperation (executor.runWithin depth) document operation root inputs
      ⟨context, []⟩ = some (result, journal)) :
    ∃ data values coerced fieldErrors,
      result = .ok data ∧
      executor.coerceVariables inputs (operationPlace operation)
        ((operation.node.variableDefinitions.map (·.node)).getD []) ⟨context, []⟩ =
          some (.ok values, coerced) ∧
      journal.errors = coerced.errors ++ fieldErrors ∧
      (∀ error ∈ coerced.errors, error.path = []) ∧
      ∀ error ∈ fieldErrors, error.path ≠ [] ∧ MeetsNull error.path data ∧
        ∃ field, document.Selects field ∧
          error.path.getLast? = some field.node.responseKey ∧
          field.node.name.span.start = error.location := by
  rw [Executor.executeOperation] at finished
  rcases Action.bind_finished finished with ⟨values, coerced, ran, rest⟩ | ⟨_, -, ran⟩
  · obtain ⟨_, added, _, gained, pathless⟩ := coerce_variables_gains ran
    obtain ⟨outcome, same, runs⟩ := root_data_runs rest
    have covered : ∀ selections ∈ [operation.node.selections], document.Covers selections := by
      intro selections member
      rw [List.mem_singleton.mp member]
      exact Document.covers_operation chosen
    obtain ⟨fieldErrors, gained', visible⟩ :=
      runs.errors_visible nullAbsent (groups_below_belong covered)
    rw [Journal.Gains, List.nil_append] at gained
    refine ⟨_, values, coerced, fieldErrors, same, ran, gained', gained ▸ pathless, ?_⟩
    intro error member
    obtain ⟨marked, rest, path, shown⟩ := visible error member
    refine ⟨marked.path_ne_nil, ?_, marked⟩
    rw [path]
    cases outcome with
    | error rising =>
        cases rising
        exact .null
    | ok value => exact shown value rfl
  · obtain ⟨_, _, impossible, -⟩ := coerce_variables_gains ran
    cases impossible

/-- The dog without a name is reported at its name, and the dogs are null. -/
theorem nameless_dog_meets_null :
    ∃ journal, kennel.executeOperation (kennel.runWithin 2) kennelDocument kennelTour kennelRoot []
        ⟨(), []⟩ = some (.ok (.object [("name", .string "Elm"), ("dogs", .null)]), journal) ∧
      journal.errors.map (·.path) = [["dogs", "name"]] ∧
      ∀ error ∈ journal.errors,
        MeetsNull error.path (.object [("name", .string "Elm"), ("dogs", .null)]) := by
  have chosen : kennelTour ∈ kennelDocument.operations := List.mem_singleton.mpr rfl
  refine ⟨_, rfl, rfl, ?_⟩
  obtain ⟨data, _, coerced, fieldErrors, same, ran, split, -, visible⟩ :=
    field_errors_meet_null kennel rfl 2 kennelDocument kennelTour chosen kennelRoot [] () _ _ rfl
  cases same
  cases ran
  intro error member
  rw [split] at member
  exact (visible error member).2.1

end GraphQL
