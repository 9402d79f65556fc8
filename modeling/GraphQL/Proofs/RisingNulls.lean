import GraphQL.Proofs.Conformance

/-!
Nulls that may not stand.

A value is completed to null for a reason of its own: it counts as absent, or it does not fit its
type. At a non-null type that is recorded, and the null rises from there through positions of
non-null types alone. So whatever bubbles does so because of a null that is in the journal.
-/

namespace GraphQL

variable {σ : Type}

/-- The error that tells of a null at a field where none may be. -/
def FieldScope.violation (field : FieldScope) : ExecutionError where
  location := field.path.location
  path := field.path.keys
  error := .ofMessage (CompletionError.nullForNonNull field.typeName field.fieldName).message

/-- A value may be completed to null, for a reason that does not lie below it. -/
inductive Vanishes (executor : Executor σ) (field : FieldScope) : TypeRef → Value → Prop where
  | absent {type value} (nullish : executor.isNullish value = true) :
      Vanishes executor field type value
  | settled {type value journal later} (present : executor.isNullish value = false)
      (settles : Settles executor field type value journal .null later) :
      Vanishes executor field type value

mutual

/-- A null rises from a position: its own, which was recorded, or one that rises from below. -/
inductive NullRises (executor : Executor σ) (scope : RequestScope)
    (errors : List ExecutionError) : FieldScope → TypeRef → Value → Prop where
  | violated {field type value} (vanishes : Vanishes executor field type value)
      (recorded : field.violation ∈ errors) :
      NullRises executor scope errors field (.nonNull type) value
  | passed {field type value} (below : NullBelow executor scope errors field type value) :
      NullRises executor scope errors field (.nonNull type) value

/-- A null rises to a position from directly below it. -/
inductive NullBelow (executor : Executor σ) (scope : RequestScope)
    (errors : List ExecutionError) : FieldScope → TypeRef → Value → Prop where
  | nested {field type value}
      (rises : NullRises executor scope errors field (.nonNull type) value) :
      NullBelow executor scope errors field (.nonNull type) value
  | item {field element items item} (member : item ∈ items)
      (rises : NullRises executor scope errors field element item) :
      NullBelow executor scope errors field (.list element) (.list items)
  | object {field name value object} (executed : ObjectFor executor value name object)
      (rises : NullInFields executor scope errors object value field.path
        (executor.groupsBelow scope object field.selectionSets)) :
      NullBelow executor scope errors field (.named name) value

/-- A null rises from one of the fields that an object is executed to. -/
inductive NullInFields (executor : Executor σ) (scope : RequestScope)
    (errors : List ExecutionError) :
    ObjectType → Value → FieldPath → List FieldGroup → Prop where
  | intro {object source path groups group definition value} (asked : group ∈ groups)
      (known : object.selectable? group.first.node.name.node = some definition)
      (resolves : MayResolveTo executor scope object source group definition value)
      (rises : NullRises executor scope errors (group.scope object path) definition.type.node
        value) :
      NullInFields executor scope errors object source path groups

end

variable {executor : Executor σ} {scope : RequestScope} {errors : List ExecutionError}

theorem NullInFields.behind {object : ObjectType} {source : Value} {path : FieldPath}
    {groups : List FieldGroup}
    (rises : NullInFields executor scope errors object source path groups) (group : FieldGroup) :
    NullInFields executor scope errors object source path (group :: groups) := by
  cases rises with
  | intro asked known resolves rises =>
      exact .intro (List.mem_cons_of_mem _ asked) known resolves rises

/-- A null rises out of some work. -/
def Work.Bubbles (executor : Executor σ) (scope : RequestScope) (errors : List ExecutionError) :
    Work → Prop
  | .complete field type value => NullRises executor scope errors field type value
  | .bare field type value => NullBelow executor scope errors field type value
  | .items field element values =>
      ∃ value ∈ values, NullRises executor scope errors field element value
  | .groups object source path list => NullInFields executor scope errors object source path list

/-- Items are completed to a list and groups to an object, so neither to null. -/
theorem Runs.vanishes {field : FieldScope} {type : TypeRef} {value : Value}
    {journal later : Journal σ}
    (runs : Runs executor scope (.bare field type value) journal (.ok .null) later) :
    Vanishes executor field type value := by
  cases runs with
  | absent nullish => exact .absent nullish
  | settled present settles => exact .settled present settles
  | nested _ inner =>
      cases inner with
      | nullable optional => cases optional
      | absorbed optional => cases optional
      | present nonNull => cases nonNull
  | list _ inner => cases inner
  | object _ _ inner =>
      obtain ⟨_, impossible, -⟩ := inner.groups_object
      cases impossible

/-- Behind every bubble there is a null that was recorded. -/
theorem Runs.bubbles {work : Work} {journal later : Journal σ} {result : Except Bubble Value}
    (runs : Runs executor scope work journal result later) (bubbled : result = .error .bubble)
    (recorded : later.errors ⊆ errors) : work.Bubbles executor scope errors := by
  induction runs with
  | violated inner =>
      have noted := recorded (List.mem_append_right _ List.mem_cons_self)
      exact NullRises.violated inner.vanishes noted
  | passed _ ih => exact NullRises.passed (ih rfl recorded)
  | nested _ _ ih => exact NullBelow.nested (ih bubbled recorded)
  | list _ _ ih =>
      obtain ⟨item, member, rises⟩ := ih bubbled recorded
      exact NullBelow.item member rises
  | object _ executed _ ih => exact NullBelow.object executed (ih bubbled recorded)
  | itemBubbled _ ih => exact ⟨_, List.mem_cons_self, ih rfl recorded⟩
  | itemsBubbled _ _ _ ih =>
      obtain ⟨item, member, rises⟩ := ih rfl recorded
      exact ⟨item, List.mem_cons_of_mem _ member, rises⟩
  | undefinedField _ _ ih => exact (ih bubbled recorded).behind _
  | fieldBubbled known resolves _ ih =>
      exact NullInFields.intro List.mem_cons_self known ⟨_, _, _, resolves⟩ (ih rfl recorded)
  | fieldsBubbled _ _ _ _ _ ih => exact (ih rfl recorded).behind _
  | nullable => cases bubbled
  | absorbed => cases bubbled
  | present => cases bubbled
  | absent => cases bubbled
  | settled => cases bubbled
  | noItems => cases bubbled
  | item => cases bubbled
  | noGroups => cases bubbled
  | field => cases bubbled

end GraphQL
