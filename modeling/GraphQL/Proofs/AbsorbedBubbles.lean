import GraphQL.Proofs.Trace

/-!
Bubbles, from where they start to where they end.

A null that may not stand is recorded in one step. From there on the trace has nothing but the
positions that pass the bubble on, each directly above the one before, until the first position
where null may stand absorbs it. So no callback runs in between and nothing else is recorded. What
ends in a bubble ends right there.
-/

namespace GraphQL

variable {σ : Type}

/-- A slot is at a place or directly below it, and its path goes on from some keys. -/
structure Slot.Under (lower : Slot) (place : Place) (keys : List String) : Prop where
  place : lower.place = place ∨ ∃ segment, lower.place = place ++ [segment]
  path : keys <+: lower.field.path.keys

/-- Steps in which a bubble rises from where it starts to the last slot that passes it on. -/
inductive Ascends (origin : Slot) : Slot → List (Step σ) → Prop where
  | violated (required : origin.type.isNonNull = true) : Ascends origin origin [.violated origin]
  | passed {lower upper steps} (below : Ascends origin lower steps)
      (under : lower.Under upper.place upper.field.path.keys)
      (required : upper.type.isNonNull = true) : Ascends origin upper (steps ++ [.passed upper])

/-- The way of a bubble: the record of a null, and the slots that pass the bubble on. -/
def bubbleWay (origin : Slot) (passing : List Slot) : List (Step σ) :=
  .violated origin :: passing.map .passed

/-- Whether a step belongs to the way of a bubble. -/
def Step.bubbles : Step σ → Bool
  | .violated _ => true
  | .passed _ => true
  | .absorbed _ => true
  | _ => false

/-- Steps in which every bubble rises to a slot that absorbs it, before anything else happens. -/
inductive Contained : List (Step σ) → Prop where
  | nil : Contained []
  | other {step rest} (apart : step.bubbles = false) (more : Contained rest) :
      Contained (step :: rest)
  | absorbed {origin lower upper rising rest} (rises : Ascends origin lower rising)
      (under : lower.Under upper.place upper.field.path.keys)
      (optional : upper.type.isNonNull = false) (more : Contained rest) :
      Contained (rising ++ .absorbed upper :: rest)

/-- The slot through which a bubble leaves a task. -/
def Task.Emits : Task → Slot → Prop
  | .complete slot _, lower => lower = slot
  | .bare slot _, lower => lower.Under slot.place slot.field.path.keys
  | .items place _ field _ _, lower => lower.Under place field.path.keys
  | .groups place _ _ path _, lower => lower.Under place path.keys

/-- Steps that end with a bubble on its way out of a task. -/
def Task.Escapes (task : Task) (steps : List (Step σ)) : Prop :=
  ∃ front origin lower rising, steps = front ++ rising ∧ Contained front ∧
    Ascends origin lower rising ∧ task.Emits lower

/-- What the steps of a task are like, by its result. -/
def Task.Bounds (task : Task) (steps : List (Step σ)) : Except Bubble Value → Prop
  | .ok _ => Contained steps
  | .error .bubble => task.Escapes steps

section Steps

variable {steps more : List (Step σ)}

theorem Slot.under_own (slot : Slot) : slot.Under slot.place slot.field.path.keys where
  place := .inl rfl
  path := List.prefix_rfl

theorem Contained.append (first : Contained steps) (second : Contained more) :
    Contained (steps ++ more) := by
  induction first with
  | nil => exact second
  | other apart _ ih => exact .other apart ih
  | absorbed rises under optional _ ih =>
      rw [List.append_assoc, List.cons_append]
      exact .absorbed rises under optional ih

theorem Task.Escapes.behind {task outer : Task} (escapes : task.Escapes more)
    (contained : Contained steps) (emits : ∀ lower, task.Emits lower → outer.Emits lower) :
    outer.Escapes (steps ++ more) := by
  obtain ⟨front, origin, lower, rising, rfl, quiet, rises, out⟩ := escapes
  exact ⟨steps ++ front, origin, lower, rising, (List.append_assoc ..).symm,
    contained.append quiet, rises, emits lower out⟩

/-- Steps in front of others, and a task around a task, change nothing about where a bubble goes. -/
theorem Task.Bounds.behind {task outer : Task} {result : Except Bubble Value}
    (bounds : task.Bounds more result) (contained : Contained steps)
    (emits : ∀ lower, task.Emits lower → outer.Emits lower) :
    outer.Bounds (steps ++ more) result := by
  cases result with
  | ok _ => exact contained.append bounds
  | error _ => exact Task.Escapes.behind bounds contained emits

theorem Task.Bounds.mapped {task : Task} {result : Except Bubble Value} (change : Value → Value)
    (bounds : task.Bounds steps result) : task.Bounds steps (result.map change) := by
  cases result with
  | ok _ => exact bounds
  | error _ => exact bounds

end Steps

section Traces

variable {executor : Executor σ} {scope : RequestScope} {task : Task} {journal later : Journal σ}
  {steps : List (Step σ)} {result : Except Bubble Value}

/-- Where null may stand, a bubble from below is absorbed. -/
theorem optional_bounds {slot : Slot} {value : Value} (optional : slot.type.isNonNull = false)
    (inner : (Task.bare slot value).Bounds steps result) :
    Contained (steps ++ absorption slot result) := by
  cases result with
  | ok _ =>
      rw [absorption, List.append_nil]
      exact inner
  | error _ =>
      obtain ⟨front, origin, lower, rising, rfl, quiet, rises, out⟩ := inner
      rw [absorption, List.append_assoc]
      exact quiet.append (.absorbed rises out optional .nil)

/-- Where null may not stand, a bubble starts or is passed on. -/
theorem required_bounds {place : Place} {field : FieldScope} {type : TypeRef} {value : Value}
    (inner : (Task.bare ⟨place, field, type⟩ value).Bounds steps result) :
    (Task.complete ⟨place, field, .nonNull type⟩ value).Bounds
      (steps ++ demanded ⟨place, field, .nonNull type⟩ result)
      (field.demand (result, later)).1 := by
  cases result with
  | error _ =>
      obtain ⟨front, origin, lower, rising, rfl, quiet, rises, out⟩ := inner
      exact ⟨front, origin, _, _, List.append_assoc .., quiet, .passed rises out rfl, rfl⟩
  | ok value =>
      by_cases null : value.isNull = true
      · simp only [demanded, FieldScope.demand, null, if_true]
        exact ⟨steps, _, _, _, rfl, inner, .violated rfl, rfl⟩
      · simp only [demanded, FieldScope.demand, null]
        rw [if_neg Bool.false_ne_true, if_neg Bool.false_ne_true, List.append_nil]
        exact inner

/-- Bubbles of a task are absorbed in its course, but for the one that it may end in. -/
theorem Traced.bounds (traced : Traced executor scope task journal steps result later) :
    task.Bounds steps result := by
  induction traced with
  | optional optional _ ih => exact optional_bounds optional ih
  | required _ ih => exact required_bounds ih
  | absent => exact .nil
  | settled => exact .other rfl .nil
  | nested _ _ ih => exact ih.behind .nil fun _ same => same ▸ Slot.under_own _
  | list _ _ ih => exact ih.behind .nil fun _ under => under
  | object _ _ _ ih => exact ih.behind (.other rfl .nil) fun _ under => under
  | noItems => exact .nil
  | item _ _ head tail => exact (tail.behind head fun _ under => under).mapped _
  | itemBubbled _ ih =>
      refine ih.behind .nil fun lower same => ?_
      obtain rfl : lower = _ := same
      exact ⟨.inr ⟨_, rfl⟩, List.prefix_rfl⟩
  | noGroups => exact .nil
  | undefinedField _ _ ih => exact ih.behind .nil fun _ under => under
  | @field place path _ _ steps _ _ _ _ _ _ attempt _ _ _ _ _ head tail =>
      have contained : Contained (.field place path attempt :: steps) := .other rfl head
      exact (tail.behind contained fun _ under => under).mapped _
  | fieldBubbled _ _ _ _ ih =>
      refine ih.behind (.other rfl .nil) fun lower same => ?_
      obtain rfl : lower = _ := same
      exact ⟨.inr ⟨_, rfl⟩, List.prefix_append _ _⟩

end Traces

/-- The response keys that lead to a task. -/
def Task.keys : Task → List String
  | .complete slot _ => slot.field.path.keys
  | .bare slot _ => slot.field.path.keys
  | .items _ _ field _ _ => field.path.keys
  | .groups _ _ _ path _ => path.keys

section Ways

variable {origin lower : Slot} {rising steps : List (Step σ)}

theorem Task.Emits.keys {task : Task} (emits : task.Emits lower) :
    task.keys <+: lower.field.path.keys := by
  cases task with
  | complete slot value =>
      obtain rfl : lower = slot := emits
      exact List.prefix_rfl
  | bare | items | groups => exact emits.path

/-- A bubble rises to slots whose paths lead to where it started. -/
theorem Ascends.keys (rises : Ascends origin lower rising) :
    lower.field.path.keys <+: origin.field.path.keys := by
  induction rises with
  | violated => exact List.prefix_rfl
  | passed _ under _ ih => exact under.path.trans ih

theorem Ascends.way (rises : Ascends origin lower rising) :
    ∃ passing, rising = bubbleWay origin passing := by
  induction rises with
  | violated => exact ⟨[], rfl⟩
  | @passed _ upper _ _ _ _ ih =>
      obtain ⟨passing, rfl⟩ := ih
      exact ⟨passing ++ [upper], by simp [bubbleWay]⟩

/-- Nothing is done to the journal while a bubble rises, but for the record at its start. -/
theorem Accounts.bubble {executor : Executor σ} {scope : RequestScope} {journal later : Journal σ}
    {passing : List Slot}
    (accounts : Accounts executor scope journal (bubbleWay origin passing) later) :
    later = origin.note journal := by
  have passes {start finish : Journal σ} (slots : List Slot)
      (accounts : Accounts executor scope start (slots.map .passed) finish) : finish = start := by
    induction slots with
    | nil =>
        cases accounts
        rfl
    | cons slot rest ih =>
        cases accounts with
        | cons first more =>
            obtain rfl : _ = start := first
            exact ih more
  cases accounts with
  | cons first more =>
      obtain rfl : _ = origin.note journal := first
      exact passes passing more

def Step.violates : Step σ → Bool
  | .violated _ => true
  | _ => false

def Step.absorbs : Step σ → Bool
  | .absorbed _ => true
  | _ => false

theorem Ascends.counts (rises : Ascends origin lower rising) :
    rising.countP Step.violates = 1 ∧ rising.countP Step.absorbs = 0 := by
  induction rises with
  | violated => exact ⟨rfl, rfl⟩
  | passed _ _ _ ih => simpa [List.countP_append, Step.violates, Step.absorbs] using ih

/-- As many bubbles start as are absorbed. -/
theorem Contained.balanced (contained : Contained steps) :
    steps.countP Step.violates = steps.countP Step.absorbs := by
  induction contained with
  | nil => rfl
  | @other step _ apart _ ih =>
      cases step with
      | object | field | settled => simpa [List.countP_cons, Step.violates, Step.absorbs] using ih
      | violated | passed | absorbed => cases apart
  | absorbed rises _ _ _ ih =>
      obtain ⟨started, none⟩ := rises.counts
      rw [List.countP_append, List.countP_append, List.countP_cons, List.countP_cons, started, none,
        ih]
      simp [Step.violates, Step.absorbs]
      omega

/-- A bubble that starts rises to a slot where null may stand, and that absorbs it at once. -/
theorem Contained.absorber (contained : Contained steps) (starts : .violated origin ∈ steps) :
    ∃ before lower passing upper after,
      steps = before ++ (bubbleWay origin passing ++ .absorbed upper :: after) ∧
      Ascends origin lower (bubbleWay origin passing : List (Step σ)) ∧
      lower.Under upper.place upper.field.path.keys ∧ upper.type.isNonNull = false := by
  induction contained with
  | nil => cases starts
  | @other step _ apart _ ih =>
      rcases List.mem_cons.mp starts with rfl | later
      · cases apart
      · obtain ⟨before, lower, passing, upper, after, rfl, way⟩ := ih later
        exact ⟨step :: before, lower, passing, upper, after, rfl, way⟩
  | @absorbed own lower upper rising rest rises under optional _ ih =>
      obtain ⟨passing, rfl⟩ := rises.way
      rcases List.mem_append.mp starts with here | later
      · have same : origin = own := by simpa [bubbleWay] using here
        subst same
        exact ⟨[], lower, passing, upper, rest, rfl, rises, under, optional⟩
      · have later : .violated origin ∈ rest := by simpa using later
        obtain ⟨before, lower, others, above, after, rfl, way⟩ := ih later
        exact ⟨bubbleWay own passing ++ .absorbed upper :: before, lower, others, above, after,
          by simp, way⟩

end Ways

/-- A task ends in a bubble: its last steps are those of the bubble, and then nothing happens. -/
structure EndsInBubble (executor : Executor σ) (scope : RequestScope) (task : Task)
    (journal : Journal σ) (steps : List (Step σ)) (later : Journal σ) (before : List (Step σ))
    (origin : Slot) (passing : List Slot) (reached : Journal σ) : Prop where
  split : steps = before ++ bubbleWay origin passing
  contained : Contained before
  rises : ∃ lower, Ascends origin lower (bubbleWay origin passing : List (Step σ)) ∧
    task.Emits lower
  accounts : Accounts executor scope journal before reached
  last : later = origin.note reached
  path : task.keys <+: origin.field.path.keys

theorem Traced.ends_in_bubble {executor : Executor σ} {scope : RequestScope} {task : Task}
    {journal later : Journal σ} {steps : List (Step σ)}
    (traced : Traced executor scope task journal steps (.error .bubble) later) :
    ∃ before origin passing reached,
      EndsInBubble executor scope task journal steps later before origin passing reached := by
  obtain ⟨before, origin, lower, rising, rfl, contained, rises, emitted⟩ := traced.bounds
  obtain ⟨passing, rfl⟩ := rises.way
  obtain ⟨reached, front, behind⟩ := traced.accounts.split
  exact ⟨before, origin, passing, reached, rfl, contained, ⟨lower, rises, emitted⟩, front,
    behind.bubble, emitted.keys.trans rises.keys⟩

/--
Nulls that may not stand are recorded once and stop everything up to where they are absorbed. What
is carried out has a trace that accounts for all that becomes of the journal. If it ends in a value,
each bubble in it rises to the first slot where null may stand and is absorbed there. If it ends in
a bubble, the last steps are those of the bubble: the error that tells of its null is the last one,
its path goes on from that of the task, and nothing was run or recorded after it. A bubble that
leaves the selections of an operation makes its data null.
-/
theorem bubbles_stop_until_absorbed (executor : Executor σ) :
    (∀ scope depth (task : Task) journal result later,
      executor.carryOut depth scope task.work journal = some (result, later) →
        ∃ steps, Traced executor scope task journal steps result later) ∧
    (∀ scope task journal steps result later,
      Traced executor scope task journal steps result later →
        Accounts executor scope journal steps later ∧
        (∀ value, result = .ok value → Contained steps) ∧
        (result = .error .bubble → ∃ before origin passing reached,
          EndsInBubble executor scope task journal steps later before origin passing reached)) ∧
    (∀ steps : List (Step σ), Contained steps →
      steps.countP Step.violates = steps.countP Step.absorbs ∧
      ∀ origin, .violated origin ∈ steps → ∃ before lower passing upper after,
        steps = before ++ (bubbleWay origin passing ++ .absorbed upper :: after) ∧
        Ascends origin lower (bubbleWay origin passing : List (Step σ)) ∧
        lower.Under upper.place upper.field.path.keys ∧ upper.type.isNonNull = false) ∧
    ∀ depth document operation root inputs journal result later,
      executor.executeOperation (executor.runWithin depth) document operation root inputs
          journal = some (result, later) →
        ∃ values started steps outcome,
          executor.coerceVariables inputs (operationPlace operation)
            ((operation.node.variableDefinitions.map (·.node)).getD []) journal =
              some (.ok values, started) ∧
          Traced executor ⟨document, values⟩ (executor.rootTask ⟨document, values⟩ operation root)
            started steps outcome later ∧
          ((∃ value, outcome = .ok value ∧ result = .ok value) ∨
            outcome = .error .bubble ∧ result = .ok .null) := by
  refine ⟨fun scope depth task journal result later finished => carry_out_traced finished, ?_,
    fun steps contained => ⟨contained.balanced, fun origin => contained.absorber⟩, ?_⟩
  · intro scope task journal steps result later traced
    refine ⟨traced.accounts, ?_, ?_⟩
    · rintro value rfl
      exact traced.bounds
    · rintro rfl
      exact traced.ends_in_bubble
  · intro depth document operation root inputs journal result later finished
    obtain ⟨values, started, steps, outcome, coerced, traced, rfl⟩ := operation_traced finished
    refine ⟨values, started, steps, outcome, coerced, traced, ?_⟩
    cases outcome with
    | ok value => exact .inl ⟨value, rfl, rfl⟩
    | error _ => exact .inr ⟨rfl, rfl⟩

/-- A dog that has to be there, with a name, and has none. -/
def namelessDog : Task :=
  .complete
    { place := [.key "dogs", .index 1]
      field :=
        { typeName := "Kennel"
          fieldName := "dogs"
          path := ⟨["dogs"], .origin⟩
          selectionSets := [[kennelField "name" none]] }
      type := .nonNull (.named "Dog") }
    (.object [])

/-- The dog without a name leaves a bubble with one record, which the list of all dogs absorbs. -/
theorem nameless_dog_bubbles :
    (∃ later steps before origin passing reached,
      Traced kennel ⟨kennelDocument, []⟩ namelessDog ⟨(), []⟩ steps (.error .bubble) later ∧
      EndsInBubble kennel ⟨kennelDocument, []⟩ namelessDog ⟨(), []⟩ steps later before origin
        passing reached ∧
      later.errors.map (·.path) = [["dogs", "name"]]) ∧
    ∃ values started steps later,
      Traced kennel ⟨kennelDocument, values⟩
        (kennel.rootTask ⟨kennelDocument, values⟩ kennelTour kennelRoot) started steps
        (.ok (.object [("name", .string "Elm"), ("dogs", .null)])) later ∧
      Contained steps ∧ steps.countP Step.violates = steps.countP Step.absorbs := by
  obtain ⟨traces, ends, balanced, operations⟩ := bubbles_stop_until_absorbed kennel
  constructor
  · obtain ⟨steps, traced⟩ := traces ⟨kennelDocument, []⟩ 2 namelessDog ⟨(), []⟩ _ _ rfl
    obtain ⟨-, -, bubbled⟩ := ends _ _ _ _ _ _ traced
    obtain ⟨before, origin, passing, reached, ending⟩ := bubbled rfl
    exact ⟨_, steps, before, origin, passing, reached, traced, ending, rfl⟩
  · have ran : ∃ later, kennel.executeOperation (kennel.runWithin 2) kennelDocument kennelTour
        kennelRoot [] ⟨(), []⟩ =
          some (.ok (.object [("name", .string "Elm"), ("dogs", .null)]), later) := ⟨_, rfl⟩
    obtain ⟨later, ran⟩ := ran
    obtain ⟨values, started, steps, outcome, -, traced, ⟨value, rfl, same⟩ | ⟨-, impossible⟩⟩ :=
      operations 2 kennelDocument kennelTour kennelRoot [] ⟨(), []⟩ _ _ ran
    · cases same
      have contained := (ends _ _ _ _ _ _ traced).2.1 _ rfl
      exact ⟨values, started, steps, later, traced, contained, (balanced steps contained).1⟩
    · cases impossible

end GraphQL
