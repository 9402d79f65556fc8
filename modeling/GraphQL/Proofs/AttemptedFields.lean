import GraphQL.Proofs.AbsorbedBubbles
import GraphQL.Proofs.Collection

/-!
Every field is attempted once.

What is carried out at a place stays below that place, and what is carried out at two items of a
list, or for two response keys of an object, stays apart. So the attempts at the fields of an object
are those of its own groups: one for each group whose field is defined, in order, up to the first
one that a bubble leaves the object through.
-/

namespace GraphQL

variable {σ : Type}

/-- The places of the objects that are entered. -/
def Step.entered? : Step σ → Option Place
  | .object place _ _ _ => some place
  | _ => none

/-- Whether an object is entered or a field is attempted. -/
def Step.acts : Step σ → Bool
  | .object _ _ _ _ => true
  | .field _ _ _ => true
  | _ => false

/-- The attempt of a step, if it is one at a field of the object at a place. -/
def Step.attemptAt? (place : Place) : Step σ → Option (Attempt σ)
  | .field own _ attempt => if own = place then some attempt else none
  | _ => none

/-- The attempts at the fields of the object at a place. -/
def attemptsAt (place : Place) (steps : List (Step σ)) : List (Attempt σ) :=
  steps.filterMap (Step.attemptAt? place)

/-- Where objects are entered in the course of a task. -/
def Task.Holds : Task → Place → Prop
  | .complete slot _, place => slot.place <+: place
  | .bare slot _, place => slot.place <+: place
  | .items own index _ _ _, place => ∃ n ≥ index, own ++ [.index n] <+: place
  | .groups own _ _ _ asked, place => ∃ group ∈ asked, own ++ [.key group.key] <+: place

/-- Where there is an object whose fields are a task. -/
def Task.Hosts : Task → Place → Prop
  | .groups own _ _ _ _, place => place = own
  | _, _ => False

/-- A step is taken within the bounds of a task. -/
def Step.Within (task : Task) : Step σ → Prop
  | .object place _ _ _ => task.Holds place
  | .field place _ _ => task.Holds place ∨ task.Hosts place
  | _ => True

section Places

variable {place below : Place} {first second : Segment}

theorem beside_below (left : place ++ [first] <+: below) (right : place ++ [second] <+: below) :
    first = second := by
  obtain ⟨suffix, rfl⟩ := left
  obtain ⟨other, same⟩ := right
  rw [List.append_assoc, List.append_assoc] at same
  exact (List.cons.inj (List.append_cancel_left same)).1.symm

theorem not_below_itself : ¬ place ++ [first] <+: place := by
  intro longer
  have bound := longer.length_le
  rw [List.length_append, List.length_singleton] at bound
  omega

end Places

section Bounds

variable {inner outer : Task} {steps more : List (Step σ)}

theorem Step.Within.mono {step : Step σ} (within : step.Within inner)
    (holds : ∀ place, inner.Holds place → outer.Holds place)
    (hosts : ∀ place, inner.Hosts place → outer.Holds place ∨ outer.Hosts place) :
    step.Within outer := by
  cases step with
  | object => exact holds _ within
  | field =>
      rcases within with held | hosted
      · exact .inl (holds _ held)
      · exact hosts _ hosted
  | settled | violated | passed | absorbed => trivial

theorem Step.within_of_idle {step : Step σ} (idle : step.acts = false) (task : Task) :
    step.Within task := by
  cases step with
  | object | field => cases idle
  | settled | violated | passed | absorbed => trivial

theorem absorption_idle (slot : Slot) (result : Except Bubble Value) :
    ∀ step ∈ (absorption slot result : List (Step σ)), step.acts = false := by
  cases result with
  | ok => simp [absorption]
  | error => simp [absorption, Step.acts]

theorem demanded_idle (slot : Slot) (result : Except Bubble Value) :
    ∀ step ∈ (demanded slot result : List (Step σ)), step.acts = false := by
  cases result with
  | ok value =>
      rw [demanded]
      split <;> simp [Step.acts]
  | error => simp [demanded, Step.acts]

end Bounds

section Traces

variable {executor : Executor σ} {scope : RequestScope} {task : Task} {journal later : Journal σ}
  {steps : List (Step σ)} {result : Except Bubble Value}

theorem Traced.within (traced : Traced executor scope task journal steps result later) :
    ∀ step ∈ steps, step.Within task := by
  induction traced with
  | optional _ _ ih =>
      refine List.forall_mem_append.mpr ⟨fun step member => ?_, fun step member =>
        Step.within_of_idle (absorption_idle _ _ step member) _⟩
      exact (ih step member).mono (fun _ held => held) fun _ hosted => hosted.elim
  | required _ ih =>
      refine List.forall_mem_append.mpr ⟨fun step member => ?_, fun step member =>
        Step.within_of_idle (demanded_idle _ _ step member) _⟩
      exact (ih step member).mono (fun _ held => held) fun _ hosted => hosted.elim
  | absent => simp
  | settled => simp [Step.Within]
  | nested _ _ ih =>
      intro step member
      exact (ih step member).mono (fun _ held => held) fun _ hosted => hosted.elim
  | list _ _ ih =>
      intro step member
      refine (ih step member).mono (fun _ held => ?_) fun _ hosted => hosted.elim
      obtain ⟨n, -, below⟩ := held
      exact (List.prefix_append _ _).trans below
  | object _ _ _ ih =>
      refine List.forall_mem_cons.mpr ⟨List.prefix_rfl, fun step member => ?_⟩
      refine (ih step member).mono (fun _ held => ?_) fun _ hosted => .inl ?_
      · obtain ⟨group, -, below⟩ := held
        exact (List.prefix_append _ _).trans below
      · obtain rfl : _ = _ := hosted
        exact List.prefix_rfl
  | noItems => simp
  | item _ _ head tail =>
      refine List.forall_mem_append.mpr ⟨fun step member => ?_, fun step member => ?_⟩
      · exact (head step member).mono (fun _ held => ⟨_, Nat.le_refl _, held⟩) fun _ hosted => hosted.elim
      · refine (tail step member).mono (fun _ held => ?_) fun _ hosted => hosted.elim
        obtain ⟨n, behind, below⟩ := held
        exact ⟨n, Nat.le_of_succ_le behind, below⟩
  | itemBubbled _ ih =>
      intro step member
      exact (ih step member).mono (fun _ held => ⟨_, Nat.le_refl _, held⟩) fun _ hosted => hosted.elim
  | noGroups => simp
  | undefinedField _ _ ih =>
      intro step member
      refine (ih step member).mono (fun _ held => ?_) fun _ hosted => .inr hosted
      obtain ⟨group, among, below⟩ := held
      exact ⟨group, List.mem_cons_of_mem _ among, below⟩
  | field _ _ _ _ _ head tail =>
      refine List.forall_mem_cons.mpr ⟨.inr rfl, List.forall_mem_append.mpr
        ⟨fun step member => ?_, fun step member => ?_⟩⟩
      · exact (head step member).mono (fun _ held => ⟨_, List.mem_cons_self, held⟩)
          fun _ hosted => hosted.elim
      · refine (tail step member).mono (fun _ held => ?_) fun _ hosted => .inr hosted
        obtain ⟨group, among, below⟩ := held
        exact ⟨group, List.mem_cons_of_mem _ among, below⟩
  | fieldBubbled _ _ _ _ ih =>
      refine List.forall_mem_cons.mpr ⟨.inr rfl, fun step member => ?_⟩
      exact (ih step member).mono (fun _ held => ⟨_, List.mem_cons_self, held⟩)
        fun _ hosted => hosted.elim

end Traces

/-- A bubble starts at a place, or is passed on there. -/
def Step.LeavesAt (place : Place) : Step σ → Prop
  | .violated slot => slot.place = place
  | .passed slot => slot.place = place
  | _ => False

/--
The fields of an object are attempted: all that are defined, in order, or some of them up to one
that a bubble leaves.
-/
structure Executes (place : Place) (object : ObjectType) (source : Value)
    (groups : List FieldGroup) (steps : List (Step σ)) : Prop where
  own : ∀ attempt ∈ attemptsAt place steps, attempt.object = object ∧ attempt.source = source
  order : (attemptsAt place steps).map (·.group) <+: groups.filter (·.definedOn object)
  whole : (attemptsAt place steps).map (·.group) = groups.filter (·.definedOn object) ∨
    ∃ front last, attemptsAt place steps = front ++ [last] ∧
      ∃ step ∈ steps, step.LeavesAt (place ++ [.key last.group.key])

section Attempts

variable {place : Place} {steps more : List (Step σ)} {object : ObjectType} {source : Value}
  {groups : List FieldGroup}

theorem attempts_at_append (place : Place) (steps more : List (Step σ)) :
    attemptsAt place (steps ++ more) = attemptsAt place steps ++ attemptsAt place more :=
  List.filterMap_append

/-- What is done elsewhere attempts no field here. -/
theorem attempts_elsewhere {task : Task} (within : ∀ step ∈ steps, step.Within task)
    (apart : ¬ task.Holds place) (strange : ¬ task.Hosts place) : attemptsAt place steps = [] := by
  refine List.filterMap_eq_nil_iff.mpr fun step member => ?_
  cases step with
  | field own path attempt =>
      refine if_neg ?_
      rintro rfl
      exact (within _ member).elim apart strange
  | _ => rfl

theorem attempts_at_own (path : FieldPath) (attempt : Attempt σ) (steps : List (Step σ)) :
    attemptsAt place (.field place path attempt :: steps) = attempt :: attemptsAt place steps := by
  have here : (Step.field place path attempt).attemptAt? place = some attempt := if_pos rfl
  exact List.filterMap_cons_some here

theorem Executes.among (executes : Executes place object source groups steps)
    (before after : List (Step σ)) (front : attemptsAt place before = [])
    (behind : attemptsAt place after = []) :
    Executes place object source groups (before ++ (steps ++ after)) := by
  have same : attemptsAt place (before ++ (steps ++ after)) = attemptsAt place steps := by
    rw [attempts_at_append, attempts_at_append, front, behind, List.nil_append, List.append_nil]
  refine ⟨same ▸ executes.own, same ▸ executes.order, ?_⟩
  rw [same]
  refine executes.whole.imp_right ?_
  rintro ⟨front, last, ended, step, member, leaves⟩
  exact ⟨front, last, ended, step,
    List.mem_append_right _ (List.mem_append_left _ member), leaves⟩

/-- A bubble that rises to a slot leaves there. -/
theorem Ascends.leaves {origin lower : Slot} {rising : List (Step σ)}
    (rises : Ascends origin lower rising) : ∃ step ∈ rising, step.LeavesAt lower.place := by
  cases rises with
  | violated => exact ⟨_, List.mem_cons_self, rfl⟩
  | passed => exact ⟨_, List.mem_append_right _ List.mem_cons_self, rfl⟩

theorem Executes.nothing (place : Place) (object : ObjectType) (source : Value) :
    Executes place object source [] ([] : List (Step σ)) where
  own attempt member := by cases member
  order := List.prefix_rfl
  whole := .inl rfl

/-- A field that is not defined has no attempt. -/
theorem Executes.undefined (executes : Executes place object source groups steps)
    {group : FieldGroup} (unknown : object.selectable? group.first.node.name.node = none) :
    Executes place object source (group :: groups) steps := by
  have passed : (group :: groups).filter (·.definedOn object) =
      groups.filter (·.definedOn object) :=
    List.filter_cons_of_neg (by simp [FieldGroup.definedOn, unknown])
  exact ⟨executes.own, passed ▸ executes.order, passed ▸ executes.whole⟩

/-- An attempt in front of those at other fields. -/
theorem Executes.next {path : FieldPath} {attempt : Attempt σ}
    (known : attempt.object.selectable? attempt.group.first.node.name.node =
      some attempt.definition)
    (apart : attemptsAt place steps = [])
    (rest : Executes place attempt.object attempt.source groups more) :
    Executes place attempt.object attempt.source (attempt.group :: groups)
      (.field place path attempt :: (steps ++ more)) := by
  have defined : (attempt.group :: groups).filter (·.definedOn attempt.object) =
      attempt.group :: groups.filter (·.definedOn attempt.object) :=
    List.filter_cons_of_pos (by simp [FieldGroup.definedOn, known])
  have same : attemptsAt place (.field place path attempt :: (steps ++ more)) =
      attempt :: attemptsAt place more := by
    rw [attempts_at_own, attempts_at_append, apart, List.nil_append]
  refine ⟨?_, ?_, ?_⟩ <;> rw [same]
  · exact List.forall_mem_cons.mpr ⟨⟨rfl, rfl⟩, rest.own⟩
  · rw [defined]
    exact (List.prefix_cons_inj _).mpr rest.order
  · refine rest.whole.imp (fun all => ?_) ?_
    · rw [List.map_cons, all, defined]
    · rintro ⟨front, last, ended, step, member, leaves⟩
      exact ⟨attempt :: front, last, by rw [ended, List.cons_append], step,
        List.mem_cons_of_mem _ (List.mem_append_right _ member), leaves⟩

/-- An attempt whose field a bubble leaves is the last one. -/
theorem Executes.last {path : FieldPath} {attempt : Attempt σ}
    (known : attempt.object.selectable? attempt.group.first.node.name.node =
      some attempt.definition)
    (apart : attemptsAt place steps = [])
    (leaves : ∃ step ∈ steps, step.LeavesAt (place ++ [.key attempt.group.key])) :
    Executes place attempt.object attempt.source (attempt.group :: groups)
      (.field place path attempt :: steps) := by
  have defined : (attempt.group :: groups).filter (·.definedOn attempt.object) =
      attempt.group :: groups.filter (·.definedOn attempt.object) :=
    List.filter_cons_of_pos (by simp [FieldGroup.definedOn, known])
  have same : attemptsAt place (.field place path attempt :: steps) = [attempt] := by
    rw [attempts_at_own, apart]
  obtain ⟨step, member, leaves⟩ := leaves
  refine ⟨?_, ?_, ?_⟩ <;> rw [same]
  · exact List.forall_mem_singleton.mpr ⟨rfl, rfl⟩
  · rw [defined]
    exact List.prefix_append [attempt.group] _
  · exact .inr ⟨[], attempt, rfl, step, List.mem_cons_of_mem _ member, leaves⟩

end Attempts

section Fields

variable {executor : Executor σ} {scope : RequestScope} {task : Task} {journal later : Journal σ}
  {steps : List (Step σ)} {result : Except Bubble Value}

/-- Below a field, no field of its own object is attempted. -/
theorem Traced.below_apart {place : Place} {key : String} {field : FieldScope} {type : TypeRef}
    {value : Value}
    (traced : Traced executor scope (.complete ⟨place ++ [.key key], field, type⟩ value) journal
      steps result later) : attemptsAt place steps = [] :=
  attempts_elsewhere traced.within not_below_itself fun hosted => hosted

/-- The groups of an object are executed one after the other. -/
theorem Traced.executes {place : Place} {object : ObjectType} {source : Value} {path : FieldPath}
    {groups : List FieldGroup}
    (traced : Traced executor scope (.groups place object source path groups) journal steps result
      later) : Executes place object source groups steps := by
  generalize asked : Task.groups place object source path groups = task at traced
  induction traced generalizing groups with
  | noGroups =>
      cases asked
      exact .nothing _ _ _
  | undefinedField unknown _ ih =>
      cases asked
      exact (ih rfl).undefined unknown
  | field known _ _ head _ _ ih =>
      cases asked
      exact .next known head.below_apart (ih rfl)
  | fieldBubbled known _ _ head _ =>
      cases asked
      obtain ⟨front, origin, lower, rising, rfl, -, rises, emitted⟩ := head.bounds
      obtain rfl : lower = _ := emitted
      obtain ⟨step, member, leaves⟩ := rises.leaves
      exact .last known head.below_apart ⟨step, List.mem_append_right _ member, leaves⟩
  | _ => cases asked

end Fields

/-- Response keys are not repeated where they should not be. -/
def Task.Distinct : Task → Prop
  | .groups _ _ _ _ asked => (asked.map (·.key)).Nodup
  | _ => True

/--
Objects are entered once each, fields are attempted in objects that are entered or in the one at
hand, and each object is executed as its groups say.
-/
structure Orderly (hosts : Place → Prop) (steps : List (Step σ)) : Prop where
  once : (steps.filterMap Step.entered?).Nodup
  known : ∀ place path attempt, .field place path attempt ∈ steps →
    hosts place ∨ ∃ object source groups, .object place object source groups ∈ steps
  executed : ∀ place object source groups, .object place object source groups ∈ steps →
    Executes place object source groups steps

section Order

variable {inner outer : Place → Prop} {steps more : List (Step σ)} {place : Place}
  {object : ObjectType} {source : Value} {groups : List FieldGroup}

theorem mem_entered :
    place ∈ steps.filterMap Step.entered? ↔
      ∃ object source groups, .object place object source groups ∈ steps := by
  rw [List.mem_filterMap]
  constructor
  · rintro ⟨step, member, entered⟩
    cases step with
    | object own object source groups =>
        obtain rfl : own = place := Option.some.inj entered
        exact ⟨object, source, groups, member⟩
    | _ => cases entered
  · rintro ⟨object, source, groups, member⟩
    exact ⟨_, member, rfl⟩

theorem Orderly.nothing (hosts : Place → Prop) : Orderly hosts ([] : List (Step σ)) where
  once := List.nodup_nil
  known place path attempt member := by cases member
  executed place object source groups member := by cases member

theorem Orderly.widen (orderly : Orderly inner steps)
    (hosts : ∀ place, inner place → outer place) : Orderly outer steps where
  once := orderly.once
  known place path attempt member := (orderly.known place path attempt member).imp_left (hosts place)
  executed := orderly.executed

/-- Steps of two tasks whose places are apart. -/
theorem Orderly.beside {first second : Task} (left : Orderly first.Hosts steps)
    (right : Orderly second.Hosts more) (left_within : ∀ step ∈ steps, step.Within first)
    (right_within : ∀ step ∈ more, step.Within second)
    (apart : ∀ place, first.Holds place → ¬ second.Holds place ∧ ¬ second.Hosts place)
    (unhosted : ∀ place, ¬ first.Hosts place)
    (hosts : ∀ place, second.Hosts place → outer place) : Orderly outer (steps ++ more) where
  once := by
    rw [List.filterMap_append]
    refine List.nodup_append.mpr ⟨left.once, right.once, ?_⟩
    rintro place here _ there rfl
    obtain ⟨_, _, _, here⟩ := mem_entered.mp here
    obtain ⟨_, _, _, there⟩ := mem_entered.mp there
    exact (apart place (left_within _ here)).1 (right_within _ there)
  known place path attempt member := by
    rcases List.mem_append.mp member with early | late
    · rcases left.known place path attempt early with hosted | ⟨object, source, groups, entered⟩
      · exact absurd hosted (unhosted place)
      · exact .inr ⟨object, source, groups, List.mem_append_left _ entered⟩
    · rcases right.known place path attempt late with hosted | ⟨object, source, groups, entered⟩
      · exact .inl (hosts place hosted)
      · exact .inr ⟨object, source, groups, List.mem_append_right _ entered⟩
  executed place object source groups member := by
    rcases List.mem_append.mp member with early | late
    · have held : first.Holds place := left_within _ early
      have behind := attempts_elsewhere right_within (apart place held).1 (apart place held).2
      exact (left.executed place object source groups early).among [] more rfl behind
    · have held : second.Holds place := right_within _ late
      have front := attempts_elsewhere left_within (fun here => (apart place here).1 held)
        (unhosted place)
      simpa using (right.executed place object source groups late).among steps [] front rfl

theorem Orderly.idling (orderly : Orderly inner steps) (idle : ∀ step ∈ more, step.acts = false)
    (hosts : ∀ place, inner place → outer place) : Orderly outer (steps ++ more) := by
  have entered : more.filterMap Step.entered? = [] := by
    refine List.filterMap_eq_nil_iff.mpr fun step member => ?_
    have idles := idle step member
    cases step with
    | object => cases idles
    | _ => rfl
  have attempted (place : Place) : attemptsAt place more = [] := by
    refine List.filterMap_eq_nil_iff.mpr fun step member => ?_
    have idles := idle step member
    cases step with
    | field => cases idles
    | _ => rfl
  refine ⟨?_, fun place path attempt member => ?_, fun place object source groups member => ?_⟩
  · rw [List.filterMap_append, entered, List.append_nil]
    exact orderly.once
  · rcases List.mem_append.mp member with early | late
    · refine (orderly.known place path attempt early).imp (hosts place) ?_
      rintro ⟨object, source, groups, there⟩
      exact ⟨object, source, groups, List.mem_append_left _ there⟩
    · cases idle _ late
  · rcases List.mem_append.mp member with early | late
    · exact (orderly.executed place object source groups early).among [] more rfl
        (attempted place)
    · cases idle _ late

/-- An object is entered, and its groups are executed. -/
theorem Orderly.enter {path : FieldPath}
    (orderly : Orderly (Task.groups place object source path groups).Hosts steps)
    (within : ∀ step ∈ steps, step.Within (.groups place object source path groups))
    (executes : Executes place object source groups steps) :
    Orderly outer (.object place object source groups :: steps) := by
  have fresh : place ∉ steps.filterMap Step.entered? := by
    intro again
    obtain ⟨_, _, _, member⟩ := mem_entered.mp again
    obtain ⟨group, -, below⟩ : (Task.groups place object source path groups).Holds place :=
      within _ member
    exact not_below_itself below
  have alone (place : Place) :
      attemptsAt place [Step.object place object source groups] = ([] : List (Attempt σ)) := rfl
  refine ⟨List.nodup_cons.mpr ⟨fresh, orderly.once⟩, ?_, ?_⟩
  · intro own path attempt member
    rcases List.mem_cons.mp member with impossible | inside
    · cases impossible
    · rcases orderly.known own path attempt inside with hosted | ⟨_, _, _, entered⟩
      · obtain rfl : own = place := hosted
        exact .inr ⟨object, source, groups, List.mem_cons_self⟩
      · exact .inr ⟨_, _, _, List.mem_cons_of_mem _ entered⟩
  · intro own _ _ _ member
    rcases List.mem_cons.mp member with same | inside
    · cases same
      simpa using executes.among [.object place object source groups] [] rfl rfl
    · simpa using (orderly.executed _ _ _ _ inside).among
        [.object place object source groups] [] rfl rfl

/-- A field is attempted in front of what is done below it and for other fields. -/
theorem Orderly.attempt {path : FieldPath} {attempt : Attempt σ}
    (orderly : Orderly (Task.groups place object source path groups).Hosts steps)
    (within : ∀ step ∈ steps, step.Within (.groups place object source path groups)) :
    Orderly (Task.groups place object source path groups).Hosts
      (.field place path attempt :: steps) := by
  refine ⟨orderly.once, ?_, ?_⟩
  · intro own _ _ member
    rcases List.mem_cons.mp member with same | inside
    · cases same
      exact .inl rfl
    · refine (orderly.known own _ _ inside).imp_right ?_
      rintro ⟨_, _, _, entered⟩
      exact ⟨_, _, _, List.mem_cons_of_mem _ entered⟩
  · intro own _ _ _ member
    rcases List.mem_cons.mp member with impossible | inside
    · cases impossible
    · have elsewhere : place ≠ own := by
        rintro rfl
        obtain ⟨group, -, below⟩ : (Task.groups place object source path groups).Holds place :=
          within _ inside
        exact not_below_itself below
      have none : attemptsAt own [Step.field place path attempt] = [] :=
        List.filterMap_eq_nil_iff.mpr fun step only => by
          obtain rfl := List.mem_singleton.mp only
          exact if_neg elsewhere
      simpa using (orderly.executed _ _ _ _ inside).among [.field place path attempt] [] none rfl

end Order

theorem groups_below_distinct (executor : Executor σ) (scope : RequestScope) (object : ObjectType)
    (sets : List (List Selection)) :
    ((executor.groupsBelow scope object sets).map (·.key)).Nodup := by
  rw [Executor.groupsBelow, collect_fields_grouped]
  exact grouped_keys_nodup _

/-- Everything is done in order, and once. -/
theorem Traced.orderly {executor : Executor σ} {scope : RequestScope} {task : Task}
    {journal later : Journal σ} {steps : List (Step σ)} {result : Except Bubble Value}
    (traced : Traced executor scope task journal steps result later) (distinct : task.Distinct) :
    Orderly task.Hosts steps := by
  induction traced with
  | optional _ _ ih =>
      exact (ih .intro).idling (absorption_idle _ _) fun _ hosted => hosted.elim
  | required _ ih =>
      exact (ih .intro).idling (demanded_idle _ _) fun _ hosted => hosted.elim
  | absent => exact .nothing _
  | @settled slot value _ _ _ _ _ =>
      exact (Orderly.nothing _).idling (by simp [Step.acts]) fun _ hosted => hosted
  | nested _ _ ih => exact (ih .intro).widen fun _ hosted => hosted.elim
  | list _ _ ih => exact (ih .intro).widen fun _ hosted => hosted.elim
  | object _ _ inner ih =>
      exact (ih (groups_below_distinct _ _ _ _)).enter inner.within inner.executes
  | noItems => exact .nothing _
  | item head tail left right =>
      refine (left .intro).beside (right .intro) head.within tail.within ?_
        (fun _ hosted => hosted) fun _ hosted => hosted.elim
      refine fun place held => ⟨?_, fun hosted => hosted⟩
      rintro ⟨n, behind, below⟩
      cases beside_below held below
      omega
  | itemBubbled _ ih => exact (ih .intro).widen fun _ hosted => hosted.elim
  | noGroups => exact .nothing _
  | undefinedField _ _ ih => exact (ih (List.nodup_cons.mp distinct).2).widen fun _ hosted => hosted
  | @field own path groups _ steps _ _ more _ _ _ attempt known made started head tail left right =>
      obtain ⟨fresh, others⟩ := List.nodup_cons.mp distinct
      have rest : Orderly
          (Task.groups own attempt.object attempt.source path (attempt.group :: groups)).Hosts
          (steps ++ more) := by
        refine (left .intro).beside (right others) head.within tail.within ?_
          (fun _ hosted => hosted) fun _ hosted => hosted
        refine fun place held => ⟨?_, ?_⟩
        · rintro ⟨group, among, below⟩
          have same : attempt.group.key = group.key := Segment.key.inj (beside_below held below)
          exact fresh (List.mem_map.mpr ⟨group, among, same.symm⟩)
        · intro hosted
          obtain rfl : place = own := hosted
          exact not_below_itself held
      have within := (Traced.field known made started head tail).within
      exact rest.attempt (List.forall_mem_cons.mp within).2
  | @fieldBubbled own path groups _ steps _ _ attempt known made started head ih =>
      have traced : Traced executor scope
          (.groups own attempt.object attempt.source path (attempt.group :: groups)) _ _ _ _ :=
        .fieldBubbled known made started head
      exact ((ih .intro).widen fun _ hosted => hosted.elim).attempt
        (List.forall_mem_cons.mp traced.within).2

end GraphQL
