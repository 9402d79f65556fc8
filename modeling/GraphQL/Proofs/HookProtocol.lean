import GraphQL.Proofs.Derivation

/-!
In which order the callbacks of a resolver run.

Arguments come first. Then there are up to three calls: `before` may replace the source, `resolve`
gives the value, and `after` may replace it. Each is made at most once, and the first that fails is
the last one. They differ in nothing that they get to see but the source.
-/

namespace GraphQL

variable {σ : Type}

/-- The callbacks of a resolver; `after` is handed a value. -/
inductive Hook where
  | before
  | resolve
  | after (value : Value)

/-- Their names, in the order in which they run. -/
inductive Stage where
  | before
  | resolve
  | after
  deriving DecidableEq, Repr

def Hook.stage : Hook → Stage
  | .before => .before
  | .resolve => .resolve
  | .after _ => .after

/-- A callback that was run: what it got to see, its result, and the contexts around it. -/
structure Call (σ : Type) where
  hook : Hook
  seen : FieldContext σ
  start : σ
  result : Except FieldError Value
  finish : σ

/-- The stages that a resolver has callbacks for. -/
def Resolver.stages (resolver : Resolver σ) : List Stage :=
  (if resolver.before.isSome then [.before] else []) ++ .resolve ::
    (if resolver.after.isSome then [.after] else [])

/-- What a callback does with what it gets to see, if a resolver has it. -/
def Resolver.callback? (resolver : Resolver σ) (seen : FieldContext σ) :
    Hook → Option (Action σ FieldError Value)
  | .before => resolver.before.map fun before => before seen
  | .resolve => some (resolver.resolve seen)
  | .after value => resolver.after.map fun after => after seen value

/-- A call was made of a callback that a resolver has. -/
def Call.Made (resolver : Resolver σ) (call : Call σ) : Prop :=
  ∃ callback, resolver.callback? call.seen call.hook = some callback ∧
    callback call.start = some (call.result, call.finish)

/-- A callback is run if there is one; if not, some value stands in for its result. -/
inductive Offers (resolver : Resolver σ) (seen : FieldContext σ) (hook : Hook)
    (otherwise : Value) : σ → List (Call σ) → Except FieldError Value → σ → Prop where
  | missing {context} (unhooked : resolver.callback? seen hook = none) :
      Offers resolver seen hook otherwise context [] (.ok otherwise) context
  | made {context result later} (made : Call.Made resolver ⟨hook, seen, context, result, later⟩) :
      Offers resolver seen hook otherwise context [⟨hook, seen, context, result, later⟩] result
        later

/-- The same field, with another source. -/
def FieldContext.withSource (context : FieldContext σ) (source : Value) : FieldContext σ :=
  { context with source := source }

/-- The calls of a resolver for one field, in order, and what comes of them. -/
inductive Protocol (resolver : Resolver σ) (seen : FieldContext σ) :
    σ → List (Call σ) → Except FieldError Value → σ → Prop where
  | notReplaced {context calls error later}
      (before : Offers resolver seen .before seen.source context calls (.error error) later) :
      Protocol resolver seen context calls (.error error) later
  | notResolved {context calls source middle error later}
      (before : Offers resolver seen .before seen.source context calls (.ok source) middle)
      (made : Call.Made resolver
        ⟨.resolve, seen.withSource source, middle, .error error, later⟩) :
      Protocol resolver seen context
        (calls ++ [⟨.resolve, seen.withSource source, middle, .error error, later⟩])
        (.error error) later
  | resolved {context calls source middle value reached more result later}
      (before : Offers resolver seen .before seen.source context calls (.ok source) middle)
      (made : Call.Made resolver ⟨.resolve, seen.withSource source, middle, .ok value, reached⟩)
      (after : Offers resolver (seen.withSource source) (.after value) value reached more result
        later) :
      Protocol resolver seen context
        (calls ++ ⟨.resolve, seen.withSource source, middle, .ok value, reached⟩ :: more)
        result later

section Resolvers

variable {resolver : Resolver σ} {seen : FieldContext σ} {context later : σ}
  {result : Except FieldError Value} {calls : List (Call σ)}

/-- Runs a callback if there is one. -/
def Resolver.offer (resolver : Resolver σ) (seen : FieldContext σ) (hook : Hook)
    (otherwise : Value) : Action σ FieldError Value :=
  (resolver.callback? seen hook).getD (pure otherwise)

theorem offers_iff {hook : Hook} {otherwise : Value} :
    resolver.offer seen hook otherwise context = some (result, later) ↔
      ∃ calls, Offers resolver seen hook otherwise context calls result later := by
  rw [Resolver.offer]
  constructor
  · intro ran
    cases hooked : resolver.callback? seen hook with
    | none =>
        rw [hooked] at ran
        cases ran
        exact ⟨[], .missing hooked⟩
    | some callback =>
        rw [hooked] at ran
        exact ⟨_, .made ⟨callback, hooked, ran⟩⟩
  · rintro ⟨calls, offers⟩
    cases offers with
    | missing unhooked =>
        rw [unhooked]
        rfl
    | made made =>
        obtain ⟨callback, hooked, ran⟩ := made
        have has : resolver.callback? seen hook = some callback := hooked
        rw [has]
        exact ran

theorem run_resolver_stages (resolver : Resolver σ) (seen : FieldContext σ) :
    Executor.runResolver resolver seen = (do
      let source ← resolver.offer seen .before seen.source
      let value ← resolver.resolve (seen.withSource source)
      resolver.offer (seen.withSource source) (.after value) value) := by
  obtain ⟨before, resolve, after⟩ := resolver
  cases before <;> cases after <;> rfl

/-- A resolver runs exactly as the protocol says. -/
theorem run_resolver_iff :
    Executor.runResolver resolver seen context = some (result, later) ↔
      ∃ calls, Protocol resolver seen context calls result later := by
  rw [run_resolver_stages]
  constructor
  · intro ran
    rcases Action.bind_finished ran with ⟨source, middle, first, rest⟩ | ⟨error, rfl, first⟩
    · obtain ⟨calls, before⟩ := offers_iff.mp first
      rcases Action.bind_finished rest with ⟨value, reached, made, last⟩ | ⟨error, rfl, made⟩
      · obtain ⟨more, after⟩ := offers_iff.mp last
        exact ⟨_, .resolved before ⟨_, rfl, made⟩ after⟩
      · exact ⟨_, .notResolved before ⟨_, rfl, made⟩⟩
    · obtain ⟨calls, before⟩ := offers_iff.mp first
      exact ⟨calls, .notReplaced before⟩
  · rintro ⟨calls, protocol⟩
    cases protocol with
    | notReplaced before => rw [Action.bind_apply, offers_iff.mpr ⟨_, before⟩]
    | notResolved before made =>
        obtain ⟨callback, ⟨⟩, ran⟩ := made
        rw [Action.bind_apply, offers_iff.mpr ⟨_, before⟩]
        dsimp only
        rw [Action.bind_apply, ran]
    | resolved before made after =>
        obtain ⟨callback, ⟨⟩, ran⟩ := made
        rw [Action.bind_apply, offers_iff.mpr ⟨_, before⟩]
        dsimp only
        rw [Action.bind_apply, ran]
        exact offers_iff.mpr ⟨_, after⟩

theorem before_offered (resolver : Resolver σ) (seen : FieldContext σ) :
    (resolver.callback? seen .before).isSome = resolver.before.isSome := by
  simp [Resolver.callback?]

theorem after_offered (resolver : Resolver σ) (seen : FieldContext σ) (value : Value) :
    (resolver.callback? seen (.after value)).isSome = resolver.after.isSome := by
  simp [Resolver.callback?]

theorem Offers.stages {hook : Hook} {otherwise : Value}
    (offers : Offers resolver seen hook otherwise context calls result later) :
    calls.map (·.hook.stage) =
      if (resolver.callback? seen hook).isSome then [hook.stage] else [] := by
  cases offers with
  | missing unhooked => simp [unhooked]
  | made made =>
      obtain ⟨callback, hooked, -⟩ := made
      have has : resolver.callback? seen hook = some callback := hooked
      simp [has]

/-- The callbacks run in their order, each at most once, and all of them unless one fails. -/
theorem Protocol.stages (protocol : Protocol resolver seen context calls result later) :
    calls.map (·.hook.stage) <+: resolver.stages ∧
      ∀ value, result = .ok value → calls.map (·.hook.stage) = resolver.stages := by
  cases protocol with
  | notReplaced before =>
      have first := before.stages
      rw [before_offered] at first
      refine ⟨?_, fun _ impossible => by cases impossible⟩
      rw [first]
      exact List.prefix_append _ _
  | notResolved before _ =>
      have first := before.stages
      rw [before_offered] at first
      refine ⟨?_, fun _ impossible => by cases impossible⟩
      rw [List.map_append, first]
      exact (List.prefix_append_right_inj _).mpr (List.prefix_append [Stage.resolve] _)
  | resolved before _ after =>
      have first := before.stages
      have last := after.stages
      rw [before_offered] at first
      rw [after_offered] at last
      rw [List.map_append, List.map_cons, first, last]
      exact ⟨List.prefix_rfl, fun _ _ => rfl⟩

/-- All calls for a field see the same of it, but for the source. -/
theorem Protocol.sees (protocol : Protocol resolver seen context calls result later) :
    ∀ call ∈ calls, ∃ source, call.seen = seen.withSource source := by
  have offered {seen : FieldContext σ} {hook : Hook} {otherwise : Value} {context later : σ}
      {calls : List (Call σ)} {result : Except FieldError Value}
      (offers : Offers resolver seen hook otherwise context calls result later) :
      ∀ call ∈ calls, call.seen = seen := by
    cases offers with
    | missing => simp
    | made => simp
  cases protocol with
  | notReplaced before => exact fun call member => ⟨seen.source, offered before call member⟩
  | notResolved before _ =>
      intro call member
      rcases List.mem_append.mp member with early | last
      · exact ⟨seen.source, offered before call early⟩
      · obtain rfl := List.mem_singleton.mp last
        exact ⟨_, rfl⟩
  | resolved before _ after =>
      intro call member
      rcases List.mem_append.mp member with early | rest
      · exact ⟨seen.source, offered before call early⟩
      · rcases List.mem_cons.mp rest with rfl | late
        · exact ⟨_, rfl⟩
        · exact ⟨_, offered after call late⟩

end Resolvers

/-- A field of an object that is executed, and how it got its value. -/
structure Attempt (σ : Type) where
  object : ObjectType
  source : Value
  group : FieldGroup
  definition : FieldDefinition
  start : σ
  calls : List (Call σ)
  result : Except FieldError Value
  finish : σ

/-- What a resolver gets to see of a field before its source is replaced. -/
def Executor.fieldContext (executor : Executor σ) (scope : RequestScope)
    (execute : Request → Action σ RequestError Value) (object : ObjectType) (source : Value)
    (field : Located Field) (arguments : Object) : FieldContext σ where
  schema := executor.schema
  document := scope.document
  objectType := object
  field := field
  arguments := arguments
  source := source
  execute := execute

/-- How fields get their values: by look-up, or by their resolver once there are arguments. -/
inductive Attempt.Made (executor : Executor σ) (scope : RequestScope)
    (execute : Request → Action σ RequestError Value) : Attempt σ → Prop where
  | looked {object source group definition context}
      (unregistered : executor.resolver? object.name.node group.first.node.name.node = none) :
      Made executor scope execute
        { object, source, group, definition
          start := context
          calls := []
          result := .ok ((source.field? group.first.node.name.node).getD .null)
          finish := context }
  | refused {object source group definition context resolver error later}
      (registered : executor.resolver? object.name.node group.first.node.name.node = some resolver)
      (coerced : executor.coerceArguments scope.variableValues group.first.node
        definition.arguments context = some (.error error, later)) :
      Made executor scope execute
        { object, source, group, definition
          start := context
          calls := []
          result := .error (.ofMessage error.message)
          finish := later }
  | called {object source group definition context resolver arguments started calls result later}
      (registered : executor.resolver? object.name.node group.first.node.name.node = some resolver)
      (coerced : executor.coerceArguments scope.variableValues group.first.node
        definition.arguments context = some (.ok arguments, started))
      (protocol : Protocol resolver
        (executor.fieldContext scope execute object source group.first arguments) started calls
        result later) :
      Made executor scope execute
        { object, source, group, definition
          start := context
          calls := calls
          result := result
          finish := later }

section Attempts

variable {executor : Executor σ} {scope : RequestScope}
  {execute : Request → Action σ RequestError Value} {object : ObjectType} {source : Value}
  {group : FieldGroup} {definition : FieldDefinition} {context later : σ}
  {result : Except FieldError Value}

/-- A field gets its value exactly as attempts do. -/
theorem resolve_value_iff :
    executor.resolveValue scope execute object source group.first definition context =
        some (result, later) ↔
      ∃ calls, Attempt.Made executor scope execute
        ⟨object, source, group, definition, context, calls, result, later⟩ := by
  constructor
  · intro ran
    rw [Executor.resolveValue] at ran
    cases registered : executor.resolver? object.name.node group.first.node.name.node with
    | none =>
        simp only [registered] at ran
        cases ran
        exact ⟨[], .looked registered⟩
    | some resolver =>
        simp only [registered] at ran
        rcases Action.bind_finished ran with ⟨arguments, started, adapted, rest⟩ |
          ⟨error, rfl, adapted⟩
        all_goals
          rw [Action.adapt_apply, Option.map_eq_some_iff] at adapted
          obtain ⟨⟨outcome, reached⟩, coerced, same⟩ := adapted
          cases outcome <;> cases same
        · obtain ⟨calls, protocol⟩ := run_resolver_iff.mp rest
          exact ⟨calls, .called registered coerced protocol⟩
        · exact ⟨[], .refused registered coerced⟩
  · rintro ⟨calls, made⟩
    rw [Executor.resolveValue]
    cases made with
    | looked unregistered =>
        simp only [unregistered]
        rfl
    | refused registered coerced =>
        simp only [registered]
        rw [Action.bind_apply, Action.adapt_apply, coerced]
        rfl
    | called registered coerced protocol =>
        simp only [registered]
        rw [Action.bind_apply, Action.adapt_apply, coerced]
        exact run_resolver_iff.mpr ⟨_, protocol⟩

end Attempts

end GraphQL
