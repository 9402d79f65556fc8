import GraphQL.Proofs.EmptyStringCoercions
import GraphQL.Proofs.SpelledTexts
import GraphQL.Proofs.TypedArguments

/-!
Which empty strings reach callbacks, under the policy that takes them for absent.

Arguments and fields are never empty. An empty string is left only as an element of a list, where a
literal wrote it: that of the argument, or a default on the way.
-/

namespace GraphQL

variable {σ : Type} {executor : Executor σ}

/-- An argument keeps an empty string, given as a literal or left to its default. -/
def InputDefinition.KeepsEmpty (schema : Schema) (values : Object) (argument : InputDefinition)
    (given : Option (Located Literal)) : Prop :=
  KeptOrDefault schema values argument.type.node argument.default
    (∀ literal ∈ given, literal.node.AbsentAt values argument.type.node.nullable)
    (∃ literal ∈ given, literal.node.KeepsEmpty schema values argument.type.node.nullable)

/-- A variable keeps an empty string, of its input or left to its default. -/
def VariableDefinition.KeepsEmpty (schema : Schema) (inputs : Object)
    (declared : VariableDefinition) : Prop :=
  KeptOrDefault schema [] declared.type.node declared.default
    (∀ input ∈ inputs.get? declared.name.node, isNullOrEmpty input = true)
    (∃ input ∈ inputs.get? declared.name.node,
      input.KeepsEmptyAt schema [] declared.type.node.nullable)

section Arguments

variable (policy : executor.isNullish = isNullOrEmpty) (enums : executor.schema.EnumsNamed)

include policy enums

theorem coerce_arguments_tell {values : Object} (tidy : TidyValues values) {field : Field}
    (arguments : List (Located InputDefinition))
    (builtin : ∀ argument ∈ arguments, executor.schema.BuiltinOnly argument.node.type.node) :
    Ensures (executor.coerceArguments values field arguments)
      (ObjectTold (∃ argument ∈ arguments, argument.node.KeepsEmpty executor.schema values
        (field.argument? argument.node.name.node))) := by
  have tells := argument_literal_tells policy enums tidy
  induction arguments with
  | nil => exact .pure no_fields_told
  | cons argument rest ih =>
      obtain ⟨first, others⟩ := List.forall_mem_cons.mp builtin
      have provided : Provided ((field.argument? argument.node.name.node).map fun literal =>
          executor.coerceLiteral values literal.node) argument.node.type.node _ _ :=
        provided_map fun literal _ => tells literal.node _ first.nullable
      have found := given_or_default_tells policy provided fun literal
        (_ : literal ∈ argument.node.default) => tells literal.node _ first.nullable
      rw [Executor.coerceArguments, List.exists_mem_cons_iff]
      refine one_more_tells ?_ (ih others)
      rw [Executor.coerceArgument]
      exact (found.adapt _).bind fun value told => left_out_tells policy told

theorem coerce_variable_tells (inputs : Object) (declared : VariableDefinition)
    (builtin : executor.schema.BuiltinOnly declared.type.node) :
    Ensures (executor.coerceVariable inputs declared)
      (FieldTold (declared.KeepsEmpty executor.schema inputs)) := by
  have unbound : TidyValues [] := tidy_values_of_each (List.forall_mem_nil _)
  have tells := argument_literal_tells policy enums unbound
  have provided : Provided ((inputs.get? declared.name.node).map (executor.coerceInput []))
      declared.type.node _ _ :=
    provided_map fun value _ => coerce_input_tells policy enums
      (expand_default_tells policy enums unbound _) value _ builtin.nullable
  have found := given_or_default_tells policy provided fun literal
    (_ : literal ∈ declared.default) => tells literal.node _ builtin.nullable
  rw [Executor.coerceVariable]
  split
  · exact .throw _
  · split
    · exact (found.adapt _).bind fun value told => left_out_tells policy told
    · exact .throw _

end Arguments

/--
An argument is never an empty string, nor is a field of an input object in it. An empty string is
kept as an element of a list exactly where a literal writes it there: the argument, the default of
an argument, of an input field or of a variable.
-/
theorem empty_strings_explained (accepted : executor.schema.Accepted)
    (policy : executor.isNullish = isNullOrEmpty) {inputs : Object} {place : Position}
    {definitions : List VariableDefinition} {bindings : Object} {journal later : Journal σ}
    (builtin : ∀ declared ∈ definitions, executor.schema.BuiltinOnly declared.type.node)
    (coerced : executor.coerceVariables inputs place definitions journal =
      some (.ok bindings, later)) :
    (∀ entry ∈ bindings, ∃ declared ∈ definitions, declared.name.node = entry.1 ∧
        isNullOrEmpty entry.2 = false ∧ entry.2.Tidy ∧
        (entry.2.KeepsEmpty ↔ declared.KeepsEmpty executor.schema inputs)) ∧
      ∀ (field : Field) (definition : FieldDefinition),
        (∀ argument ∈ definition.arguments,
          executor.schema.BuiltinOnly argument.node.type.node) →
        ∀ context arguments after,
          executor.coerceArguments bindings field definition.arguments context =
            some (.ok arguments, after) →
          (Value.object arguments).Tidy ∧
            ((Value.object arguments).KeepsEmpty ↔ ∃ argument ∈ definition.arguments,
              argument.node.KeepsEmpty executor.schema bindings
                (field.argument? argument.node.name.node)) := by
  have enums := executor.schema.accepted_enums_named accepted
  have bound : ∀ entry ∈ bindings, ∃ declared ∈ definitions, declared.name.node = entry.1 ∧
      isNullOrEmpty entry.2 = false ∧ entry.2.Tidy ∧
      (entry.2.KeepsEmpty ↔ declared.KeepsEmpty executor.schema inputs) := by
    intro entry inside
    obtain ⟨declared, member, named, before, after, ran⟩ :=
      variable_values_declared coerced entry inside
    have told := coerce_variable_tells policy enums inputs declared (builtin declared member)
    exact ⟨declared, member, named, told.holds _ _ _ ran⟩
  refine ⟨bound, fun field definition plain context arguments after ran => ?_⟩
  have tidy : TidyValues bindings := tidy_values_of_each fun entry inside =>
    have ⟨_, _, _, present, tidy, _⟩ := bound entry inside
    ⟨present, tidy⟩
  exact (coerce_arguments_tell policy enums tidy definition.arguments plain).holds _ _ _ ran

/-! A dog that is called by its names, one of which is empty. -/

def callSource : String := "type Kennel\x7bcall(names:[String]):Int\x7d"

def callVariable : VariableDefinition where
  name := .unplaced "names"
  type := .unplaced (.list (.named "String"))
  default := none

def callInputs : Object := [("names", .list [.string ""])]

def emptyName : Literal := .list [.unplaced (.string "")]

def callField (names : Literal) : Field where
  aliasName := none
  name := .unplaced "call"
  arguments := some (.unplaced [⟨.unplaced "names", .unplaced names⟩])
  directives := none
  selections := none

def callExecutor (schema : Schema) : Executor Unit :=
  { kennel with schema := schema, isNullish := isNullOrEmpty }

/-- The names that a kennel calls, what the variable stands for, and what reaches callbacks. -/
def calls? (schema : Schema) : Option (FieldDefinition × Object × Object × Object) :=
  match schema.type? "String", (schema.type? "Kennel").bind fun type =>
      match type with
      | .object object => object.selectable? "call"
      | _ => none with
  | some (.scalar _), some definition =>
      match (callExecutor schema).coerceVariables callInputs .origin [callVariable] ⟨(), []⟩ with
      | some (.ok bindings, _) =>
          match (callExecutor schema).coerceArguments bindings (callField emptyName)
                definition.arguments (),
              (callExecutor schema).coerceArguments bindings (callField (.variable "names"))
                definition.arguments () with
          | some (.ok written, _), some (.ok passed, _) =>
              if definition.arguments.map (fun argument => (argument.node.name.node,
                  argument.node.type.node, argument.node.default.isNone)) =
                  [("names", .list (.named "String"), true)] then
                some (definition, bindings, written, passed)
              else none
          | _, _ => none
      | _ => none
  | _, _ => none

theorem calls_found :
    ((Schema.ofSource callSource "Kennel" none).toOption.bind calls?).isSome = true := by
  rw [Schema.of_source_spelled callSource String.toList_ofList]
  decide +kernel

theorem builtin_only_strings {schema : Schema} {scalar : ScalarType}
    (declared : schema.type? "String" = some (.scalar scalar)) :
    schema.BuiltinOnly (.list (.named "String")) := by
  intro name reached
  have same : name = "String" := by
    induction reached with
    | here => rfl
    | field _ declared' _ ih =>
        rw [ih, declared] at declared'
        cases declared'
  intro _ _
  rw [same]
  rfl

/-- What is passed in from outside keeps no empty name. -/
theorem call_variable_clean (schema : Schema) : ¬callVariable.KeepsEmpty schema callInputs := by
  rintro (⟨input, given, kept⟩ | ⟨-, default, written, -⟩)
  · cases given
    cases kept with
    | item member inside =>
        cases List.mem_singleton.mp member
        cases inside
    | only unlisted => exact unlisted _ rfl
  · cases written

/-- An empty name is kept where the request writes it, but not where a variable holds it. -/
theorem written_empty_name_kept :
    ∃ (executor : Executor Unit) (definition : FieldDefinition) (bindings written passed : Object),
      executor.schema.Accepted ∧ executor.isNullish = isNullOrEmpty ∧
        (∃ later, executor.coerceVariables callInputs .origin [callVariable] ⟨(), []⟩ =
          some (.ok bindings, later)) ∧
        (∃ after, executor.coerceArguments bindings (callField emptyName) definition.arguments () =
          some (.ok written, after)) ∧
        (∃ after, executor.coerceArguments bindings (callField (.variable "names"))
          definition.arguments () = some (.ok passed, after)) ∧
        (Value.object written).KeepsEmpty ∧ ¬(Value.object passed).KeepsEmpty := by
  obtain ⟨schema, ⟨definition, bindings, written, passed⟩, accepted, found⟩ :=
    Schema.accepted_of_found calls_found
  unfold calls? at found
  split at found
  · rename_i scalar definition' declared defined
    split at found
    · rename_i bindings' later bound
      split at found
      · rename_i written' after passed' after' wrote passed_on
        split at found
        · rename_i typed
          cases found
          obtain ⟨argument, only, same⟩ := List.map_eq_singleton_iff.mp typed
          obtain ⟨named, typed, undefaulted⟩ : argument.node.name.node = "names" ∧
              argument.node.type.node = .list (.named "String") ∧ argument.node.default = none := by
            simpa using same
          have strings := builtin_only_strings declared
          obtain ⟨held, reached⟩ := @empty_strings_explained _ (callExecutor schema) accepted rfl
            _ _ [callVariable] _ _ _ (List.forall_mem_singleton.mpr strings) bound
          have plain : ∀ argument ∈ definition.arguments,
              schema.BuiltinOnly argument.node.type.node := by
            rw [only]
            exact List.forall_mem_singleton.mpr (typed ▸ strings)
          have kept := (reached _ definition plain () _ _ wrote).2
          have dropped := (reached _ definition plain () _ _ passed_on).2
          refine ⟨callExecutor schema, definition, bindings, written, passed, accepted, rfl,
            ⟨later, bound⟩, ⟨_, wrote⟩, ⟨_, passed_on⟩, kept.mpr ?_, fun keeps => ?_⟩
          · refine ⟨argument, by simp [only], .inl ⟨.unplaced emptyName, ?_, ?_⟩⟩
            · rw [named]
              rfl
            · rw [typed]
              exact .here List.mem_cons_self ⟨rfl, .inl rfl⟩
          · obtain ⟨other, member, kept⟩ := dropped.mp keeps
            rw [only] at member
            cases List.mem_singleton.mp member
            rcases kept with ⟨literal, given, kept⟩ | ⟨-, default, given, -⟩
            · rw [named] at given
              cases given
              rw [typed] at kept
              cases kept with
              | bound kept =>
                  rcases variable_value_bound bindings "names" with absent | inside
                  · rw [absent] at kept
                    cases kept
                  · obtain ⟨_, member, -, -, -, same⟩ := held _ inside
                    cases List.mem_singleton.mp member
                    exact call_variable_clean schema (same.mp kept)
              | onlyHere single | only single => exact single
            · rw [undefaulted] at given
              cases given
        · cases found
      · cases found
    · cases found
  · cases found

end GraphQL
