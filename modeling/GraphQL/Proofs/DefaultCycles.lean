import GraphQL.Proofs.ComparedCoercions
import GraphQL.Proofs.ConstantArguments
import GraphQL.Proofs.FiniteDefaults
import GraphQL.Proofs.SpelledTexts

/-!
Input objects that refer to themselves.

A default can only call for itself along fields that refer from one input object to the next. So
coercion ends where no cycle of such references passes through a field that has a default. Input
objects may still refer to themselves: without defaults the input itself ends.
-/

namespace GraphQL

variable {σ ε α : Type}

/-- An input object has a field whose type is built from another one. -/
def Schema.RefersTo (schema : Schema) (outer inner : String) : Prop :=
  ∃ input, schema.type? outer = some (.inputObject input) ∧
    ∃ field ∈ input.fields, field.node.type.node.innermost = inner

/-- No cycle of references passes through an input field that has a default. -/
def Schema.DefaultsOffCycles (schema : Schema) : Prop :=
  ∀ name input, schema.type? name = some (.inputObject input) → ∀ field ∈ input.fields,
    field.node.default.isSome = true →
      ¬Relation.ReflTransGen schema.RefersTo field.node.type.node.innermost name

/-- From the type of a literal, references lead to the types of its parts. -/
theorem Literal.PartAt.refers {schema : Schema} {type position : TypeRef} {literal part : Literal}
    (inside : Literal.PartAt schema type literal position part) :
    Relation.ReflTransGen schema.RefersTo type.innermost position.innermost := by
  induction inside with
  | whole => exact .refl
  | required _ ih | element _ _ ih | only _ ih => exact ih
  | field declared member _ _ _ ih => exact .head ⟨_, declared, _, member, rfl⟩ ih

/-- Levels of names that references do not climb and that fields with a default go down. -/
def Schema.isLeveled (schema : Schema) (level : String → Nat) : Bool :=
  schema.types.all fun
    | .inputObject input => input.fields.all fun field =>
        let inner := level field.node.type.node.innermost
        decide (inner ≤ level input.name.node) &&
          (field.node.default.isNone || decide (inner < level input.name.node))
    | _ => true

theorem Schema.defaults_off_cycles_of_levels {schema : Schema} {level : String → Nat}
    (leveled : schema.isLeveled level = true) : schema.DefaultsOffCycles := by
  have steps {name : String} {input : InputObjectType}
      (declared : schema.type? name = some (.inputObject input)) {field : Located InputDefinition}
      (member : field ∈ input.fields) :
      level field.node.type.node.innermost ≤ level name ∧
        (field.node.default.isSome = true → level field.node.type.node.innermost < level name) := by
    have named : input.name.node = name := by
      simpa [TypeDefinition.name, TypeDefinition.locatedName] using List.find?_some declared
    have checked := List.all_eq_true.mp leveled _ (List.mem_of_find?_eq_some declared)
    have found := List.all_eq_true.mp checked field member
    rw [named, Bool.and_eq_true, Bool.or_eq_true, decide_eq_true_eq, decide_eq_true_eq] at found
    refine ⟨found.1, fun defaulted => found.2.resolve_left fun none => ?_⟩
    rw [Option.isSome_iff_ne_none] at defaulted
    exact defaulted (Option.isNone_iff_eq_none.mp none)
  intro name input declared field member defaulted leads
  have no_climb {outer inner : String} (leads : Relation.ReflTransGen schema.RefersTo outer inner) :
      level inner ≤ level outer := by
    induction leads with
    | refl => exact Nat.le_refl _
    | tail _ step ih =>
        obtain ⟨_, found, _, inside, rfl⟩ := step
        exact Nat.le_trans (steps found inside).1 ih
  exact Nat.not_le_of_lt ((steps declared member).2 defaulted) (no_climb leads)

variable {executor : Executor σ}

/-- A default calls for those of input objects that its type leads to. -/
theorem called_default_declared {outer inner : InputDefinition}
    (calls : Relation.TransGen executor.DefaultCalls outer inner) :
    ∃ name input, executor.schema.type? name = some (.inputObject input) ∧
      (∃ field ∈ input.fields, field.node = inner) ∧ inner.default.isSome = true ∧
      Relation.ReflTransGen executor.schema.RefersTo outer.type.node.innermost name := by
  induction calls with
  | single step =>
      obtain ⟨_, -, name, _, input, part, declared, member, defaulted, -⟩ := step
      exact ⟨name, input, declared, member, defaulted, part.refers⟩
  | tail _ step ih =>
      obtain ⟨_, _, declared, ⟨field, member, rfl⟩, -, leads⟩ := ih
      obtain ⟨_, -, name, _, input, part, declared', member', defaulted, -⟩ := step
      have refers : executor.schema.RefersTo _ field.node.type.node.innermost :=
        ⟨_, declared, field, member, rfl⟩
      exact ⟨name, input, declared', member', defaulted, (leads.tail refers).trans part.refers⟩

theorem Schema.DefaultsOffCycles.finite (off : executor.schema.DefaultsOffCycles) :
    executor.FiniteDefaults := by
  intro field cycle
  obtain ⟨name, input, declared, ⟨located, member, rfl⟩, defaulted, leads⟩ :=
    called_default_declared cycle
  exact off name input declared located member defaulted leads

/-- An action that ends leaves nothing to add for one that it is below. -/
theorem Below.eq_of_ends {first second : Action σ ε α} (below : Below first second)
    (ends : Ends first) : second = first := by
  funext context
  obtain ⟨outcome, ran⟩ := Option.isSome_iff_exists.mp (ends context)
  rw [ran, below _ _ ran]

section Ending

variable (returns : ∀ name, ∀ hooks ∈ executor.scalar? name, hooks.ReadsEnd)
  (finite : executor.FiniteDefaults)

include returns finite

/-- An input object is coerced to an end if what is given for its fields is. -/
theorem coerce_input_object_ends (values : Object) {name : String} {input : InputObjectType}
    (declared : executor.schema.type? name = some (.inputObject input)) (names : List String)
    {given : String → Option (TypeRef → Coercion σ Value)}
    (provided : ∀ name, ∀ coerce ∈ given name, ∀ type, Ends (coerce type)) :
    Ends (executor.coerceInputObject
      (executor.expandDefault values executor.schema.defaultCount) input names given) := by
  have each := endsJudgement.coerce_fields (no_rules executor) input.fields
    (fun field member _ => defaults_end returns finite values name input declared field member)
    fun field _ coerce found => (provided _ coerce found field.node.type.node.nullable).judged
  rw [Executor.coerceInputObject]
  split
  · exact fun _ => rfl
  · exact each.1.bind each.2 fun _ _ _ => rfl

end Ending

/--
Coercions of values and literals end at every type, and so does that of an input object whose given
fields can be coerced. The bound on the nesting of defaults is not what ends them: with a larger one
they are the same.
-/
theorem coercions_terminate (returns : ∀ name, ∀ hooks ∈ executor.scalar? name, hooks.ReadsEnd)
    (off : executor.schema.DefaultsOffCycles) (values : Object) :
    (∀ value type, Ends (executor.coerceInput values value type) ∧
        ∀ depth ≥ executor.schema.defaultCount,
          executor.coerceInputWith (executor.expandDefault values depth) value type =
            executor.coerceInput values value type) ∧
      (∀ literal type, Ends (executor.coerceLiteral values literal type) ∧
        ∀ depth > executor.schema.defaultCount,
          executor.expandDefault values depth literal type =
            executor.coerceLiteral values literal type) ∧
      ∀ name input, executor.schema.type? name = some (.inputObject input) → ∀ names given,
        (∀ name, ∀ coerce ∈ given name, ∀ type, Ends (coerce type)) →
          Ends (executor.coerceInputObject
              (executor.expandDefault values executor.schema.defaultCount) input names given) ∧
            ∀ depth ≥ executor.schema.defaultCount,
              executor.coerceInputObject (executor.expandDefault values depth) input names given =
                executor.coerceInputObject
                  (executor.expandDefault values executor.schema.defaultCount) input names
                  given := by
  have finite := off.finite
  have deeper {depth : Nat} (deep : depth ≥ executor.schema.defaultCount) :
      executor.schema.DefaultsBelow (executor.expandDefault values executor.schema.defaultCount)
        (executor.expandDefault values depth) :=
    fun _ _ _ _ _ default _ => expand_default_below executor values deep default.node
  refine ⟨fun value type => ?_, fun literal type => ?_, ?_⟩
  · have ends := coerce_input_ends returns finite values value type
    refine ⟨ends, fun depth deep => ?_⟩
    exact (coerce_input_below (.refl executor) (deeper deep) value type).eq_of_ends ends
  · have ends := coerce_literal_ends returns finite values literal type
    refine ⟨ends, fun depth deep => ?_⟩
    exact (expand_default_below executor values deep literal type).eq_of_ends ends
  · intro name input declared names given provided
    have ends := coerce_input_object_ends returns finite values declared names provided
    have alike (name : String) : Option.Rel BelowAtAll (given name) (given name) := by
      cases given name with
      | none => exact .none
      | some coerce => exact .some fun _ => .refl _
    refine ⟨ends, fun depth deep => ?_⟩
    exact (coerce_input_object_below (.refl executor) input (deeper deep name input declared) names
      alike).eq_of_ends ends

/-! Walks that go on with another walk, and so on. -/

def longWalkSource : String :=
  "input Walk{days:[Int!]!=1 next:Walk} type Kennel{walk(plan:Walk!):Int}"

def walkLevel (name : String) : Nat := if name = "Walk" then 1 else 0

/-- The walk of a schema with levels, and the field that another walk is written to. -/
def longWalk? (schema : Schema) : Option (InputObjectType × Located InputDefinition) :=
  match schema.type? "Walk" with
  | some (.inputObject input) =>
      match input.fields with
      | [_, next] =>
          if schema.isLeveled walkLevel ∧ schema.defaultCount = 1 ∧
              next.node.type.node.innermost = "Walk" then some (input, next)
          else none
      | _ => none
  | _ => none

theorem long_walk_found :
    ((Schema.ofSource longWalkSource "Kennel" none).toOption.bind longWalk?).isSome = true := by
  rw [Schema.of_source_spelled longWalkSource String.toList_ofList]
  decide +kernel

theorem long_walks_end :
    ∃ executor : Executor Unit, executor.schema.Accepted ∧
      executor.schema.RefersTo "Walk" "Walk" ∧ executor.schema.defaultCount = 1 ∧
      (∀ value type, Ends (executor.coerceInput [] value type)) ∧
      ∀ literal type, Ends (executor.coerceLiteral [] literal type) := by
  obtain ⟨schema, ⟨input, next⟩, accepted, found⟩ := Schema.accepted_of_found long_walk_found
  unfold longWalk? at found
  split at found
  · rename_i input' declared
    split at found
    · rename_i days next' fields
      split at found
      · rename_i known
        cases found
        obtain ⟨leveled, counted, again⟩ := known
        have refers : schema.RefersTo "Walk" "Walk" :=
          ⟨input, declared, next, by rw [fields]; simp, again⟩
        obtain ⟨inputs, literals, -⟩ := @coercions_terminate _ (walkExecutor schema)
          (fun _ _ absent => by cases absent) (Schema.defaults_off_cycles_of_levels leveled) []
        exact ⟨walkExecutor schema, accepted, refers, counted,
          fun value type => (inputs value type).1, fun literal type => (literals literal type).1⟩
      · cases found
    · cases found
  · cases found

end GraphQL
