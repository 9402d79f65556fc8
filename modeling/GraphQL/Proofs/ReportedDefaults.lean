import GraphQL.Introspection.Resolvers
import GraphQL.Proofs.ConstantArguments
import GraphQL.Proofs.DeclaredInputs
import GraphQL.Proofs.RereadCoercion
import GraphQL.Proofs.SpelledTexts

/-!
Defaults are reported as what they mean.

Introspection reports the default of an argument or an input field as text. The text is that of a
literal, and at the declared type the literal is coerced to what the default is coerced to. Floats
stand for themselves if they are no whole numbers. One that is a whole number is read as an integer, so
this is so only for 32 bits, and at `Int` only if the integer is the number itself.
-/

namespace GraphQL

variable {σ : Type}

/-- Read back from its report and coerced at its type, a default is worth what it was. -/
theorem reported_defaults_read_back {source queryName : String} {mutationName : Option String}
    {executor : Executor σ}
    (built : Schema.ofSource source queryName mutationName = .ok executor.schema)
    {type : TypeDefinition} (declared : type ∈ executor.schema.types) {input : InputDefinition}
    (among : input ∈ type.inputs) {default : Located Literal} (given : default ∈ input.default)
    (legible : ∀ x ∈ default.node.floats, x.Legible)
    (plain : default.node.PlainAt executor.schema input.type.node)
    {values : Object} {context later : σ} {value : Value}
    (coerced : executor.coerceLiteral values default.node input.type.node context =
      some (.ok value, later)) :
    ∃ text literal,
      (Introspection.inputValue executor.schema input).field? "defaultValue" = some (.string text) ∧
      Literal.ofText? text.toList = some literal ∧
      executor.coerceLiteral values literal input.type.node context = some (.ok value, later) := by
  have formed := Schema.accepted_defaults_formed built declared among given
  obtain ⟨printed, spelled⟩ := formed.reread legible
  obtain ⟨literal, read, same⟩ := spelled.read_back
  have follows := literal_follows executor values
    (executor.expandDefault values executor.schema.defaultCount) same legible _ plain
  refine ⟨default.node.print, literal, ?_, printed ▸ read, follows.holds _ _ _ coerced⟩
  rw [Introspection.inputValue, Option.mem_def.mp given]
  rfl

/-- Where a scalar that is no input object is the innermost type, all parts of a literal stand at it. -/
theorem Literal.PartAt.innermost {schema : Schema} {type position : TypeRef}
    {literal part : Literal} (within : Literal.PartAt schema type literal position part)
    (scalar : ∀ input, schema.type? type.innermost ≠ some (.inputObject input)) :
    position.innermost = type.innermost := by
  induction within with
  | whole => rfl
  | required _ ih => exact ih scalar
  | element _ _ ih => exact ih scalar
  | only _ ih => exact ih scalar
  | field declared => exact absurd declared (scalar _)

/-- A literal at wrappers of a built-in scalar other than `Int` is plain there. -/
theorem Literal.plain_at_scalar {schema : Schema} {type : TypeRef} {scalar : BuiltinScalar}
    (named : type.innermost = scalar.name) (other : scalar ≠ .int)
    (declared : ∀ input, schema.type? scalar.name ≠ some (.inputObject input)) (literal : Literal) :
    literal.PlainAt schema type := by
  have stands {position : TypeRef} {part : Literal}
      (within : Literal.PartAt schema type literal position part) :
      position.innermost = scalar.name :=
    (within.innermost (named ▸ declared)).trans named
  constructor
  · rintro position part within ⟨-, unknown⟩
    rw [stands within] at unknown
    cases scalar <;> cases unknown
  · intro position x within int
    rw [stands within] at int
    cases scalar with
    | int => exact absurd rfl other
    | _ => exact absurd int (by decide)

/-- A fraction, a whole number with a point and one with an exponent. -/
def samplesSource : String := "type Q{f(x:[Float!]=[1e-3,25.0,1e9]):Int}"

def samplesType : TypeRef := .list (.nonNull (.named "Float"))

def sampleFloats : List Single :=
  [.ofDecimal .single false 1 (-3), .ofDecimal .single false 250 (-1), .ofDecimal .single false 1 9]

theorem samples_legible : ∀ x ∈ sampleFloats, x.Legible := by
  have fraction : (Binary.ofDecimal .single false 1 (-3) : Single).isFraction = true := by decide
  have short : (Binary.ofDecimal .single false 250 (-1) : Single) = .ofInt .single 25 := by decide
  have long : DecimalStyle.plain.write (.ofDecimal .single false 1 9 : Single) =
      toString (Int32.toInt 1000000000) := by decide +kernel
  simp only [sampleFloats, List.forall_mem_cons]
  exact ⟨.inl fraction, short ▸ (Single.small_integer_legible (by decide)).1,
    .inr (.inl ⟨1000000000, long⟩), List.forall_mem_nil _⟩

/-- The argument that has the samples for its default, where they are coerced. -/
def samplesIn? (schema : Schema) :
    Option (TypeDefinition × InputDefinition × Located Literal × Value) :=
  schema.types.findSome? fun type => type.inputs.findSome? fun input =>
    match input.default with
    | none => none
    | some default =>
        if input.type.node = samplesType ∧ default.node.floats = sampleFloats ∧
            (schema.type? "Float").map TypeDefinition.kind = some .scalar then
          match (walkExecutor schema).coerceLiteral [] default.node input.type.node () with
          | some (.ok value, _) => some (type, input, default, value)
          | _ => none
        else none

theorem samples_found :
    ((Schema.ofSource samplesSource "Q" none).toOption.bind samplesIn?).isSome = true := by
  rw [Schema.of_source_spelled samplesSource String.toList_ofList]
  decide +kernel

/-- Each sample is worth the same once it is read back. -/
theorem samples_read_back :
    ∃ (schema : Schema) (type : TypeDefinition) (input : InputDefinition)
      (default : Located Literal) (value : Value),
      Schema.ofSource samplesSource "Q" none = .ok schema ∧ type ∈ schema.types ∧
      input ∈ type.inputs ∧ default ∈ input.default ∧ default.node.floats = sampleFloats ∧
      (∀ x ∈ default.node.floats, x.Legible) ∧
      default.node.PlainAt schema input.type.node ∧
      (walkExecutor schema).coerceLiteral [] default.node input.type.node () =
        some (.ok value, ()) ∧
      ∃ text literal,
        (Introspection.inputValue schema input).field? "defaultValue" = some (.string text) ∧
        Literal.ofText? text.toList = some literal ∧
        (walkExecutor schema).coerceLiteral [] literal input.type.node () =
          some (.ok value, ()) := by
  obtain ⟨schema, ⟨type, input, default, value⟩, built, found⟩ :=
    Schema.found_in_source samples_found
  obtain ⟨_, declared, inner⟩ := List.exists_of_findSome?_eq_some found
  obtain ⟨_, among, chosen⟩ := List.exists_of_findSome?_eq_some inner
  split at chosen
  · cases chosen
  rename_i given
  split at chosen
  · rename_i checked
    obtain ⟨typed, floats, known⟩ := checked
    split at chosen
    · rename_i coerced
      cases chosen
      have legible : ∀ x ∈ default.node.floats, x.Legible := floats ▸ samples_legible
      have scalar : ∀ input, schema.type? "Float" ≠ some (.inputObject input) := by
        intro input same
        rw [same] at known
        cases known
      have plain : default.node.PlainAt schema input.type.node :=
        @Literal.plain_at_scalar _ _ .float (by rw [typed]; rfl) (by simp) scalar _
      exact ⟨schema, type, input, default, value, built, declared, among, given, floats, legible,
        plain, coerced, @reported_defaults_read_back _ _ _ _ (walkExecutor schema) built _ declared
          _ among _ given legible plain _ _ _ _ coerced⟩
    · cases chosen
  · cases chosen

end GraphQL
