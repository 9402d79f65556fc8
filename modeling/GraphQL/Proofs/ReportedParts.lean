import GraphQL.Proofs.HeldTypes
import GraphQL.Proofs.OwnResolvers
import GraphQL.Proofs.SilentAnswers

/-!
What introspection reports, part by part.

Each part has an object type of the introspection system and is asked for some of its fields. Where
introspection is left to its own resolvers, the fields are answered without errors. A reference to a
type is followed as deep as `ofType` is asked for.
-/

namespace GraphQL

variable {σ : Type}

namespace Introspection

/-- A field that is asked for alone. -/
def leaf (name : String) : Field := ⟨none, .unplaced name, none, none, none⟩

/-- A field that is asked for with a selection set. -/
def under (name : String) (selections : List Selection) : Field :=
  ⟨none, .unplaced name, none, none, some selections⟩

/-- The argument that says whether to include what is deprecated. -/
def deprecatedArgument (flag : Bool) : Argument :=
  ⟨.unplaced "includeDeprecated", .unplaced (.bool flag)⟩

/-- A field that is asked for with a selection set, and with or without the argument. -/
def filtered (name : String) (flag : Option Bool) (selections : List Selection) : Field :=
  ⟨none, .unplaced name, flag.map fun flag => .unplaced [deprecatedArgument flag], none,
    some selections⟩

end Introspection

theorem alone_selection_sets (field : Field) :
    field.alone.selectionSets = field.selections.toList := by
  rw [FieldGroup.selectionSets, FieldGroup.fields, Field.alone]
  cases selected : field.selections <;> simp [Located.unplaced, selected]

/-- A literal that is one word, number or string and no name of something else. -/
def Literal.isSimple : Literal → Bool
  | .int _ | .float _ | .string _ | .bool _ | .enum _ => true
  | _ => false

theorem placeless_simple {literal other : Literal} (same : literal.placeless = other)
    (simple : other.isSimple = true) : literal = other := by
  subst same
  cases literal <;> simp_all [Literal.placeless, Literal.isSimple]

/-- An argument that is the only one is found as it is written. -/
theorem only_argument_found {arguments : Option (Located (List Argument))} {name : String}
    {literal : Literal} (simple : literal.isSimple = true)
    (same : placelessArguments arguments =
      some (.unplaced [⟨.unplaced name, .unplaced literal⟩])) :
    (findArgument? name arguments).map (fun literal => literal.node) = some literal := by
  have found := find_argument_placeless name arguments
  have only : findArgument? name (some (.unplaced [⟨.unplaced name, .unplaced literal⟩])) =
      some (.unplaced literal) := by simp [findArgument?, Located.unplaced]
  rw [same, only] at found
  obtain ⟨own, written, shown⟩ := Option.map_eq_some_iff.mp found.symm
  rw [written]
  exact congrArg some (placeless_simple (congrArg Located.node shown) simple)

/-- An executor of a closed schema that leaves the introspection types to their own resolvers. -/
structure Executor.Introspects (executor : Executor σ) : Prop where
  nullish : executor.isNullish = Value.isNull
  holds : executor.schema.HoldsIntrospection
  distinct : executor.schema.document.DistinctTypes
  resolves : ∀ type ∈ executor.schema.types, type.Resolves executor.schema.document.kind?
  unresolved : ∀ object ∈ Introspection.objects, ∀ name, name ∉ Introspection.resolvedFields →
    name ≠ "__typename" → executor.resolver? object.name.node name = none
  resolved : ∀ object ∈ Introspection.objects,
    ∀ entry ∈ Introspection.entryResolvers executor.schema, entry.typeName = object.name.node →
      executor.resolver? object.name.node entry.fieldName = some entry.resolver

/-- Where no resolver is given for an introspection type, these are left to their own resolvers. -/
theorem Executor.BuiltFrom.introspects_free {executor : Executor σ} {source queryName : String}
    {mutationName : Option String} {given : Resolvers σ}
    (built : executor.BuiltFrom source queryName mutationName given)
    (types : ∀ resolver ∈ given, ∀ typeName fieldName,
      resolverKey? resolver.1 = some (typeName, fieldName) →
        typeName ∉ Introspection.objects.map (·.name.node)) : executor.Introspects := by
  have holds := Schema.accepted_holds built.accepted
  have free {object : ObjectType} (listed : object ∈ Introspection.objects) (name : String) :
      ∀ resolver ∈ given, resolverKey? resolver.1 ≠ some (object.name.node, name) :=
    fun resolver there named => types resolver there _ _ named (List.mem_map_of_mem listed)
  exact
    { nullish := built.nullish
      holds := holds
      distinct := Schema.accepted_distinct built.accepted
      resolves := Schema.accepted_resolves built.accepted holds
      unresolved := fun object listed name own other =>
        built.unresolved (free listed name) own other
      resolved := fun object listed entry own same =>
        same ▸ built.resolved own (same ▸ free listed entry.fieldName) }

theorem Executor.BuiltFrom.introspects {executor : Executor σ} {source queryName entry : String}
    {mutationName : Option String} {given : Resolvers σ}
    (built : executor.BuiltFrom source queryName mutationName given)
    (leaves : LeavesIntrospection queryName entry given) : executor.Introspects :=
  built.introspects_free leaves.types

namespace Executor.Introspects

variable {executor : Executor σ} (introspects : executor.Introspects) {scope : RequestScope}
  {depth : Nat} {sets : List (List Selection)}

include introspects

theorem present {value : Value} (there : value.isNull = false) :
    executor.isNullish value = false := by rw [introspects.nullish, there]

section Leaves

theorem shows_null {type : TypeRef} (optional : type.isNonNull = false) :
    executor.Shows scope depth type .null sets .null :=
  .null optional (by rw [introspects.nullish]; rfl)

theorem shows_string (text : String) :
    executor.Shows scope depth (.named "String") (.string text) sets (.string text) := by
  obtain ⟨definition, found⟩ := introspects.holds.scalar .string
  exact @Executor.Shows.scalar _ _ _ _ _ _ _ .string _ found (introspects.present rfl) rfl

theorem shows_text (text : Option String) :
    executor.Shows scope depth (.named "String") (Introspection.optionalText text) sets
      (Introspection.optionalText text) := by
  cases text with
  | none => exact introspects.shows_null rfl
  | some text => exact introspects.shows_string text

theorem shows_name (text : String) :
    executor.Shows scope depth (.nonNull (.named "String")) (.string text) sets (.string text) :=
  (introspects.shows_string text).required rfl rfl

theorem shows_flag (flag : Bool) :
    executor.Shows scope depth (.nonNull (.named "Boolean")) (.bool flag) sets (.bool flag) := by
  obtain ⟨definition, found⟩ := introspects.holds.scalar .boolean
  exact (@Executor.Shows.scalar _ _ _ _ _ _ _ .boolean _ found (introspects.present rfl)
    rfl).required rfl rfl

theorem shows_kind (kind : TypeKind) :
    executor.Shows scope depth (.nonNull (.named "__TypeKind")) (.string kind.text) sets
      (.string kind.text) := by
  obtain ⟨definition, found⟩ := introspects.holds.kinds
  exact (Executor.Shows.enum found (introspects.present rfl)).required rfl rfl

/-- Items that are answered by objects make up a list without nulls. -/
theorem shows_objects {α : Type} {name : String} {type : ObjectType}
    (typed : executor.schema.type? name = some (.object type)) {items : List α} {value : α → Value}
    {report : α → Object} (there : ∀ item ∈ items, (value item).isNull = false)
    (answers : ∀ item ∈ items,
      executor.AnswersBy scope depth type (value item) sets (report item)) :
    executor.Shows scope depth (Introspection.listOf name) (.list (items.map value)) sets
      (.list (items.map fun item => .object (report item))) := by
  refine .list (introspects.present rfl) (List.forall₂_map_left_iff.mpr
    (List.forall₂_map_right_iff.mpr (List.forall₂_same.mpr fun item member => ?_)))
  exact (Executor.Shows.object typed (introspects.present (there item member))
    (answers item member)).required rfl rfl

end Leaves

section Fields

variable {object expected : ObjectType} (listed : expected ∈ Introspection.objects)
  (stands : object.Stands expected executor.schema) {source value answer : Value} {field : Field}
  {group : FieldGroup}

include listed stands

/-- A group that introspection does not resolve is answered by what the source has. -/
theorem gives_kept {name : String} {type : TypeRef} (asked : group.first.node.name.node = name)
    (declared : findField? name expected.fields = some (Introspection.plainField name type).node)
    (own : name ∉ "__typename" :: Introspection.resolvedFields)
    (given : (source.field? name).getD .null = value)
    (shows : executor.Shows scope depth type value group.selectionSets answer) :
    executor.Gives scope depth object source group answer := by
  subst asked
  obtain ⟨other, free⟩ := not_or.mp (mt List.mem_cons.mpr own)
  obtain ⟨definition, found, seen⟩ := stands.field _ _ declared
  have typed : definition.type.node = type := congrArg (fun field => field.type.node) seen
  refine ⟨definition, _, ?_, .by_name ?_, ?_⟩
  · exact (if_neg other).trans found
  · rw [stands.named]
    exact introspects.unresolved expected listed _ free other
  · rw [typed]
    exact given ▸ shows

/-- A field that introspection does not resolve is answered by what the source has. -/
theorem gives_plain {name : String} {type : TypeRef} (asked : field.name.node = name)
    (declared : findField? name expected.fields = some (Introspection.plainField name type).node)
    (own : name ∉ "__typename" :: Introspection.resolvedFields)
    (given : (source.field? name).getD .null = value)
    (shows : executor.Shows scope depth type value field.selections.toList answer) :
    executor.Gives scope depth object source field.alone answer :=
  introspects.gives_kept listed stands asked declared own given
    (alone_selection_sets field ▸ shows)

/-- A group that introspection resolves is answered by what its resolver gives. -/
theorem gives_computed {name : String} {definition : FieldDefinition}
    {function : FieldContext σ → Value} {arguments : Object}
    (asked : group.first.node.name.node = name)
    (entry : (⟨expected.name.node, name, .ofFunction function⟩ : ResolverEntry σ) ∈
      Introspection.entryResolvers executor.schema)
    (declared : findField? name expected.fields = some definition) (other : name ≠ "__typename")
    (supplied : ∀ own : FieldDefinition, (own.described undescribed).placeless = definition →
      executor.Supplies scope group.first.node own.arguments arguments)
    (same : ∀ context : FieldContext σ, context.schema = executor.schema →
      context.source = source → context.arguments = arguments → function context = value)
    (shows : executor.Shows scope depth definition.type.node value group.selectionSets answer) :
    executor.Gives scope depth object source group answer := by
  subst asked
  obtain ⟨own, found, seen⟩ := stands.field _ _ declared
  have typed : own.type.node = definition.type.node := congrArg (fun field => field.type.node) seen
  refine ⟨own, value, ?_, .by_function ?_ (supplied own seen) same, ?_⟩
  · exact (if_neg other).trans found
  · rw [stands.named]
    exact introspects.resolved expected listed _ entry rfl
  · rw [typed]
    exact shows

/-- A field that introspection resolves is answered by what its resolver gives. -/
theorem gives_resolved {definition : FieldDefinition} {function : FieldContext σ → Value}
    {arguments : Object}
    (entry : (⟨expected.name.node, field.name.node, .ofFunction function⟩ : ResolverEntry σ) ∈
      Introspection.entryResolvers executor.schema)
    (declared : findField? field.name.node expected.fields = some definition)
    (other : field.name.node ≠ "__typename")
    (supplied : ∀ own : FieldDefinition, (own.described undescribed).placeless = definition →
      executor.Supplies scope field own.arguments arguments)
    (same : ∀ context : FieldContext σ, context.schema = executor.schema →
      context.source = source → context.arguments = arguments → function context = value)
    (shows : executor.Shows scope depth definition.type.node value field.selections.toList answer) :
    executor.Gives scope depth object source field.alone answer :=
  introspects.gives_computed listed stands rfl entry declared other supplied same
    (alone_selection_sets field ▸ shows)

end Fields

section Arguments

omit introspects in
/-- A field without arguments is supplied with none. -/
theorem supplies_nothing {name : String} {type : TypeRef} {field : Field} (own : FieldDefinition)
    (seen : (own.described undescribed).placeless = (Introspection.plainField name type).node) :
    executor.Supplies scope field own.arguments [] := by
  have none_declared : (own.arguments.map (Located.map (InputDefinition.described undescribed))).map
      (Located.placeless InputDefinition.placeless) = [] :=
    congrArg FieldDefinition.arguments seen
  rw [List.map_map] at none_declared
  rw [List.map_eq_nil_iff.mp none_declared]
  exact .nothing

theorem scalar_coerced (values : Object) (scalar : BuiltinScalar) {literal : Literal}
    {answer : Value} (simple : literal.isSimple = true)
    (fits : scalar.coerce (literal.toValue values) = some answer) :
    executor.coerceLiteral values literal (.named scalar.name) = pure answer := by
  obtain ⟨definition, found⟩ := introspects.holds.scalar scalar
  have known : BuiltinScalar.ofName? scalar.name = some scalar := by cases scalar <;> decide
  have coerced (custom : ScalarHooks σ → Action σ FieldError Value) :
      InputShape.coerce executor.isNullish
        { settled := none
          elements := none
          named := executor.coerceNamed (executor.expandDefault values executor.schema.defaultCount)
            none custom (literal.toValue values) } (.named scalar.name) = pure answer := by
    simp only [InputShape.coerce, Executor.coerceNamed, found, known, Executor.coerceLeaf,
      Option.bind_some, fits]
    rfl
  rw [Executor.coerceLiteral, Executor.expandDefault]
  cases literal <;> cases simple
  all_goals
    rw [Executor.coerceLiteralWith]
    · exact coerced _
    all_goals simp

/-- An argument that is a condition is the one given, or else the one by default. -/
theorem condition_coerced (values : Object) (flag : Option Bool) (usual : Bool)
    {given default : Option (Located Literal)}
    (written : given.map (fun literal => literal.node) = flag.map .bool)
    (declared : default.map (fun literal => literal.node) = some (.bool usual)) :
    executor.givenOrDefault (executor.coerceLiteral values) (.named "Boolean") default
        (given.map fun literal => executor.coerceLiteral values literal.node) =
      pure (.bool (flag.getD usual)) := by
  obtain ⟨literal, rfl, same⟩ := Option.map_eq_some_iff.mp declared
  have absent : executor.isNullish .null = true := by rw [introspects.nullish]; rfl
  have there (flag : Bool) : executor.isNullish (.bool flag) = false := introspects.present rfl
  cases flag with
  | none =>
      obtain rfl := Option.map_eq_none_iff.mp written
      simp only [Executor.givenOrDefault, Option.map_none, pure_bind, absent, same]
      exact introspects.scalar_coerced values .boolean rfl rfl
  | some flag =>
      obtain ⟨own, rfl, shown⟩ := Option.map_eq_some_iff.mp written
      have coerced : executor.coerceLiteral values (.bool flag) (.named "Boolean") =
        pure (.bool flag) := introspects.scalar_coerced values .boolean rfl rfl
      simp only [Executor.givenOrDefault, Option.map_some, shown, TypeRef.nullable, coerced,
        pure_bind, there]
      rfl

omit introspects in
theorem written_flag {arguments : Option (Located (List Argument))} {flag : Option Bool}
    (same : placelessArguments arguments =
      flag.map fun flag => .unplaced [Introspection.deprecatedArgument flag]) :
    (findArgument? "includeDeprecated" arguments).map (fun literal => literal.node) =
      flag.map .bool := by
  cases flag with
  | none =>
      rw [Option.map_eq_none_iff.mp same]
      rfl
  | some flag => exact only_argument_found rfl same

/-- The argument is what is written, or that nothing deprecated is asked for. -/
theorem supplies_flag {name : String} {type : TypeRef} {field : Field} (flag : Option Bool)
    (asked : field.arguments = flag.map fun flag => .unplaced [Introspection.deprecatedArgument flag])
    (own : FieldDefinition)
    (seen : (own.described undescribed).placeless =
      (Introspection.filteredField name type).node) :
    executor.Supplies scope field own.arguments
      [("includeDeprecated", .bool (flag.getD false))] := by
  have declared : (own.arguments.map (Located.map (InputDefinition.described undescribed))).map
      (Located.placeless InputDefinition.placeless) = [Introspection.deprecatedToo] :=
    congrArg FieldDefinition.arguments seen
  rw [List.map_map] at declared
  obtain ⟨argument, only, shown⟩ := List.map_eq_singleton_iff.mp declared
  have same := congrArg Located.node shown
  have named : argument.node.name.node = "includeDeprecated" :=
    congrArg (fun input => input.name.node) same
  have typed : argument.node.type.node = .named "Boolean" :=
    congrArg (fun input => input.type.node) same
  have usual : argument.node.default.map (Located.placeless Literal.placeless) =
      some (.unplaced (.bool false)) := congrArg InputDefinition.default same
  intro located same_field
  have arguments : placelessArguments located.arguments =
      flag.map fun flag => .unplaced [Introspection.deprecatedArgument flag] :=
    (congrArg Field.arguments same_field).trans asked
  obtain ⟨literal, default, shown⟩ := Option.map_eq_some_iff.mp usual
  have declared : (some literal).map (fun literal => literal.node) = some (.bool false) :=
    congrArg some (placeless_simple (congrArg Located.node shown) rfl)
  have coerced := introspects.condition_coerced scope.variableValues flag false
    (written_flag arguments) declared
  have there : executor.isNullish (.bool (flag.getD false)) = false := introspects.present rfl
  rw [only, Executor.coerceArguments, Executor.coerceArguments, Executor.coerceArgument, named,
    typed, default, Field.argument?, coerced]
  have adapted (value : Value) : (ExceptT.adapt (InputError.invalidArgument "includeDeprecated")
      (pure value : Coercion σ Value) : Action σ InputError Value) = pure value := rfl
  simp only [adapted, pure_bind, there]
  rfl

end Arguments

end Executor.Introspects

end GraphQL
