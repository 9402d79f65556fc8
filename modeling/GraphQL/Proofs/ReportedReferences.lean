import GraphQL.Proofs.SpelledTexts
import GraphQL.Proofs.TypeReferences

/-!
The declared types of fields, arguments and input fields, as introspection reports them.

Each of these has a record, and in it a reference to its type. Asked for the type, the record is
answered by a chain from which the type is recovered. A request for a type by name is told so of all
its fields, with their arguments, and of all its input fields.
-/

namespace GraphQL

namespace Introspection

/--
The records that are reported of the fields, arguments and input fields of a type: the type of each
record in the introspection system, the record, and the type that is declared.
-/
inductive ReportsRef (schema : Schema) (type : TypeDefinition) :
    ObjectType → Value → TypeRef → Prop where
  | field {fields field} (declared : type.fields? = some fields) (member : field ∈ fields)
      (reported : reportsField schema type true field.node = true) :
      ReportsRef schema type fieldObject (fieldValue schema field.node) field.node.type.node
  | argument {fields field argument} (declared : type.fields? = some fields)
      (member : field ∈ fields) (reported : reportsField schema type true field.node = true)
      (inside : argument ∈ field.node.arguments) :
      ReportsRef schema type inputObject (inputValue schema argument.node) argument.node.type.node
  | inputField {input field} (declared : type = .inputObject input) (member : field ∈ input.fields) :
      ReportsRef schema type inputObject (inputValue schema field.node) field.node.type.node

/-- All types that a type declares of its fields, arguments and input fields. -/
def declaredRefs (type : TypeDefinition) : List TypeRef :=
  match type with
  | .inputObject input => input.fields.map (·.node.type.node)
  | _ => (type.fields?.getD []).flatMap fun field =>
      field.node.type.node :: field.node.arguments.map (·.node.type.node)

theorem ReportsRef.declared {schema : Schema} {type : TypeDefinition} {expected : ObjectType}
    {record : Value} {ref : TypeRef} (reports : ReportsRef schema type expected record ref) :
    ref ∈ declaredRefs type := by
  have from_field {fields field} (declared : type.fields? = some fields) (member : field ∈ fields)
      {ref : TypeRef} (inside : ref ∈ field.node.type.node ::
        field.node.arguments.map (·.node.type.node)) : ref ∈ declaredRefs type := by
    have among : ref ∈ (type.fields?.getD []).flatMap fun field =>
        field.node.type.node :: field.node.arguments.map (·.node.type.node) := by
      rw [declared]
      exact List.mem_flatMap.mpr ⟨field, member, inside⟩
    cases type with
    | inputObject _ => cases declared
    | _ => exact among
  cases reports with
  | field declared member _ => exact from_field declared member List.mem_cons_self
  | argument declared member _ inside =>
      exact from_field declared member (List.mem_cons_of_mem _ (List.mem_map_of_mem inside))
  | inputField declared member =>
      subst declared
      exact List.mem_map_of_mem member

section Asked

variable (selections : List Selection)

/-- The name and the type of an argument or input field. -/
def inputTypeAsked : List Field := [leaf "name", under "type" selections]

/-- The name and the type of a field, and those of its arguments. -/
def fieldTypeAsked : List Field :=
  [leaf "name", under "type" selections, under "args" (plainSelections (inputTypeAsked selections))]

/-- The types of the fields of a type and of its input fields. -/
def typesOfTypeAsked : List Field :=
  [filtered "fields" (some true) (plainSelections (fieldTypeAsked selections)),
    under "inputFields" (plainSelections (inputTypeAsked selections))]

/-- A type by its name, and of it the types of what it declares. -/
def typesOfType (typeName : String) : Field :=
  ⟨none, .unplaced "__type", some (.unplaced [nameArgument typeName]), none,
    some (plainSelections (typesOfTypeAsked selections))⟩

/-- A query for the types of what a type declares. -/
def typesOperation (typeName : String) : Operation :=
  ⟨.query, none, none, none, plainSelections [typesOfType selections typeName]⟩

variable {selections}

theorem types_operation_writable (filled : selections ≠ [])
    (writable : SelectionsWritable selections) (typeName : String) :
    (typesOperation selections typeName).Writable where
  name := nofun
  filled := nofun
  variableNames := nofun
  definitions := nofun
  directives := no_directives_writable
  selects := List.cons_ne_nil _ _
  selections := by
    have name : (Selection.field (.unplaced (leaf "name"))).Writable := leaf_writable (by decide)
    have type := under_writable filled writable (show Name.isValid "type" = true by decide)
    have inputs : SelectionsWritable (plainSelections (inputTypeAsked selections)) :=
      plain_writable (List.forall_mem_cons.mpr ⟨name, List.forall_mem_singleton.mpr type⟩)
    have arguments := under_writable (List.cons_ne_nil _ _) inputs
      (show Name.isValid "args" = true by decide)
    have own : SelectionsWritable (plainSelections (fieldTypeAsked selections)) :=
      plain_writable (List.forall_mem_cons.mpr ⟨name, List.forall_mem_cons.mpr
        ⟨type, List.forall_mem_singleton.mpr arguments⟩⟩)
    have fields := filtered_writable (List.cons_ne_nil _ _) own
      (show Name.isValid "fields" = true by decide) (some true)
    have inputFields := under_writable (List.cons_ne_nil _ _) inputs
      (show Name.isValid "inputFields" = true by decide)
    have argument : ArgumentsWritable (some (.unplaced [nameArgument typeName])) :=
      one_argument_writable (by decide) trivial
    have entry : (Selection.field (.unplaced (typesOfType selections typeName))).Writable :=
      ⟨⟨nofun, show Name.isValid "__type" = true by decide, argument, no_directives_writable⟩,
        List.cons_ne_nil _ _, plain_writable (List.forall_mem_cons.mpr
          ⟨fields, List.forall_mem_singleton.mpr inputFields⟩)⟩
    exact plain_writable (List.forall_mem_singleton.mpr entry)

theorem types_operation_placeless (same : placelessSelections selections = selections)
    (typeName : String) :
    (Definition.operation (.unplaced (typesOperation selections typeName))).placeless =
      .operation (.unplaced (typesOperation selections typeName)) := by
  have erased : (Definition.operation (.unplaced (typesOperation selections typeName))).placeless =
      .operation (.unplaced (typesOperation (placelessSelections selections) typeName)) := rfl
  rw [erased, same]

end Asked

section Whole

/-- Kinds, names and what is within have no places where they are asked for so. -/
theorem ref_fields_placeless (depth : Nat) :
    placelessSelections (plainSelections (refFields depth)) = plainSelections (refFields depth) := by
  induction depth with
  | zero => rfl
  | succ depth ih =>
      have erased : placelessSelections (plainSelections (refFields (depth + 1))) =
          plainSelections [leaf "kind", leaf "name",
            under "ofType" (placelessSelections (plainSelections (refFields depth)))] := rfl
      rw [erased, ih, refFields]

theorem ref_fields_plain (depth : Nat) : PlainFields (refFields depth) := by
  cases depth with
  | zero => exact ⟨by simp [refFields, leaf], by decide⟩
  | succ depth =>
      refine ⟨by simp [refFields, leaf, under], ?_⟩
      change ["kind", "name", "ofType"].Nodup
      decide

theorem ref_fields_named (depth : Nat) : AsksNamed ((refFields depth).map Field.alone) where
  named := by
    refine List.forall_mem_map.mpr ?_
    cases depth <;> simp [refFields, leaf, under, Field.alone, Field.responseKey, Located.unplaced]
  kind := by cases depth <;> exact List.mem_cons_self
  name := by cases depth <;> exact List.mem_cons_of_mem _ List.mem_cons_self

theorem ref_fields_keys (depth : Nat) :
    ∀ group ∈ (refFields depth).map Field.alone, group.key ∈ ["kind", "name", "ofType"] := by
  refine List.forall_mem_map.mpr ?_
  cases depth <;> simp [refFields, leaf, under, Field.alone, Field.responseKey, Located.unplaced]

/-- What is asked of a wrapper is what is asked of the reference within, and two fields before. -/
theorem ref_fields_wrapper {depth : Nat} {deeper : List (List Selection) → Prop}
    (within : deeper [plainSelections (refFields depth)]) :
    AsksWrapper ((refFields (depth + 1)).map Field.alone) deeper where
  toAsksNamed := ref_fields_named (depth + 1)
  within := List.mem_cons_of_mem _ (List.mem_cons_of_mem _ List.mem_cons_self)
  each := by
    have deep : deeper (under "ofType" (plainSelections (refFields depth))).alone.selectionSets := by
      rw [alone_selection_sets]
      exact within
    exact List.forall_mem_cons.mpr ⟨.inl List.mem_cons_self, List.forall_mem_cons.mpr
      ⟨.inl (List.mem_cons_of_mem _ List.mem_cons_self), List.forall_mem_singleton.mpr
        (.inr (.inl ⟨rfl, deep⟩))⟩⟩

/-- Asked for so often what is within, all references with no more wrappers are asked for. -/
theorem ref_fields_ask (schema : Schema) (scope : RequestScope) {ref : TypeRef} {depth : Nat}
    (deep : ref.wrappers ≤ depth) :
    AsksForRef schema scope ref [plainSelections (refFields depth)] := by
  have collected (depth : Nat) : asked schema scope [plainSelections (refFields depth)] =
      (refFields depth).map Field.alone := collect_plain (ref_fields_plain depth)
  induction ref generalizing depth with
  | named name =>
      rw [AsksForRef, collected]
      exact ⟨ref_fields_named depth, ref_fields_keys depth⟩
  | list element ih =>
      obtain ⟨left, rfl⟩ := Nat.exists_eq_add_one.mpr (Nat.zero_lt_of_lt deep)
      rw [AsksForRef, collected]
      exact ref_fields_wrapper (ih (Nat.le_of_succ_le_succ deep))
  | nonNull inner ih =>
      obtain ⟨left, rfl⟩ := Nat.exists_eq_add_one.mpr (Nat.zero_lt_of_lt deep)
      rw [AsksForRef, collected]
      exact ref_fields_wrapper (ih (Nat.le_of_succ_le_succ deep))

/-- The types of what a type declares can be asked for as deep as there is need. -/
theorem types_asked_for (typeName : String) (depth : Nat) :
    ∃ request, AsksOnly request (typesOperation (plainSelections (refFields depth)) typeName) := by
  have filled : plainSelections (refFields depth) ≠ [] := by
    cases depth <;> simp [refFields, plainSelections]
  exact operation_asked_for
    (types_operation_writable filled (plain_writable (ref_fields_writable depth)) typeName)
    (types_operation_placeless (ref_fields_placeless depth) typeName)

end Whole

section Reports

variable (schema : Schema) (record : TypeRef → Object)

def inputTypeReport (input : InputDefinition) : Object :=
  [("name", .string input.name.node), ("type", .object (record input.type.node))]

def inputTypeReports (inputs : List InputDefinition) : Value :=
  .list (inputs.map fun input => .object (inputTypeReport record input))

def fieldTypeReport (field : FieldDefinition) : Object :=
  [("name", .string field.name.node), ("type", .object (record field.type.node)),
    ("args", inputTypeReports record (field.arguments.map (·.node)))]

def typesReport (type : TypeDefinition) : Object :=
  [("fields", reportedFields schema type true fun field => .object (fieldTypeReport record field)),
    ("inputFields", inputFieldsOf type (inputTypeReports record))]

/-- The answer to the query, by the record of each type that is declared. -/
def typesAnswer (type : TypeDefinition) : Value :=
  .object [("data", .object [("__type", .object (typesReport schema record type))])]

end Reports

end Introspection

variable {σ : Type} {executor : Executor σ} {scope : RequestScope} {selections : List Selection}
  {depth : Nat}

/-- A reference is known, and asked for as deep as it has wrappers. -/
structure Introspection.RefAsked (schema : Schema) (scope : RequestScope)
    (selections : List Selection) (depth : Nat) (ref : TypeRef) : Prop where
  known : (schema.type? ref.innermost).isSome = true
  asks : AsksForRef schema scope ref [selections]
  deep : ref.wrappers ≤ depth

theorem Introspection.RefAsked.deeper {schema : Schema} {ref : TypeRef}
    (asked : RefAsked schema scope selections depth ref) :
    RefAsked schema scope selections (depth + 1) ref :=
  ⟨asked.known, asked.asks, Nat.le_succ_of_le asked.deep⟩

namespace Executor.Introspects

variable (introspects : executor.Introspects) {object : ObjectType}

include introspects

/-- What is reported has types that are known. -/
theorem reported_known {type : TypeDefinition} (among : type ∈ executor.schema.types)
    {expected : ObjectType} {source : Value} {ref : TypeRef}
    (reports : Introspection.ReportsRef executor.schema type expected source ref) :
    (executor.schema.type? ref.innermost).isSome = true := by
  have resolved := introspects.resolves type among
  cases reports with
  | field declared member _ =>
      have fields := resolved.output
      rw [declared] at fields
      exact kind_known (fields _ member).type
  | argument declared member _ inside =>
      have fields := resolved.output
      rw [declared] at fields
      exact input_known ((fields _ member).arguments _ inside)
  | inputField declared member =>
      subst declared
      exact input_known (resolved _ member)

/-- The type in a record is answered by the record of the reference. -/
theorem gives_ref {expected : ObjectType} (listed : expected ∈ Introspection.objects)
    (stands : object.Stands expected executor.schema)
    (declared : findField? "type" expected.fields =
      some (Introspection.plainField "type" (.nonNull (.named "__Type"))).node)
    {source : Value} {ref : TypeRef}
    (given : source.field? "type" = some (Introspection.typeRefValue executor.schema ref))
    (asked : Introspection.RefAsked executor.schema scope selections depth ref) :
    executor.Gives scope (depth + 1) object source (Introspection.under "type" selections).alone
      (.object (Introspection.refRecord executor.schema scope ref [selections])) := by
  obtain ⟨type, typed⟩ := introspects.holds.object Introspection.typeObject
    (by simp [Introspection.objects])
  obtain ⟨there, answers⟩ := introspects.ref_answered typed asked.known asked.asks asked.deep
  refine introspects.gives_plain listed stands rfl declared
    (show "type" ∉ "__typename" :: Introspection.resolvedFields by decide)
    (congrArg (·.getD .null) given) (Shows.required ?_ rfl rfl)
  exact .object typed.typed (introspects.present there) answers

/-- Whatever is reported stands for its object, and has its type answered. -/
theorem reported_given {type : TypeDefinition} {expected : ObjectType} {record : Value}
    {ref : TypeRef} (reports : Introspection.ReportsRef executor.schema type expected record ref) :
    ∃ object : ObjectType, object.Stands expected executor.schema ∧
      ∀ {scope selections depth},
        Introspection.RefAsked executor.schema scope selections depth ref →
          executor.Gives scope (depth + 1) object record
            (Introspection.under "type" selections).alone
            (.object (Introspection.refRecord executor.schema scope ref [selections])) := by
  cases reports with
  | field declared member reported =>
      have listed : Introspection.fieldObject ∈ Introspection.objects := by
        simp [Introspection.objects]
      obtain ⟨object, stands⟩ := introspects.holds.object _ listed
      exact ⟨object, stands, introspects.gives_ref listed stands rfl rfl⟩
  | argument declared member reported inside =>
      have listed : Introspection.inputObject ∈ Introspection.objects := by
        simp [Introspection.objects]
      obtain ⟨object, stands⟩ := introspects.holds.object _ listed
      exact ⟨object, stands, introspects.gives_ref listed stands rfl rfl⟩
  | inputField declared member =>
      have listed : Introspection.inputObject ∈ Introspection.objects := by
        simp [Introspection.objects]
      obtain ⟨object, stands⟩ := introspects.holds.object _ listed
      exact ⟨object, stands, introspects.gives_ref listed stands rfl rfl⟩

theorem input_type_answers (stands : object.Stands Introspection.inputObject executor.schema)
    {input : InputDefinition}
    (asked : Introspection.RefAsked executor.schema scope selections depth input.type.node) :
    AnswersEach executor scope (depth + 1) object (Introspection.inputValue executor.schema input)
      (Introspection.inputTypeAsked selections)
      (Introspection.inputTypeReport
        (Introspection.refRecord executor.schema scope · [selections]) input) := by
  have listed : Introspection.inputObject ∈ Introspection.objects := by
    simp [Introspection.objects]
  refine ⟨⟨by simp [Introspection.inputTypeAsked, Introspection.leaf, Introspection.under], ?_⟩,
    .cons ⟨rfl, ?_⟩ (.cons ⟨rfl, ?_⟩ .nil)⟩
  · change ["name", "type"].Nodup
    decide
  · exact introspects.gives_plain listed stands rfl rfl (by decide) rfl (introspects.shows_name _)
  · exact introspects.gives_ref listed stands rfl rfl asked

theorem shows_input_types {inputs : List InputDefinition}
    (asked : ∀ input ∈ inputs,
      Introspection.RefAsked executor.schema scope selections depth input.type.node) :
    executor.Shows scope (depth + 2) (Introspection.listOf "__InputValue")
      (.list (inputs.map (Introspection.inputValue executor.schema)))
      [plainSelections (Introspection.inputTypeAsked selections)]
      (Introspection.inputTypeReports
        (Introspection.refRecord executor.schema scope · [selections]) inputs) := by
  obtain ⟨type, stands⟩ := introspects.holds.object Introspection.inputObject
    (by simp [Introspection.objects])
  refine introspects.shows_objects stands.typed (fun _ _ => rfl) fun input member => ?_
  exact (introspects.input_type_answers stands (asked input member)).selected

theorem field_type_answers (stands : object.Stands Introspection.fieldObject executor.schema)
    {field : FieldDefinition}
    (own : Introspection.RefAsked executor.schema scope selections depth field.type.node)
    (inputs : ∀ argument ∈ field.arguments,
      Introspection.RefAsked executor.schema scope selections depth argument.node.type.node) :
    AnswersEach executor scope (depth + 2) object (Introspection.fieldValue executor.schema field)
      (Introspection.fieldTypeAsked selections)
      (Introspection.fieldTypeReport
        (Introspection.refRecord executor.schema scope · [selections]) field) := by
  have listed : Introspection.fieldObject ∈ Introspection.objects := by
    simp [Introspection.objects]
  have arguments := introspects.shows_input_types (List.forall_mem_map.mpr inputs)
  rw [List.map_map] at arguments
  refine ⟨⟨by simp [Introspection.fieldTypeAsked, Introspection.leaf, Introspection.under], ?_⟩,
    .cons ⟨rfl, ?_⟩ (.cons ⟨rfl, ?_⟩ (.cons ⟨rfl, ?_⟩ .nil))⟩
  · change ["name", "type", "args"].Nodup
    decide
  · exact introspects.gives_plain listed stands rfl rfl (by decide) rfl (introspects.shows_name _)
  · exact introspects.gives_ref listed stands rfl rfl own.deeper
  · exact introspects.gives_plain listed stands rfl rfl
      (show "args" ∉ "__typename" :: Introspection.resolvedFields by decide) rfl
      (arguments.required rfl rfl)

section Types

variable {definition : TypeDefinition} (among : definition ∈ executor.schema.types)
  (asked : ∀ {expected source ref},
    Introspection.ReportsRef executor.schema definition expected source ref →
      Introspection.RefAsked executor.schema scope selections depth ref)

include among asked

/-- The types of what a type declares are answered by the records of their references. -/
theorem types_answer (stands : object.Stands Introspection.typeObject executor.schema) :
    AnswersEach executor scope (depth + 3) object (Introspection.typeValue definition)
      (Introspection.typesOfTypeAsked selections)
      (Introspection.typesReport executor.schema
        (Introspection.refRecord executor.schema scope · [selections]) definition) := by
  have listed : Introspection.typeObject ∈ Introspection.objects := by
    simp [Introspection.objects]
  have found : executor.schema.type? definition.name = some definition :=
    (Document.type_found_iff introspects.distinct).mpr ⟨among, rfl⟩
  refine ⟨⟨by simp [Introspection.typesOfTypeAsked, Introspection.filtered, Introspection.under],
    ?_⟩, .cons ⟨rfl, ?_⟩ (.cons ⟨rfl, ?_⟩ .nil)⟩
  · change ["fields", "inputFields"].Nodup
    decide
  · exact introspects.gives_fields stands among (some true)
      fun object same fields declared field member reported _ =>
        introspects.field_type_answers same (asked (.field declared member reported))
          fun argument inside => asked (.argument declared member reported inside)
  · refine introspects.gives_resolved listed stands (List.mem_of_getElem? (i := 11) rfl) rfl
      (show "inputFields" ≠ "__typename" by decide) supplies_nothing
      (fun context own source _ => input_fields_found own source found) ?_
    cases definition with
    | inputObject input =>
        exact introspects.shows_input_types (List.forall_mem_map.mpr fun field member =>
          (asked (.inputField rfl member)).deeper)
    | _ => exact introspects.shows_null rfl

end Types

end Executor.Introspects

section Decoded

variable {source queryName : String} {mutationName : Option String} {given : Resolvers σ}
  {type : TypeDefinition}

/-- A request for the types of what a type declares is answered by the records of all of them. -/
theorem types_reported (built : executor.BuiltFrom source queryName mutationName given)
    (leaves : LeavesIntrospection queryName "__type" given) (among : type ∈ executor.schema.types)
    {request : String} {document : Document} (read : Document.ofSource request = .ok document)
    (selected : (document.seen undescribed).selectOperation none =
      .ok (.unplaced (Introspection.typesOperation selections type.name)))
    (asked : ∀ {expected record ref},
      Introspection.ReportsRef executor.schema type expected record ref →
        Introspection.RefAsked executor.schema ⟨document, []⟩ selections depth ref) (context : σ) :
    executor.execute (depth + 5) ⟨request, [], none⟩ context =
      some (.ok (Introspection.typesAnswer executor.schema
        (Introspection.refRecord executor.schema ⟨document, []⟩ · [selections]) type), context) := by
  have introspects := built.introspects leaves
  exact type_answered built leaves among read rfl rfl rfl rfl selected
    (fun object stands => (introspects.types_answer among asked stands).selected) context

/--
What is declared of a type, field, argument or input field, is told back by introspection. However
the kinds, the names and what is within are asked for, if only as deep as the wrappers go, the type
in a record is answered without an error by a chain of records of which each wrapper has a kind, no
name and none of the parts that are asked for, and the last the kind and name of the innermost type.
From the chain alone the reference is recovered. For each depth there is a request for all of them.
-/
theorem declared_types_told_back (built : executor.BuiltFrom source queryName mutationName given)
    (free : ∀ resolver ∈ given, ∀ typeName fieldName,
      resolverKey? resolver.1 = some (typeName, fieldName) →
        typeName ∉ Introspection.objects.map (·.name.node))
    (among : type ∈ executor.schema.types) :
    (∀ expected record ref, Introspection.ReportsRef executor.schema type expected record ref →
      ∃ object, executor.schema.type? expected.name.node = some (.object object) ∧
      (∀ scope depth, ref.wrappers ≤ depth → Introspection.AsksForRef executor.schema scope ref
        [plainSelections (Introspection.refFields depth)]) ∧
      ∀ scope selections, Introspection.AsksForRef executor.schema scope ref [selections] →
        Introspection.Tells executor.schema ref
          (Introspection.refRecord executor.schema scope ref [selections]) ∧
        Introspection.refTold? (.object
          (Introspection.refRecord executor.schema scope ref [selections])) = some ref ∧
        ∀ depth, ref.wrappers ≤ depth → executor.AnswersBy scope (depth + 2) object record
          [plainSelections [Introspection.under "type" selections]]
          [("type", .object (Introspection.refRecord executor.schema scope ref [selections]))]) ∧
    ((∀ resolver ∈ given, resolverKey? resolver.1 ≠ some (queryName, "__type")) →
      (∀ depth, ∃ request, AsksOnly request (Introspection.typesOperation
        (plainSelections (Introspection.refFields depth)) type.name)) ∧
      ∀ request document selections depth, Document.ofSource request = .ok document →
        (document.seen undescribed).selectOperation none =
          .ok (.unplaced (Introspection.typesOperation selections type.name)) →
        (∀ expected record ref, Introspection.ReportsRef executor.schema type expected record ref →
          Introspection.AsksForRef executor.schema ⟨document, []⟩ ref [selections] ∧
            ref.wrappers ≤ depth) →
        ∀ context, executor.execute (depth + 5) ⟨request, [], none⟩ context =
          some (.ok (Introspection.typesAnswer executor.schema
            (Introspection.refRecord executor.schema ⟨document, []⟩ · [selections]) type),
            context)) := by
  have introspects := built.introspects_free free
  refine ⟨fun expected record ref reports => ?_, fun own => ⟨fun depth =>
    Introspection.types_asked_for type.name depth,
    fun request document selections depth read selected asked context => ?_⟩⟩
  · have known := introspects.reported_known among reports
    obtain ⟨object, stands, gives⟩ := introspects.reported_given reports
    refine ⟨object, stands.typed, fun scope depth deep => Introspection.ref_fields_ask _ _ deep,
      fun scope selections asks => ?_⟩
    have tells := Introspection.ref_record_tells known asks
    refine ⟨tells, tells.recovered, fun depth deep => AnswersEach.selected
      ⟨⟨by simp [Introspection.under], List.pairwise_singleton _ _⟩, .cons ⟨rfl, ?_⟩ .nil⟩⟩
    exact gives ⟨known, asks, deep⟩
  · exact types_reported built ⟨free, own⟩ among read selected (fun reports =>
      ⟨introspects.reported_known among reports, (asked _ _ _ reports).1,
        (asked _ _ _ reports).2⟩) context

end Decoded

/-- A root whose types have wrappers within each other, in a field and in an argument. -/
def nestedSource : String := "type Q\x7ba(b:[Int]):[Q!]\x7d"

/-- The kinds and names in a type, and what is within it two times over. -/
def nestedText : String :=
  "type\x7bkind name ofType\x7bkind name ofType\x7bkind name\x7d\x7d\x7d"

def nestedRequest : String :=
  "\x7b__type(name:\"Q\")\x7bfields(includeDeprecated:true)\x7bname " ++ nestedText ++
    " args\x7bname " ++ nestedText ++ "\x7d\x7dinputFields\x7bname " ++ nestedText ++ "\x7d\x7d\x7d"

theorem nested_source_read :
    (Schema.ofSource nestedSource "Q" none).toOption.bind (fun schema =>
      (schema.types.find? (·.name == "Q")).map fun type =>
        (type.name, Introspection.declaredRefs type)) =
      some ("Q", [.list (.nonNull (.named "Q")), .list (.named "Int"),
        .nonNull (.named "__Schema"), .named "__Type", .nonNull (.named "String")]) := by
  rw [Schema.of_source_spelled nestedSource String.toList_ofList]
  decide +kernel

theorem nested_request_asks : AsksOnly nestedRequest
    (Introspection.typesOperation (plainSelections (Introspection.refFields 2)) "Q") := by
  have lexed : (TokenStream.ofSource nestedRequest).fault = none ∧
      Cursor.pieces (Cursor.attach [] (TokenStream.ofSource nestedRequest).tokens) =
        enclosed .braceOpen .braceClose (selectionPieces (Introspection.typesOperation
          (plainSelections (Introspection.refFields 2)) "Q").selections) ++
          [Token.endOfFile.plain] := by
    have spelled : nestedRequest.toList = _ := append_spelled (append_spelled (append_spelled
      (append_spelled (append_spelled (append_spelled String.toList_ofList String.toList_ofList)
      String.toList_ofList) String.toList_ofList) String.toList_ofList) String.toList_ofList)
      String.toList_ofList
    rw [TokenStream.ofSource, spelled]
    decide +kernel
  exact asks_only_printed (Introspection.types_operation_writable (List.cons_ne_nil _ _)
      (Introspection.plain_writable (Introspection.ref_fields_writable 2)) "Q")
    (Introspection.types_operation_placeless (Introspection.ref_fields_placeless 2) "Q")
    (.bareQuery _ ⟨rfl, rfl, rfl, rfl⟩) lexed.1 lexed.2

/-- All types in it are told back in answer to a request for them. -/
theorem nested_types_told_back :
    ∃ (executor : Executor Unit) (document : Document) (type : TypeDefinition)
      (record : TypeRef → Object),
      Executor.ofSource nestedSource "Q" none [] = .ok executor ∧ type ∈ executor.schema.types ∧
      Introspection.declaredRefs type =
        [.list (.nonNull (.named "Q")), .list (.named "Int"),
          .nonNull (.named "__Schema"), .named "__Type", .nonNull (.named "String")] ∧
      Document.ofSource nestedRequest = .ok document ∧
      executor.execute 7 ⟨nestedRequest, [], none⟩ () =
        some (.ok (Introspection.typesAnswer executor.schema record type), ()) ∧
      ∀ expected value ref, Introspection.ReportsRef executor.schema type expected value ref →
        Introspection.refTold? (.object (record ref)) = some ref := by
  obtain ⟨schema, accepted, found⟩ := Option.bind_eq_some_iff.mp nested_source_read
  obtain ⟨type, found, same⟩ := Option.map_eq_some_iff.mp found
  obtain ⟨named, declared⟩ := Prod.mk.inj same
  obtain ⟨(executor : Executor Unit), made, own, built⟩ :=
    executor_of_accepted (ok_of_to_option accepted) (List.forall_mem_nil _)
  obtain ⟨document, read, asks⟩ := nested_request_asks
  have among : type ∈ executor.schema.types := own ▸ List.mem_of_find?_eq_some found
  have selected : (document.seen undescribed).selectOperation none = .ok (.unplaced
      (Introspection.typesOperation (plainSelections (Introspection.refFields 2)) type.name)) := by
    rw [Document.selectOperation, Document.operations, asks, named]
    rfl
  have bounded : ∀ ref ∈ Introspection.declaredRefs type, ref.wrappers ≤ 2 := by
    rw [declared]
    decide
  obtain ⟨each, whole⟩ := @declared_types_told_back _ _ _ _ _ _ _ built (List.forall_mem_nil _) among
  have told {expected value ref}
      (reports : Introspection.ReportsRef executor.schema type expected value ref) :=
    each expected value ref reports
  have asked {expected value ref}
      (reports : Introspection.ReportsRef executor.schema type expected value ref) :
      Introspection.AsksForRef executor.schema ⟨document, []⟩ ref
        [plainSelections (Introspection.refFields 2)] := by
    obtain ⟨_, -, asks, -⟩ := told reports
    exact asks _ 2 (bounded ref reports.declared)
  refine ⟨executor, document, type, _, made, among, declared, read,
    (whole (List.forall_mem_nil _)).2 nestedRequest document _ 2 read selected
      (fun _ _ ref reports => ⟨asked reports, bounded ref reports.declared⟩) (),
    fun _ _ ref reports => ?_⟩
  obtain ⟨_, -, -, recovers⟩ := told reports
  exact (recovers _ _ (asked reports)).2.1

end GraphQL
