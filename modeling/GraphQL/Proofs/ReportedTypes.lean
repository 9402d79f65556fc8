import GraphQL.Proofs.ReportedParts

/-!
What the request for a whole schema is told of its parts.

A type is reported with everything it consists of: fields with their arguments, input fields,
interfaces, enum values and possible types. What a part does not have is null in its report. All
reports are answers without errors to the selections that ask for them.
-/

namespace GraphQL

namespace Introspection

/-- The fields that ask for a reference to a type, with `ofType` so many times within each other. -/
def refFields : Nat → List Field
  | 0 => [leaf "kind", leaf "name"]
  | depth + 1 => [leaf "kind", leaf "name", under "ofType" (plainSelections (refFields depth))]

/-- What is reported under `ofType`, where that is asked for. -/
def withinReport (inner : Nat → Value) : Nat → Object
  | 0 => []
  | depth + 1 => [("ofType", inner depth)]

/-- A reference to a type, or a type under wrappers, in answer to so many times `ofType`. -/
def wrapperReport (kind : TypeKind) (name : Value) (inner : Nat → Value) (depth : Nat) : Object :=
  ("kind", .string kind.text) :: ("name", name) :: withinReport inner depth

def namedReport (type : TypeDefinition) (depth : Nat) : Value :=
  .object (wrapperReport type.kind (.string type.name) (fun _ => .null) depth)

def refReport (schema : Schema) : TypeRef → Nat → Value
  | .named name, depth => ((schema.type? name).map (namedReport · depth)).getD .null
  | .list element, depth => .object (wrapperReport .list .null (refReport schema element) depth)
  | .nonNull inner, depth => .object (wrapperReport .nonNull .null (refReport schema inner) depth)

section Asked

/-- What is asked of an argument or input field. -/
def inputAsked : List Field :=
  [leaf "name", leaf "description", under "type" (spreadOf "TypeRef"), leaf "defaultValue"]

def fieldAsked : List Field :=
  [leaf "name", leaf "description", under "args" (spreadOf "InputValue"),
    under "type" (spreadOf "TypeRef"), leaf "isDeprecated", leaf "deprecationReason"]

def enumValueAsked : List Field :=
  [leaf "name", leaf "description", leaf "isDeprecated", leaf "deprecationReason"]

def typeAsked : List Field :=
  [leaf "kind", leaf "name", leaf "description",
    filtered "fields" (some true) (plainSelections fieldAsked),
    under "inputFields" (spreadOf "InputValue"), under "interfaces" (spreadOf "TypeRef"),
    filtered "enumValues" (some true) (plainSelections enumValueAsked),
    under "possibleTypes" (spreadOf "TypeRef")]

def directiveAsked : List Field :=
  [leaf "name", leaf "description", leaf "onOperation", leaf "onFragment", leaf "onField",
    under "args" (spreadOf "InputValue")]

def schemaAsked : List Field :=
  [under "queryType" (plainSelections [leaf "name"]),
    under "mutationType" (plainSelections [leaf "name"]),
    under "subscriptionType" (plainSelections [leaf "name"]),
    under "types" (spreadOf "FullType"),
    under "directives" (plainSelections directiveAsked)]

/-- A fragment that consists of fields. -/
def fragmentOn (name typeName : String) (fields : List Field) : Fragment :=
  ⟨.unplaced name, .unplaced typeName, none, plainSelections fields⟩

def requestOperation : Operation :=
  ⟨.query, some (.unplaced requestName), none, none,
    plainSelections [under "__schema" (plainSelections schemaAsked)]⟩

/-- The request for a whole schema without its places. -/
def requestDefinitions : List Definition :=
  [.operation (.unplaced requestOperation),
    .fragment (.unplaced (fragmentOn "FullType" "__Type" typeAsked)),
    .fragment (.unplaced (fragmentOn "InputValue" "__InputValue" inputAsked)),
    .fragment (.unplaced (fragmentOn "TypeRef" "__Type" (refFields 7)))]

end Asked

section Reports

variable (schema : Schema)

def inputReport (input : InputDefinition) : Object :=
  [("name", .string input.name.node), ("description", optionalText input.description),
    ("type", refReport schema input.type.node 7),
    ("defaultValue", optionalText (input.default.map fun value => value.node.print))]

def inputReports (inputs : List InputDefinition) : Value :=
  .list (inputs.map fun input => .object (inputReport schema input))

def fieldReport (field : FieldDefinition) : Object :=
  [("name", .string field.name.node), ("description", optionalText field.description),
    ("args", inputReports schema (field.arguments.map (·.node))),
    ("type", refReport schema field.type.node 7),
    ("isDeprecated", .bool field.deprecation.isDeprecated),
    ("deprecationReason", optionalText field.deprecation.reason?)]

def enumValueReport (value : EnumValueDefinition) : Object :=
  [("name", .string value.name.node), ("description", optionalText value.description),
    ("isDeprecated", .bool value.deprecation.isDeprecated),
    ("deprecationReason", optionalText value.deprecation.reason?)]

/-- The types of those names that there are. -/
def typeReports (names : List String) : Value :=
  .list ((names.filterMap schema.type?).map (namedReport · 7))

/-- The fields of an object or interface type that are reported, each as it is asked for. -/
def reportedFields (type : TypeDefinition) (flag : Bool) (report : FieldDefinition → Value) :
    Value :=
  (type.fields?.map fun fields =>
    .list (((fields.map (·.node)).filter (reportsField schema type flag)).map report)).getD .null

/-- The fields of an input object type, reported as they are asked for. -/
def inputFieldsOf (type : TypeDefinition) (report : List InputDefinition → Value) : Value :=
  match type with
  | .inputObject definition => report (definition.fields.map (·.node))
  | _ => .null

/-- The interfaces of an object type. -/
def interfacesOf (type : TypeDefinition) (report : List String → Value) : Value :=
  match type with
  | .object definition => report (definition.interfaces.map (·.node))
  | _ => .null

/-- The values of an enum type. -/
def enumValuesOf (type : TypeDefinition) (report : EnumValueDefinition → Value) : Value :=
  match type with
  | .enum definition => .list ((definition.values.map (·.node)).map report)
  | _ => .null

/-- The possible types of an abstract type. -/
def possibleTypesOf (type : TypeDefinition) (report : List String → Value) : Value :=
  if type.isAbstract then report (schema.possibleTypes type.name) else .null

/-- Everything that is reported of a type. -/
def typeReport (type : TypeDefinition) : Object :=
  [("kind", .string type.kind.text), ("name", .string type.name),
    ("description", optionalText type.description),
    ("fields", reportedFields schema type true fun field => .object (fieldReport schema field)),
    ("inputFields", inputFieldsOf type (inputReports schema)),
    ("interfaces", interfacesOf type (typeReports schema)),
    ("enumValues", enumValuesOf type fun value => .object (enumValueReport value)),
    ("possibleTypes", possibleTypesOf schema type (typeReports schema))]

/-- The argument of the directives that all executors know. -/
def conditionInput : InputDefinition :=
  ⟨.unplaced "if", some "The condition value", .unplaced (.nonNull (.named "Boolean")), none⟩

def directiveReport (name description : String) : Object :=
  [("name", .string name), ("description", .string description), ("onOperation", .bool false),
    ("onFragment", .bool true), ("onField", .bool true),
    ("args", inputReports schema [conditionInput])]

/-- A root is reported by its name. -/
def rootReport (name : Option String) : Value :=
  ((name.bind schema.type?).map fun type => .object [("name", .string type.name)]).getD .null

/-- Everything that is reported of a schema. -/
def schemaReport : Object :=
  [("queryType", rootReport schema (some schema.queryName)),
    ("mutationType", rootReport schema schema.mutationName), ("subscriptionType", .null),
    ("types", .list (schema.types.map fun type => .object (typeReport schema type))),
    ("directives", .list
      [.object (directiveReport schema "skip"
          "Conditionally exclude a field or fragment during execution"),
        .object (directiveReport schema "include"
          "Conditionally include a field or fragment during execution")])]

end Reports

end Introspection

section Known

variable {σ : Type} {schema : Schema}

theorem kind_known {name : String} (kind : (schema.document.kind? name).isSome = true) :
    (schema.type? name).isSome = true := by
  rwa [Document.kind?, Option.isSome_map] at kind

theorem input_known {input : InputDefinition} (resolved : input.Resolves schema.document.kind?) :
    (schema.type? input.type.node.innermost).isSome = true := by
  refine kind_known ?_
  have among : schema.document.kind? input.type.node.innermost ∈ _ := resolved
  simp only [List.mem_cons, List.not_mem_nil, or_false] at among
  rcases among with kind | kind | kind <;> rw [kind] <;> rfl

/-- The resolvers of a type find it by the name in its report. -/
theorem source_type_found {context : FieldContext σ} {type : TypeDefinition}
    (same : context.schema = schema) (source : context.source = Introspection.typeValue type)
    (found : schema.type? type.name = some type) :
    Introspection.sourceType? context = some type := by
  rw [Introspection.sourceType?, source, same]
  exact found

theorem flag_found {context : FieldContext σ} {flag : Bool}
    (arguments : context.arguments = [("includeDeprecated", .bool flag)]) :
    Introspection.includeDeprecated context = flag := by
  rw [Introspection.includeDeprecated, FieldContext.argument?, arguments]
  rfl

theorem fields_found {context : FieldContext σ} {type : TypeDefinition} {flag : Bool}
    (same : context.schema = schema) (source : context.source = Introspection.typeValue type)
    (found : schema.type? type.name = some type)
    (arguments : context.arguments = [("includeDeprecated", .bool flag)]) :
    Introspection.fields context =
      Introspection.reportedFields schema type flag (Introspection.fieldValue schema) := by
  rw [Introspection.fields, source_type_found same source found, flag_found arguments, same,
    Introspection.reportedFields]
  cases fields : type.fields? <;> simp [fields]

theorem enum_values_found {context : FieldContext σ} {type : TypeDefinition}
    (same : context.schema = schema) (source : context.source = Introspection.typeValue type)
    (found : schema.type? type.name = some type)
    (arguments : context.arguments = [("includeDeprecated", .bool true)]) :
    Introspection.enumValues context = Introspection.enumValuesOf type
      Introspection.enumValueValue := by
  rw [Introspection.enumValues, source_type_found same source found, flag_found arguments]
  cases type with
  | enum definition => simp [Introspection.enumValuesOf]
  | _ => rfl

theorem input_fields_found {context : FieldContext σ} {type : TypeDefinition}
    (same : context.schema = schema) (source : context.source = Introspection.typeValue type)
    (found : schema.type? type.name = some type) :
    Introspection.inputFields context = Introspection.inputFieldsOf type fun inputs =>
      .list (inputs.map (Introspection.inputValue schema)) := by
  rw [Introspection.inputFields, source_type_found same source found, same]
  cases type with
  | inputObject definition => simp [Introspection.inputFieldsOf]
  | _ => rfl

theorem interfaces_found {context : FieldContext σ} {type : TypeDefinition}
    (same : context.schema = schema) (source : context.source = Introspection.typeValue type)
    (found : schema.type? type.name = some type) :
    Introspection.interfaces context =
      Introspection.interfacesOf type (Introspection.typeValues schema) := by
  rw [Introspection.interfaces, source_type_found same source found, same]
  cases type <;> rfl

theorem possible_types_found {context : FieldContext σ} {type : TypeDefinition}
    (same : context.schema = schema) (source : context.source = Introspection.typeValue type)
    (found : schema.type? type.name = some type) :
    Introspection.possibleTypes context = Introspection.possibleTypesOf schema type
      (Introspection.typeValues schema) := by
  rw [Introspection.possibleTypes, source_type_found same source found, same]
  rfl

end Known

variable {σ : Type}

namespace Executor.Introspects

variable {executor : Executor σ} (introspects : executor.Introspects) {scope : RequestScope}
  {depth : Nat} {type : ObjectType}

include introspects

section References

variable (stands : type.Stands Introspection.typeObject executor.schema)

include stands

/-- The kind and the name are answered first, then what is within, if that is asked for. -/
theorem wrapper_answers {source inner name : Value} {kind : TypeKind} {answers : Nat → Value}
    (kinded : source.field? "kind" = some (.string kind.text))
    (named : (source.field? "name").getD .null = name)
    (text : ∀ depth, executor.Shows scope depth (.named "String") name [] name)
    (within : (source.field? "ofType").getD .null = inner)
    (shows : ∀ asked depth, asked < depth → executor.Shows scope depth (.named "__Type") inner
      [plainSelections (Introspection.refFields asked)] (answers asked))
    (asked : Nat) {depth : Nat} (deep : asked ≤ depth) :
    AnswersEach executor scope depth type source (Introspection.refFields asked)
      (Introspection.wrapperReport kind name answers asked) := by
  have listed : Introspection.typeObject ∈ Introspection.objects := by simp [Introspection.objects]
  have first : executor.Gives scope depth type source (Introspection.leaf "kind").alone
      (.string kind.text) :=
    introspects.gives_plain listed stands rfl rfl (by decide) (congrArg (·.getD .null) kinded)
      (introspects.shows_kind kind)
  have second : executor.Gives scope depth type source (Introspection.leaf "name").alone name :=
    introspects.gives_plain listed stands rfl rfl (by decide) named (text depth)
  cases asked with
  | zero => exact ⟨⟨by simp [Introspection.refFields, Introspection.leaf], by decide⟩,
      .cons ⟨rfl, first⟩ (.cons ⟨rfl, second⟩ .nil)⟩
  | succ asked =>
      have third : executor.Gives scope depth type source (Introspection.under "ofType"
          (plainSelections (Introspection.refFields asked))).alone (answers asked) :=
        introspects.gives_plain listed stands rfl rfl
          (show "ofType" ∉ "__typename" :: Introspection.resolvedFields by decide) within
          (shows asked depth deep)
      refine ⟨⟨by simp [Introspection.refFields, Introspection.leaf, Introspection.under], ?_⟩,
        .cons ⟨rfl, first⟩ (.cons ⟨rfl, second⟩ (.cons ⟨rfl, third⟩ .nil))⟩
      change ["kind", "name", "ofType"].Nodup
      decide

/-- A type is answered by its kind and name; it is no wrapper. -/
theorem named_answers (definition : TypeDefinition) (asked : Nat) {depth : Nat}
    (deep : asked ≤ depth) :
    AnswersEach executor scope depth type (Introspection.typeValue definition)
      (Introspection.refFields asked)
      (Introspection.wrapperReport definition.kind (.string definition.name) (fun _ => .null)
        asked) :=
  introspects.wrapper_answers stands rfl rfl (fun _ => introspects.shows_string _) rfl
    (fun _ _ _ => introspects.shows_null rfl) asked deep

/-- A reference is answered wrapper by wrapper. -/
theorem ref_answers (ref : TypeRef)
    (known : (executor.schema.type? ref.innermost).isSome = true) (asked : Nat) :
    ∃ answer, Introspection.refReport executor.schema ref asked = .object answer ∧
      (Introspection.typeRefValue executor.schema ref).isNull = false ∧
      ∀ depth, asked ≤ depth →
        AnswersEach executor scope depth type (Introspection.typeRefValue executor.schema ref)
          (Introspection.refFields asked) answer := by
  -- What is within a wrapper is answered by the hypothesis, one level further down.
  have wrapper {inner : TypeRef} {kind : TypeKind}
      (ih : ∀ asked, ∃ answer, Introspection.refReport executor.schema inner asked =
          .object answer ∧
        (Introspection.typeRefValue executor.schema inner).isNull = false ∧
        ∀ depth, asked ≤ depth →
          AnswersEach executor scope depth type (Introspection.typeRefValue executor.schema inner)
            (Introspection.refFields asked) answer) (asked depth : Nat) (deep : asked ≤ depth) :
      AnswersEach executor scope depth type
        (Introspection.wrapperValue kind (Introspection.typeRefValue executor.schema inner))
        (Introspection.refFields asked)
        (Introspection.wrapperReport kind .null (Introspection.refReport executor.schema inner)
          asked) := by
    refine introspects.wrapper_answers stands rfl rfl (fun _ => introspects.shows_null rfl) rfl
      (fun asked depth below => ?_) asked deep
    obtain ⟨answer, same, there, answers⟩ := ih asked
    obtain ⟨left, rfl⟩ := Nat.exists_eq_add_one.mpr (Nat.zero_lt_of_lt below)
    rw [same]
    exact .object stands.typed (introspects.present there)
      (answers left (Nat.le_of_lt_succ below)).selected
  induction ref generalizing asked with
  | named name =>
      obtain ⟨definition, found⟩ := Option.isSome_iff_exists.mp known
      have found : executor.schema.type? name = some definition := found
      rw [Introspection.refReport, Introspection.typeRefValue, Introspection.namedValue, found]
      exact ⟨_, rfl, rfl, fun _ deep => introspects.named_answers stands definition asked deep⟩
  | list element ih => exact ⟨_, rfl, rfl, wrapper (ih known) asked⟩
  | nonNull inner ih => exact ⟨_, rfl, rfl, wrapper (ih known) asked⟩

end References

section Parts

variable (shown : (scope.seen undescribed).document.definitions = Introspection.requestDefinitions)

include shown

omit introspects in
theorem fragment_found {name : String} {fragment : Located Fragment}
    (defined : (Introspection.requestDefinitions.filterMap Definition.fragment?).find?
      (fun fragment => fragment.node.name.node == name) = some fragment) :
    (scope.seen undescribed).document.fragment? name = some fragment := by
  rw [Document.fragment?, Document.fragments, shown, defined]

/-- A reference that is asked for by its fragment. -/
theorem shows_ref (ref : TypeRef)
    (known : (executor.schema.type? ref.innermost).isSome = true) (depth : Nat) :
    (Introspection.refReport executor.schema ref 7).isNull = false ∧
      executor.Shows scope (depth + 8) (.named "__Type")
        (Introspection.typeRefValue executor.schema ref) [spreadOf "TypeRef"]
        (Introspection.refReport executor.schema ref 7) := by
  obtain ⟨type, stands⟩ := introspects.holds.object Introspection.typeObject
    (by simp [Introspection.objects])
  obtain ⟨answer, same, there, answers⟩ := introspects.ref_answers stands ref known 7
  rw [same]
  refine ⟨rfl, .object stands.typed (introspects.present there) ?_⟩
  refine (answers (depth + 7) (Nat.le_add_left 7 depth)).spread (fragment_found shown rfl) rfl
    stands.named.symm rfl

theorem input_answers (stands : type.Stands Introspection.inputObject executor.schema)
    {input : InputDefinition} (resolved : input.Resolves executor.schema.document.kind?)
    (depth : Nat) :
    AnswersEach executor scope (depth + 8) type (Introspection.inputValue executor.schema input)
      Introspection.inputAsked (Introspection.inputReport executor.schema input) := by
  have listed : Introspection.inputObject ∈ Introspection.objects := by
    simp [Introspection.objects]
  obtain ⟨there, shows⟩ := introspects.shows_ref shown input.type.node (input_known resolved) depth
  refine ⟨⟨by simp [Introspection.inputAsked, Introspection.leaf, Introspection.under],
    by decide⟩, .cons ⟨rfl, ?_⟩ (.cons ⟨rfl, ?_⟩ (.cons ⟨rfl, ?_⟩ (.cons ⟨rfl, ?_⟩ .nil)))⟩
  · exact introspects.gives_plain listed stands rfl rfl (by decide) rfl (introspects.shows_name _)
  · exact introspects.gives_plain listed stands rfl rfl (by decide) rfl (introspects.shows_text _)
  · exact introspects.gives_plain listed stands rfl rfl (by decide) rfl (shows.required rfl there)
  · exact introspects.gives_plain listed stands rfl rfl (by decide) rfl (introspects.shows_text _)

theorem shows_inputs {inputs : List InputDefinition}
    (resolved : ∀ input ∈ inputs, input.Resolves executor.schema.document.kind?) (depth : Nat) :
    executor.Shows scope (depth + 9) (Introspection.listOf "__InputValue")
      (.list (inputs.map (Introspection.inputValue executor.schema))) [spreadOf "InputValue"]
      (Introspection.inputReports executor.schema inputs) := by
  obtain ⟨type, stands⟩ := introspects.holds.object Introspection.inputObject
    (by simp [Introspection.objects])
  refine introspects.shows_objects stands.typed (fun _ _ => rfl) fun input member => ?_
  exact (introspects.input_answers shown stands (resolved input member) depth).spread
    (fragment_found shown rfl) rfl stands.named.symm rfl

theorem field_answers (stands : type.Stands Introspection.fieldObject executor.schema)
    {field : FieldDefinition} (resolved : field.Resolves executor.schema.document.kind?)
    (depth : Nat) :
    AnswersEach executor scope (depth + 9) type (Introspection.fieldValue executor.schema field)
      Introspection.fieldAsked (Introspection.fieldReport executor.schema field) := by
  have listed : Introspection.fieldObject ∈ Introspection.objects := by
    simp [Introspection.objects]
  obtain ⟨there, shows⟩ := introspects.shows_ref shown field.type.node (kind_known resolved.type)
    (depth + 1)
  have inputs := introspects.shows_inputs shown (List.forall_mem_map.mpr resolved.arguments) depth
  rw [List.map_map] at inputs
  refine ⟨⟨by simp [Introspection.fieldAsked, Introspection.leaf, Introspection.under],
    by decide⟩, .cons ⟨rfl, ?_⟩ (.cons ⟨rfl, ?_⟩ (.cons ⟨rfl, ?_⟩ (.cons ⟨rfl, ?_⟩
      (.cons ⟨rfl, ?_⟩ (.cons ⟨rfl, ?_⟩ .nil)))))⟩
  · exact introspects.gives_plain listed stands rfl rfl (by decide) rfl (introspects.shows_name _)
  · exact introspects.gives_plain listed stands rfl rfl (by decide) rfl (introspects.shows_text _)
  · exact introspects.gives_plain listed stands rfl rfl (by decide) rfl (inputs.required rfl rfl)
  · exact introspects.gives_plain listed stands rfl rfl (by decide) rfl (shows.required rfl there)
  · exact introspects.gives_plain listed stands rfl rfl (by decide) rfl (introspects.shows_flag _)
  · exact introspects.gives_plain listed stands rfl rfl (by decide) rfl (introspects.shows_text _)

omit shown in
theorem enum_value_answers (stands : type.Stands Introspection.enumValueObject executor.schema)
    (value : EnumValueDefinition) (depth : Nat) :
    AnswersEach executor scope depth type (Introspection.enumValueValue value)
      Introspection.enumValueAsked (Introspection.enumValueReport value) := by
  have listed : Introspection.enumValueObject ∈ Introspection.objects := by
    simp [Introspection.objects]
  refine ⟨⟨by simp [Introspection.enumValueAsked, Introspection.leaf], by decide⟩,
    .cons ⟨rfl, ?_⟩ (.cons ⟨rfl, ?_⟩ (.cons ⟨rfl, ?_⟩ (.cons ⟨rfl, ?_⟩ .nil)))⟩
  · exact introspects.gives_plain listed stands rfl rfl (by decide) rfl (introspects.shows_name _)
  · exact introspects.gives_plain listed stands rfl rfl (by decide) rfl (introspects.shows_text _)
  · exact introspects.gives_plain listed stands rfl rfl (by decide) rfl (introspects.shows_flag _)
  · exact introspects.gives_plain listed stands rfl rfl (by decide) rfl (introspects.shows_text _)

/-- Types that are listed by name. -/
theorem shows_types (names : List String) (depth : Nat) :
    executor.Shows scope (depth + 8) (Introspection.listOf "__Type")
      (Introspection.typeValues executor.schema names) [spreadOf "TypeRef"]
      (Introspection.typeReports executor.schema names) := by
  obtain ⟨type, stands⟩ := introspects.holds.object Introspection.typeObject
    (by simp [Introspection.objects])
  refine introspects.shows_objects stands.typed (fun _ _ => rfl) fun definition _ => ?_
  exact (introspects.named_answers stands definition 7 (Nat.le_add_left 7 depth)).spread
    (fragment_found shown rfl) rfl stands.named.symm rfl

section Types

variable (stands : type.Stands Introspection.typeObject executor.schema)
  {definition : TypeDefinition} (among : definition ∈ executor.schema.types)

include stands among

omit shown in
/-- The fields of a type are reported, those that are asked for and as they are asked for. -/
theorem gives_fields (flag : Option Bool) {asked : List Field} {report : FieldDefinition → Object}
    (answers : ∀ (object : ObjectType), object.Stands Introspection.fieldObject executor.schema →
      ∀ fields, definition.fields? = some fields → ∀ field ∈ fields,
        Introspection.reportsField executor.schema definition (flag.getD false) field.node = true →
        field.node.Resolves executor.schema.document.kind? →
          AnswersEach executor scope depth object
            (Introspection.fieldValue executor.schema field.node) asked (report field.node)) :
    executor.Gives scope (depth + 1) type (Introspection.typeValue definition)
      (Introspection.filtered "fields" flag (plainSelections asked)).alone
      (Introspection.reportedFields executor.schema definition (flag.getD false)
        fun field => .object (report field)) := by
  have listed : Introspection.typeObject ∈ Introspection.objects := by
    simp [Introspection.objects]
  obtain ⟨object, same⟩ := introspects.holds.object Introspection.fieldObject
    (by simp [Introspection.objects])
  have found : executor.schema.type? definition.name = some definition :=
    (Document.type_found_iff introspects.distinct).mpr ⟨among, rfl⟩
  have resolved := (introspects.resolves definition among).output
  refine introspects.gives_resolved listed stands (List.mem_of_getElem? (i := 7) rfl) rfl
    (show "fields" ≠ "__typename" by decide) (introspects.supplies_flag flag rfl)
    (fun context own source given => fields_found own source found given) ?_
  rw [Introspection.reportedFields, Introspection.reportedFields]
  cases fields : definition.fields? with
  | none => exact introspects.shows_null rfl
  | some list =>
      rw [fields] at resolved
      refine introspects.shows_objects same.typed (fun _ _ => rfl) fun field member => ?_
      obtain ⟨there, reported⟩ := List.mem_filter.mp member
      obtain ⟨located, inside, rfl⟩ := List.mem_map.mp there
      exact (answers object same _ fields _ inside reported (resolved located inside)).selected

theorem type_answers (depth : Nat) :
    AnswersEach executor scope (depth + 10) type (Introspection.typeValue definition)
      Introspection.typeAsked (Introspection.typeReport executor.schema definition) := by
  have listed : Introspection.typeObject ∈ Introspection.objects := by
    simp [Introspection.objects]
  have found : executor.schema.type? definition.name = some definition :=
    (Document.type_found_iff introspects.distinct).mpr ⟨among, rfl⟩
  refine ⟨⟨by simp [Introspection.typeAsked, Introspection.leaf, Introspection.under,
    Introspection.filtered], by decide⟩, .cons ⟨rfl, ?_⟩ (.cons ⟨rfl, ?_⟩ (.cons ⟨rfl, ?_⟩
      (.cons ⟨rfl, ?_⟩ (.cons ⟨rfl, ?_⟩ (.cons ⟨rfl, ?_⟩ (.cons ⟨rfl, ?_⟩
        (.cons ⟨rfl, ?_⟩ .nil)))))))⟩
  · exact introspects.gives_plain listed stands rfl rfl (by decide) rfl (introspects.shows_kind _)
  · exact introspects.gives_plain listed stands rfl rfl (by decide) rfl
      (introspects.shows_string _)
  · exact introspects.gives_plain listed stands rfl rfl (by decide) rfl (introspects.shows_text _)
  · exact introspects.gives_fields stands among (some true) fun object same _ _ _ _ _ resolved =>
      introspects.field_answers shown same resolved depth
  · refine introspects.gives_resolved listed stands (List.mem_of_getElem? (i := 11) rfl) rfl
      (by decide) supplies_nothing
      (fun context own source _ => input_fields_found own source found) ?_
    have resolved := introspects.resolves definition among
    cases definition with
    | inputObject input =>
        exact introspects.shows_inputs shown (List.forall_mem_map.mpr resolved) (depth + 1)
    | _ => exact introspects.shows_null rfl
  · refine introspects.gives_resolved listed stands (List.mem_of_getElem? (i := 8) rfl) rfl
      (by decide) supplies_nothing
      (fun context own source _ => interfaces_found own source found) ?_
    cases definition with
    | object object => exact introspects.shows_types shown _ (depth + 2)
    | _ => exact introspects.shows_null rfl
  · refine introspects.gives_resolved listed stands (List.mem_of_getElem? (i := 10) rfl) rfl
      (by decide) (introspects.supplies_flag (some true) rfl)
      (fun context own source given => enum_values_found own source found given) ?_
    cases definition with
    | enum enum =>
        obtain ⟨object, same⟩ := introspects.holds.object Introspection.enumValueObject
          (by simp [Introspection.objects])
        exact introspects.shows_objects same.typed (fun _ _ => rfl) fun value _ =>
          (introspects.enum_value_answers same value (depth + 9)).selected
    | _ => exact introspects.shows_null rfl
  · refine introspects.gives_resolved listed stands (List.mem_of_getElem? (i := 9) rfl) rfl
      (by decide) supplies_nothing
      (fun context own source _ => possible_types_found own source found) ?_
    rw [Introspection.possibleTypesOf, Introspection.possibleTypesOf]
    split
    · exact introspects.shows_types shown _ (depth + 2)
    · exact introspects.shows_null rfl

end Types

theorem directive_answers (stands : type.Stands Introspection.directiveObject executor.schema)
    (name description : String) (depth : Nat) :
    AnswersEach executor scope (depth + 9) type
      (Introspection.directiveValue executor.schema name description)
      Introspection.directiveAsked
      (Introspection.directiveReport executor.schema name description) := by
  have listed : Introspection.directiveObject ∈ Introspection.objects := by
    simp [Introspection.objects]
  have condition : Introspection.conditionInput.Resolves executor.schema.document.kind? := by
    obtain ⟨definition, found⟩ := introspects.holds.scalar .boolean
    have kind : executor.schema.document.kind? "Boolean" = some .scalar :=
      congrArg (Option.map TypeDefinition.kind) found
    change executor.schema.document.kind? "Boolean" ∈ _
    rw [kind]
    exact List.mem_cons_self
  have inputs := introspects.shows_inputs shown (List.forall_mem_singleton.mpr condition) depth
  refine ⟨⟨by simp [Introspection.directiveAsked, Introspection.leaf, Introspection.under],
    by decide⟩, .cons ⟨rfl, ?_⟩ (.cons ⟨rfl, ?_⟩ (.cons ⟨rfl, ?_⟩ (.cons ⟨rfl, ?_⟩
      (.cons ⟨rfl, ?_⟩ (.cons ⟨rfl, ?_⟩ .nil)))))⟩
  · exact introspects.gives_plain listed stands rfl rfl (by decide) rfl (introspects.shows_name _)
  · exact introspects.gives_plain listed stands rfl rfl (by decide) rfl
      (introspects.shows_string _)
  · exact introspects.gives_plain listed stands rfl rfl (by decide) rfl (introspects.shows_flag _)
  · exact introspects.gives_plain listed stands rfl rfl (by decide) rfl (introspects.shows_flag _)
  · exact introspects.gives_plain listed stands rfl rfl (by decide) rfl (introspects.shows_flag _)
  · exact introspects.gives_plain listed stands rfl rfl (by decide) rfl (inputs.required rfl rfl)

omit shown in
/-- A root type is answered by its name, and null if there is none. -/
theorem shows_root (name : Option String) (depth : Nat) :
    executor.Shows scope (depth + 1) (.named "__Type")
      (name.elim .null (Introspection.namedValue executor.schema))
      [plainSelections [Introspection.leaf "name"]]
      (Introspection.rootReport executor.schema name) := by
  have listed : Introspection.typeObject ∈ Introspection.objects := by
    simp [Introspection.objects]
  obtain ⟨type, stands⟩ := introspects.holds.object _ listed
  cases name with
  | none => exact introspects.shows_null rfl
  | some name =>
      rw [Option.elim_some, Introspection.namedValue, Introspection.rootReport, Option.bind_some]
      cases executor.schema.type? name with
      | none => exact introspects.shows_null rfl
      | some definition =>
          refine .object stands.typed (introspects.present rfl) (AnswersEach.selected
            ⟨⟨by simp [Introspection.leaf], by decide⟩, .cons ⟨rfl, ?_⟩ .nil⟩)
          exact introspects.gives_plain listed stands rfl rfl (by decide) rfl
            (introspects.shows_string _)

theorem schema_answers (stands : type.Stands Introspection.schemaObject executor.schema)
    (rooted : (executor.schema.type? executor.schema.queryName).isSome = true) (depth : Nat) :
    AnswersEach executor scope (depth + 11) type (.object []) Introspection.schemaAsked
      (Introspection.schemaReport executor.schema) := by
  have listed : Introspection.schemaObject ∈ Introspection.objects := by
    simp [Introspection.objects]
  obtain ⟨typeObject, typeStands⟩ := introspects.holds.object Introspection.typeObject
    (by simp [Introspection.objects])
  obtain ⟨directiveObject, directiveStands⟩ := introspects.holds.object
    Introspection.directiveObject (by simp [Introspection.objects])
  refine ⟨⟨by simp [Introspection.schemaAsked, Introspection.under], by decide⟩,
    .cons ⟨rfl, ?_⟩ (.cons ⟨rfl, ?_⟩ (.cons ⟨rfl, ?_⟩ (.cons ⟨rfl, ?_⟩
      (.cons ⟨rfl, ?_⟩ .nil))))⟩
  · refine introspects.gives_resolved listed stands (List.mem_of_getElem? (i := 3) rfl) rfl
      (by decide) supplies_nothing (fun context own _ _ => by rw [own]) ?_
    obtain ⟨definition, found⟩ := Option.isSome_iff_exists.mp rooted
    refine (introspects.shows_root (some executor.schema.queryName) (depth + 10)).required rfl ?_
    rw [Introspection.rootReport, Option.bind_some, found]
    rfl
  · exact introspects.gives_resolved listed stands (List.mem_of_getElem? (i := 4) rfl) rfl
      (by decide) supplies_nothing (fun context own _ _ => by rw [own])
      (introspects.shows_root executor.schema.mutationName (depth + 10))
  · exact introspects.gives_resolved listed stands (List.mem_of_getElem? (i := 5) rfl) rfl
      (by decide) supplies_nothing (fun _ _ _ _ => rfl) (introspects.shows_null rfl)
  · refine introspects.gives_resolved listed stands (List.mem_of_getElem? (i := 2) rfl) rfl
      (by decide) supplies_nothing (fun context own _ _ => by rw [own]) ?_
    refine (introspects.shows_objects typeStands.typed (fun _ _ => rfl)
      fun definition among => ?_).required rfl rfl
    exact (introspects.type_answers shown typeStands among depth).spread
      (fragment_found shown rfl) rfl typeStands.named.symm rfl
  · refine introspects.gives_resolved listed stands (List.mem_of_getElem? (i := 6) rfl) rfl
      (by decide) supplies_nothing
      (fun context own _ _ => by rw [Introspection.directives, own]) ?_
    refine Executor.Shows.required ?_ rfl rfl
    have each (name description : String) :
        executor.Shows scope (depth + 11) (.nonNull (.named "__Directive"))
          (Introspection.directiveValue executor.schema name description)
          [plainSelections Introspection.directiveAsked]
          (.object (Introspection.directiveReport executor.schema name description)) :=
      (Executor.Shows.object directiveStands.typed (introspects.present rfl)
        (introspects.directive_answers shown directiveStands name description
          (depth + 1)).selected).required rfl rfl
    exact .list (introspects.present rfl) (.cons (each _ _) (.cons (each _ _) .nil))

end Parts

end Executor.Introspects

end GraphQL
