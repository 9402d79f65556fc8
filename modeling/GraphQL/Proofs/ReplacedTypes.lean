import GraphQL.Proofs.ReplacedRequests

/-!
Definitions of the schema language, and whole documents, in two sources that differ in one word.

Directives leave nothing in these definitions but deprecations; their arguments are lists that were
compared all the same. A name that is compared with enum values must be able to be one of them.
-/

namespace GraphQL.Reader

variable {change : Replacement} {apt bare : Prop} {ahead : Located Token → Prop}

section Inputs

theorem input_definition_followed :
    Follows change apt False inputDefinition inputDefinition
      (fun input copy => change.Names (inputKey input) (inputKey copy))
      fun input => Tells [inputKey input] ((inputKey input).Valid ∧ input.node.WellFormed)
        (DefaultLists input.node.default) := by
  unfold inputDefinition
  refine Glances.description.bind fun description _ _ => ?_
  refine FollowsFrom.name.bind fun inputName copy own lists like told => ?_
  obtain ⟨rfl, rfl, valid, _⟩ := told
  refine (FollowsFrom.expect (by simp)).step fun colon _ _ _ => ?_
  refine type_ref_followed.step fun type _ _ typed => ?_
  refine default_value_followed.bind fun value _ own lists _ told => ?_
  obtain ⟨rfl, good, inside⟩ := told
  refine directives_followed.bind fun marks _ own more _ told => ?_
  obtain ⟨rfl, -, -⟩ := told
  refine .pure like ⟨rfl, ⟨valid, typed, good⟩, fun list there => ?_⟩
  exact List.mem_append_right [] (List.mem_append_left _ (inside list there))

abbrev InputsTold (kind : NameKind) (inputs : List (Located InputDefinition)) :
    List (Located String) → List NameList → Prop :=
  Tells [] (InputsWellFormed inputs) (InputsList kind inputs)

theorem inputs_told {kind : NameKind} {inputs : List (Located InputDefinition)}
    {own : List (Located String)} {lists : List NameList}
    (told : EachTold (fun input => Tells [inputKey input]
      ((inputKey input).Valid ∧ input.node.WellFormed) (DefaultLists input.node.default))
      inputs own lists) (names : NamesInOrder (inputs.map inputKey)) :
    InputsTold kind inputs [] ((kind, inputs.map inputKey) :: lists) where
  own := rfl
  good := ⟨names.keyed, fun input member =>
    have ⟨_, _, each, _⟩ := told.member member
    each.good.2⟩
  inside list there := by
    cases there with
    | names => exact List.mem_cons_self
    | default member inside =>
        obtain ⟨_, _, each, among⟩ := told.member member
        exact List.mem_cons_of_mem _ (among (each.inside list inside))

theorem input_definitions_followed {opening closing : Punctuator} (kind : NameKind)
    (opens : opening ≠ .at) (closes : closing ≠ .at) :
    FollowsFrom change apt ahead bare (inputDefinitions opening closing kind)
      (inputDefinitions opening closing kind) (fun _ _ => True) fun list own lists =>
        InputsTold kind list.node own lists ∧ list.node ≠ [] := by
  unfold inputDefinitions
  exact named_list_followed True input_definition_followed (fun _ good => good.1)
    (fun _ _ _ => trivial) opens closes fun _ _ _ told filled names =>
      ⟨inputs_told told names, filled⟩

theorem no_inputs_told {kind : NameKind} : InputsTold kind [] [] [] where
  own := rfl
  good := {
    keyed := {
      names := ⟨⟨List.forall_mem_nil _, List.nodup_nil⟩, .nil⟩
      found := List.forall_mem_nil _ }
    each := List.forall_mem_nil _ }
  inside list there := by
    cases there with
    | names filled => exact absurd rfl filled
    | default member => cases member

end Inputs

section Fields

abbrev FieldTold (field : Located FieldDefinition) : List (Located String) → List NameList → Prop :=
  Tells [fieldKey field] ((fieldKey field).Valid ∧ field.node.WellFormed)
    (InputsList .argument field.node.arguments)

/-- What follows the arguments of a field definition: its type and its directives. -/
theorem field_type_followed {name copy : Located String} (like : change.Names name copy)
    (valid : name.Valid) {description other : Option String}
    {inputs others : List (Located InputDefinition)} {lists : List NameList}
    (told : InputsTold .argument inputs [] lists) :
    FollowsFrom change apt ahead False
      (do
        let _ ← expect (.punctuator .colon)
        let type ← typeRef
        let marks ← directives
        pure (.between name.span.start (directivesStop marks type.span.stop)
          ⟨name, description, inputs, type, deprecation marks⟩ : Located FieldDefinition))
      (do
        let _ ← expect (.punctuator .colon)
        let type ← typeRef
        let marks ← directives
        pure (.between copy.span.start (directivesStop marks type.span.stop)
          ⟨copy, other, others, type, deprecation marks⟩ : Located FieldDefinition))
      (fun field copy => change.Names (fieldKey field) (fieldKey copy))
      fun field own more => FieldTold field ([name] ++ own) (lists ++ more) := by
  refine (FollowsFrom.expect (by simp)).step fun colon _ _ _ => ?_
  refine type_ref_followed.step fun type _ _ typed => ?_
  refine directives_followed.bind fun marks _ own more _ marked => ?_
  obtain ⟨rfl, -, -⟩ := marked
  refine .pure like ⟨rfl, ⟨valid, told.good, typed⟩, fun list there => ?_⟩
  exact List.mem_append_left _ (told.inside list there)

theorem field_definition_followed :
    Follows change apt False fieldDefinition fieldDefinition
      (fun field copy => change.Names (fieldKey field) (fieldKey copy)) FieldTold := by
  unfold fieldDefinition
  refine Glances.description.bind fun description _ _ => ?_
  refine FollowsFrom.name.bind fun fieldName copy own lists like told => ?_
  obtain ⟨rfl, rfl, valid, _⟩ := told
  refine .sees rfl ?_ (field_type_followed like valid no_inputs_told)
  refine (input_definitions_followed .argument (by simp) (by simp)).bind
    fun list _ own lists _ told => ?_
  obtain ⟨⟨rfl, good, inside⟩, -⟩ := told
  exact field_type_followed like valid ⟨rfl, good, inside⟩

abbrev FieldsTold (list : Located (List (Located FieldDefinition))) :
    List (Located String) → List NameList → Prop :=
  Tells [] (FieldsWellFormed list.node) (FieldsList list.node)

theorem fields_definition_told {list : Located (List (Located FieldDefinition))}
    {own : List (Located String)} {lists : List NameList}
    (told : EachTold FieldTold list.node own lists) (filled : list.node ≠ [])
    (names : NamesInOrder (list.node.map fieldKey)) :
    FieldsTold list [] ((.field, list.node.map fieldKey) :: lists) where
  own := rfl
  good := ⟨filled, names.keyed, fun field member =>
    have ⟨_, _, each, _⟩ := told.member member
    each.good.2⟩
  inside list there := by
    cases there with
    | names => exact List.mem_cons_self
    | arguments member inside =>
        obtain ⟨_, _, each, among⟩ := told.member member
        exact List.mem_cons_of_mem _ (among (each.inside list inside))

theorem field_definitions_followed :
    Follows change apt False fieldDefinitions fieldDefinitions (fun _ _ => True) FieldsTold := by
  unfold fieldDefinitions
  exact named_list_followed True field_definition_followed (fun _ good => good.1)
    (fun _ _ _ => trivial) (by simp) (by simp) fun _ _ _ => fields_definition_told

end Fields

section Types

theorem interface_names_followed (count : Nat) :
    Follows change apt False (interfaceNames count) (interfaceNames count) (fun _ _ => True)
      (Plain fun names => ∀ name ∈ names, name.Valid) := by
  induction count with
  | zero =>
      rw [interfaceNames]
      exact .peek fun found copy _ _ => .fail
  | succ count ih =>
      rw [interfaceNames]
      refine FollowsFrom.bare_name.step fun first _ _ valid => ?_
      refine .sees rfl (.pure trivial ⟨rfl, rfl, List.forall_mem_singleton.mpr valid⟩) ?_
      refine ih.step fun rest _ _ others => ?_
      exact .pure trivial ⟨rfl, rfl, List.forall_mem_cons.mpr ⟨valid, others⟩⟩

abbrev ObjectTold (object : Located ObjectType) : List (Located String) → List NameList → Prop :=
  Tells [] object.node.WellFormed (FieldsList object.node.fields)

/-- What follows the interfaces of an object: its fields. -/
theorem object_fields_followed {keyword other : Located Token} {name copy : Located String}
    (valid : name.Valid) {description : Option String} {interfaces names : List (Located String)}
    (implemented : ∀ name ∈ interfaces, name.Valid) {twin : Option String} :
    Follows change apt False
      (do
        let fields ← fieldDefinitions
        pure (.between keyword.span.start fields.span.stop
          ⟨name, description, interfaces, fields.node⟩ : Located ObjectType))
      (do
        let fields ← fieldDefinitions
        pure (.between other.span.start fields.span.stop
          ⟨copy, twin, names, fields.node⟩ : Located ObjectType))
      (fun _ _ => True) ObjectTold := by
  refine field_definitions_followed.bind fun fields _ own lists _ told => ?_
  obtain ⟨rfl, good, inside⟩ := told
  refine .pure trivial ⟨rfl, ⟨valid, implemented, good⟩, ?_⟩
  rw [List.append_nil]
  exact inside

/-- Fields begin with a brace. -/
theorem field_definitions_open {α : Type}
    {next : Located (List (Located FieldDefinition)) → Reader α} {cursor left : Cursor} {value : α}
    (ran : (fieldDefinitions >>= next).run cursor = .ok value left) :
    ∀ token ∈ cursor.tokens.head?, token.node.asName? = none := by
  obtain ⟨fields, middle, begun, -⟩ := run_bind ran
  obtain ⟨list, later, read, -⟩ := run_bind begun
  obtain ⟨start, behind, opened, -⟩ := run_bind read
  obtain ⟨entry, second, rest, rfl, brace, -⟩ := expect_ran opened
  rintro _ ⟨⟩
  rw [brace]
  rfl

theorem object_type_followed (description other : Option String) :
    FollowsFrom change apt ahead bare (objectType description) (objectType other)
      (fun _ _ => True) ObjectTold := by
  unfold objectType
  refine (FollowsFrom.expect (by simp)).step fun keyword _ _ _ => ?_
  refine FollowsFrom.bare_name.step fun typeName _ _ valid => ?_
  refine .skip_word (fun _ _ _ => field_definitions_open)
    (object_fields_followed valid (List.forall_mem_nil _)) fun found copy there => ?_
  cases copy with
  | none => cases there
  | some =>
      refine Glances.count.bind fun cursor other length => ?_
      rw [length]
      exact (interface_names_followed _).step fun names _ _ implemented =>
        object_fields_followed valid implemented

abbrev TypeDefinitionTold {α : Type} (wrap : α → TypeDefinition) (located : Located α) :
    List (Located String) → List NameList → Prop :=
  Tells [] (wrap located.node).WellFormed (wrap located.node).Lists

theorem interface_type_followed (description other : Option String) :
    FollowsFrom change apt ahead bare (interfaceType description) (interfaceType other)
      (fun _ _ => True) (TypeDefinitionTold .interface) := by
  unfold interfaceType
  refine (FollowsFrom.expect (by simp)).step fun keyword _ _ _ => ?_
  refine FollowsFrom.bare_name.step fun typeName _ _ valid => ?_
  refine field_definitions_followed.bind fun fields _ own lists _ told => ?_
  obtain ⟨rfl, good, inside⟩ := told
  refine .pure trivial ⟨rfl, .interface valid good, fun list there => ?_⟩
  cases there with
  | interface there => exact List.mem_append_left _ (inside list there)

theorem more_members_followed (count : Nat) :
    Follows change apt False (moreMembers count) (moreMembers count) (fun _ _ => True)
      (Plain fun names => ∀ name ∈ names, name.Valid) := by
  induction count with
  | zero =>
      rw [moreMembers]
      exact .pure trivial ⟨rfl, rfl, List.forall_mem_nil _⟩
  | succ count ih =>
      rw [moreMembers]
      refine .skip_cases rfl (by simp) (fun _ _ => ?_)
        (.pure trivial ⟨rfl, rfl, List.forall_mem_nil _⟩)
      refine FollowsFrom.bare_name.step fun first _ _ valid => ?_
      refine ih.step fun rest _ _ others => ?_
      exact .pure trivial ⟨rfl, rfl, List.forall_mem_cons.mpr ⟨valid, others⟩⟩

theorem union_type_followed (description other : Option String) :
    FollowsFrom change apt ahead bare (unionType description) (unionType other)
      (fun _ _ => True) (TypeDefinitionTold .union) := by
  unfold unionType
  refine (FollowsFrom.expect (by simp)).step fun keyword _ _ _ => ?_
  refine FollowsFrom.bare_name.step fun typeName _ _ valid => ?_
  refine (FollowsFrom.expect (by simp)).step fun equals _ _ _ => ?_
  refine (FollowsFrom.skip rfl (by simp)).step fun bar _ _ _ => ?_
  refine FollowsFrom.bare_name.step fun first _ _ member => ?_
  refine Glances.count.bind fun cursor other length => ?_
  rw [length]
  refine (more_members_followed _).step fun rest _ _ others => ?_
  refine .pure trivial ⟨rfl, .union valid (List.cons_ne_nil _ _)
    (List.forall_mem_cons.mpr ⟨member, others⟩), fun list there => ?_⟩
  cases there

theorem scalar_type_followed (description other : Option String) :
    FollowsFrom change apt ahead bare (scalarType description) (scalarType other)
      (fun _ _ => True) (TypeDefinitionTold .scalar) := by
  unfold scalarType
  refine (FollowsFrom.expect (by simp)).step fun keyword _ _ _ => ?_
  refine FollowsFrom.bare_name.step fun typeName _ _ valid => ?_
  refine .pure trivial ⟨rfl, .scalar valid, fun list there => ?_⟩
  cases there

/-- A word other than `true`, `false` and `null` that may be a name may be an enum value. -/
theorem enum_word {token : Token} {name : String} (named : token.asName? = some name)
    (allowed : IsEnumName name) : (∀ value, token ≠ .bool value) ∧ token ≠ .null := by
  constructor
  · rintro value rfl
    cases value <;>
    · cases named
      exact absurd allowed.2 (by decide)
  · rintro rfl
    cases named
    exact absurd allowed.2 (by decide)

/-- A word that is neither `true` nor `false` nor `null`. -/
theorem not_reserved {name : String} (booleans : ∀ value, Token.ofWord name ≠ .bool value)
    (null : Token.ofWord name ≠ .null) : name ∉ ["true", "false", "null"] := by
  intro reserved
  simp only [List.mem_cons, List.not_mem_nil, or_false] at reserved
  rcases reserved with rfl | rfl | rfl
  · exact booleans true rfl
  · exact booleans false rfl
  · exact null rfl

abbrev EnumValueTold (value : Located EnumValueDefinition) :
    List (Located String) → List NameList → Prop :=
  Tells [enumKey value] (IsEnumName (enumKey value).node) fun _ => False

theorem enum_value_followed (fits : apt → IsEnumName change.word) :
    Follows change apt False enumValue enumValue
      (fun value copy => change.Names (enumKey value) (enumKey copy)) EnumValueTold := by
  unfold enumValue
  refine Glances.description.bind fun description _ _ => ?_
  refine .peek_named (fun found copy word like => ?_) fun value own lists told => ?_
  · split
    · exact .reject
    · exact .reject
    rename_i booleans null
    have other : (∀ value, copy.node ≠ .bool value) ∧ copy.node ≠ .null := by
      rcases like with same | ⟨apt, named⟩
      · exact same ▸ ⟨booleans, null⟩
      · exact enum_word named (fits apt)
    split
    · exact absurd ‹_› (other.1 _)
    · exact absurd ‹_› other.2
    refine FollowsFrom.name.bind fun valueName _ own lists named told => ?_
    obtain ⟨rfl, rfl, valid, token, rfl, spelled⟩ := told
    rw [spelled] at booleans null
    refine directives_followed.bind fun marks _ own more _ told => ?_
    obtain ⟨rfl, -, -⟩ := told
    exact .pure named ⟨rfl, ⟨valid, not_reserved booleans null⟩, fun _ => False.elim⟩
  · rw [told.own]
    exact List.cons_ne_nil _ _

theorem enum_type_followed (description other : Option String) :
    FollowsFrom change apt ahead bare (enumType description) (enumType other)
      (fun _ _ => True) (TypeDefinitionTold .enum) := by
  unfold enumType
  refine (FollowsFrom.expect (by simp)).step fun keyword _ _ _ => ?_
  refine FollowsFrom.bare_name.step fun typeName _ _ valid => ?_
  refine named_list_followed (IsEnumName change.word) (enum_value_followed id)
    (fun _ good => good.1) (fun _ good word => word ▸ good) (by simp) (by simp)
    fun list own lists told filled names => ⟨rfl, .enum ⟨valid, filled, names.keyed, ?_⟩, ?_⟩
  · intro value member
    obtain ⟨_, _, each, -⟩ := told.member member
    exact each.good
  · intro list there
    cases there
    exact List.mem_cons_self

theorem input_object_type_followed (description other : Option String) :
    FollowsFrom change apt ahead bare (inputObjectType description) (inputObjectType other)
      (fun _ _ => True) (TypeDefinitionTold .inputObject) := by
  unfold inputObjectType
  refine (FollowsFrom.expect (by simp)).step fun keyword _ _ _ => ?_
  refine FollowsFrom.bare_name.step fun typeName _ _ valid => ?_
  refine (input_definitions_followed .inputField (by simp) (by simp)).bind
    fun fields _ own lists _ told => ?_
  obtain ⟨⟨rfl, good, inside⟩, filled⟩ := told
  refine .pure trivial ⟨rfl, .inputObject valid filled good, fun list there => ?_⟩
  cases there with
  | inputObject there => exact List.mem_append_left _ (inside list there)

theorem type_extension_followed (description other : Option String) :
    FollowsFrom change apt ahead bare (typeExtension description) (typeExtension other)
      (fun _ _ => True) ObjectTold := by
  unfold typeExtension
  refine (FollowsFrom.expect (by simp)).step fun keyword _ _ _ => ?_
  refine (@object_type_followed _ _ False _ description other).bind
    fun object _ own lists _ told => ?_
  obtain ⟨rfl, good, inside⟩ := told
  refine .pure trivial ⟨rfl, good, fun list there => ?_⟩
  exact List.mem_append_left _ (inside list there)

end Types

section Definitions

abbrev DefinitionTold (definition : Definition) : List (Located String) → List NameList → Prop :=
  Tells [] definition.WellFormed definition.Lists

/-- A reader whose result is wrapped up. -/
theorem wrapped_followed {α : Type} {reader twin : Reader α} {wrap : α → Definition}
    (follows : FollowsFrom change apt ahead bare reader twin (fun _ _ => True)
      fun value => Tells [] (wrap value).WellFormed (wrap value).Lists) :
    FollowsFrom change apt ahead bare (reader >>= fun value => pure (wrap value))
      (twin >>= fun value => pure (wrap value)) (fun _ _ => True) DefinitionTold := by
  refine follows.bind fun value _ own lists _ told => .pure trivial ?_
  rw [List.append_nil, List.append_nil]
  exact told

theorem definition_followed :
    Follows change apt False definition definition (fun _ _ => True) DefinitionTold := by
  unfold definition
  refine Glances.description.bind fun description other _ => ?_
  refine .peek fun found copy word same => ?_
  rw [same]
  have keyed {kind : Keyword} (here : found.node = .keyword kind) (token : Located Token)
      (there : token = found) : token.node ≠ .punctuator .at := by simp [there, here]
  split
  · rename_i here
    rw [here]
    exact (wrapped_followed bare_query_followed).less (by simp [Token.asName?])
  · rename_i here
    exact wrapped_followed ((keyword_operation_followed .query).knowing (keyed here))
  · rename_i here
    exact wrapped_followed ((keyword_operation_followed .mutation).knowing (keyed here))
  · exact wrapped_followed fragment_followed
  · exact wrapped_followed ((object_type_followed description other).mono (fun _ own _ told =>
      ⟨own, List.Sublist.refl _, told.own, .object told.good, fun _ there => by
        cases there with
        | object there => exact told.inside _ there⟩) fun _ _ => id)
  · exact wrapped_followed (interface_type_followed description other)
  · exact wrapped_followed (union_type_followed description other)
  · exact wrapped_followed (scalar_type_followed description other)
  · exact wrapped_followed (enum_type_followed description other)
  · exact wrapped_followed (input_object_type_followed description other)
  · exact wrapped_followed (type_extension_followed description other)
  · exact .fail
  · exact .reject

theorem definitions_followed (count : Nat) :
    Follows change apt False (definitions count) (definitions count) (fun _ _ => True)
      fun list => Tells [] (list ≠ [] ∧ ∀ definition ∈ list, definition.WellFormed) fun names =>
        ∃ definition ∈ list, definition.Lists names := by
  induction count with
  | zero =>
      rw [definitions]
      exact .peek fun found copy _ _ => .fail
  | succ count ih =>
      rw [definitions]
      refine definition_followed.bind fun first _ own lists _ told => ?_
      obtain ⟨rfl, good, inside⟩ := told
      refine .sees rfl (.pure trivial ⟨rfl, ?_, fun list there => ?_⟩) ?_
      · exact ⟨List.cons_ne_nil _ _, List.forall_mem_singleton.mpr good⟩
      · obtain ⟨definition, member, there⟩ := there
        rw [List.mem_singleton.mp member] at there
        exact List.mem_append_left _ (inside list there)
      · refine ih.bind fun rest _ own more _ told => ?_
        obtain ⟨rfl, others, within⟩ := told
        refine .pure trivial ⟨rfl, ⟨List.cons_ne_nil _ _,
          List.forall_mem_cons.mpr ⟨good, others.2⟩⟩, fun list there => ?_⟩
        rw [List.append_nil]
        obtain ⟨definition, member, there⟩ := there
        rcases List.mem_cons.mp member with rfl | later
        · exact List.mem_append_left _ (inside list there)
        · exact List.mem_append_right _ (within list ⟨definition, later, there⟩)

end Definitions

end GraphQL.Reader
