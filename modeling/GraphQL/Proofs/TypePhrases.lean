import GraphQL.Proofs.RequestPhrases

/-!
Phrases of the schema language, and of whole documents.

Fields, arguments, input fields and enum values end with their directives, though of these no more
than a deprecation is kept. Definitions are read as long as there are tokens in front of the end one.
-/

namespace GraphQL

namespace Reader

section Types

variable {ahead : Located Token → Prop}

theorem input_definition_builds : Parses inputDefinition (Node InputDefinitionForm) := by
  apply Builds.node
  unfold inputDefinition
  refine Looks.description.bind fun description => ?_
  refine Builds.name.bind fun name parts named => ?_
  cases named
  refine (Builds.expect _).bind fun colon parts taken => ?_
  obtain ⟨rfl, mark⟩ := taken
  refine type_ref_builds.bind fun type typeParts typed => ?_
  refine default_builds.bind fun value defaultParts defaulted => ?_
  refine directives_builds.map fun marks markParts marked => ?_
  simp only [List.singleton_append]
  refine ⟨.input mark typed defaulted marked, ?_⟩
  cases defaulted with
  | absent =>
      simp [Hull, Located.between, Phrase.span, directives_stop marked, node_stop _ _ typed]
  | present mark content =>
      simp [Hull, Located.between, Phrase.span, directives_stop marked, node_stop _ _ content]

theorem input_definitions_builds (opening closing : Punctuator) (kind : NameKind) :
    Builds ahead (inputDefinitions opening closing kind)
      (There (Enclosed opening closing (Each (Node InputDefinitionForm)))) := by
  unfold inputDefinitions
  refine (delimited_nonempty_builds input_definition_builds).bind fun list parts there => ?_
  refine (Looks.repeats _ _).bind fun _ => .pure ?_
  rwa [List.append_nil]

/-- What follows the arguments of a field definition: its type and its directives. -/
theorem field_type_builds {name : Located String} {token : Located Token}
    (description : Option String) {inputs : List (Located InputDefinition)}
    {inputParts : List Phrase} (arguments : InputsForm inputs inputParts) :
    Builds ahead
      (do
        let _ ← expect (.punctuator .colon)
        let type ← typeRef
        let marks ← directives
        pure (.between name.span.start (directivesStop marks type.span.stop)
          ⟨name, description, inputs, type, deprecation marks⟩ : Located FieldDefinition))
      fun found more =>
        FieldDefinitionForm found.node (.named name token :: (inputParts ++ more)) ∧
          Hull found.span (.named name token :: (inputParts ++ more)) := by
  refine (Builds.expect _).bind fun colon parts taken => ?_
  obtain ⟨rfl, mark⟩ := taken
  refine type_ref_builds.bind fun type typeParts typed => ?_
  refine directives_builds.map fun marks markParts marked => ?_
  simp only [List.singleton_append]
  refine ⟨.field arguments mark typed marked, ?_⟩
  simp [Hull, Located.between, Phrase.span, directives_stop marked, node_stop _ _ typed]

theorem field_definition_builds : Parses fieldDefinition (Node FieldDefinitionForm) := by
  apply Builds.node
  unfold fieldDefinition
  refine Looks.description.bind fun description => ?_
  refine Builds.name.bind fun name parts named => ?_
  cases named
  refine .sees ?_ (field_type_builds description .none)
  refine (input_definitions_builds _ _ _).bind fun list parts there => ?_
  exact field_type_builds description (.some there.1)

theorem field_definitions_build : Parses fieldDefinitions (There FieldsForm) := by
  unfold fieldDefinitions
  refine (delimited_nonempty_builds field_definition_builds).bind fun list parts there => ?_
  refine (Looks.repeats _ _).bind fun _ => .pure ?_
  rwa [List.append_nil]

theorem interface_names_build (count : Nat) : Parses (interfaceNames count) (Each Named) := by
  induction count with
  | zero =>
      rw [interfaceNames]
      exact .peek fun found => .fail _ _
  | succ count ih =>
      rw [interfaceNames]
      refine Builds.name.bind fun first parts named => ?_
      refine .sees (.pure (.cons named .nil)) ?_
      refine ih.map fun rest more others => ?_
      exact .cons named others

/-- What follows the interfaces of an object: its fields. -/
theorem object_fields_build {keyword token : Located Token}
    (word : keyword.node = .keyword .type) {name : Located String} (description : Option String)
    {interfaces : List (Located String)} {interfaceParts : List Phrase}
    (implemented : InterfacesForm interfaces interfaceParts) :
    Parses
      (do
        let fields ← fieldDefinitions
        pure (.between keyword.span.start fields.span.stop
          ⟨name, description, interfaces, fields.node⟩ : Located ObjectType))
      fun found more =>
        ObjectForm found.node (.leaf keyword :: .named name token :: (interfaceParts ++ more)) ∧
          Hull found.span (.leaf keyword :: .named name token :: (interfaceParts ++ more)) := by
  refine field_definitions_build.map fun fields parts there => ?_
  refine ⟨.object word implemented there.1, ?_⟩
  simp [Hull, Located.between, Phrase.span, there.2.stop]

theorem object_type_builds (description : Option String) :
    Builds ahead (objectType description) (There ObjectForm) := by
  unfold objectType
  refine .marked_name fun keyword name token word => ?_
  refine (Builds.skip _).bind fun found parts skipped => ?_
  cases skipped with
  | absent => exact object_fields_build word description .none
  | present taken =>
      obtain ⟨rfl, implements⟩ := taken
      refine Looks.count.bind fun cursor => ?_
      refine (interface_names_build _).bind fun names parts each => ?_
      exact object_fields_build word description (.some implements each)

theorem interface_type_builds (description : Option String) :
    Builds ahead (interfaceType description)
      (There fun definition => TypeDefinitionForm (.interface definition)) := by
  unfold interfaceType
  refine .marked_name fun keyword name token word => ?_
  refine field_definitions_build.map fun fields parts there => ?_
  refine ⟨.interface word there.1, ?_⟩
  simp [Hull, Located.between, Phrase.span, there.2.stop]

theorem more_members_build (count : Nat) : Parses (moreMembers count) (Each MemberForm) := by
  induction count with
  | zero =>
      rw [moreMembers]
      exact .pure .nil
  | succ count ih =>
      rw [moreMembers]
      refine (Builds.skip _).bind fun found parts skipped => ?_
      cases skipped with
      | absent => exact .pure .nil
      | present taken =>
          obtain ⟨rfl, mark⟩ := taken
          refine Builds.name.bind fun first parts named => ?_
          cases named
          refine ih.map fun rest more others => ?_
          rw [← List.append_assoc]
          exact .cons (.member mark) others

theorem member_stop (name : Located String) (parts : List Phrase) (there : MemberForm name parts)
    (otherwise : Position) : partsStop otherwise parts = name.span.stop := by
  cases there
  rfl

theorem union_type_builds (description : Option String) :
    Builds ahead (unionType description)
      (There fun definition => TypeDefinitionForm (.union definition)) := by
  unfold unionType
  refine .marked_name fun keyword name token word => ?_
  refine (Builds.expect _).bind fun equals parts taken => ?_
  obtain ⟨rfl, mark⟩ := taken
  refine (Builds.skip _).bind fun found barParts skipped => ?_
  have bar : LeadingBar barParts := by
    cases skipped with
    | absent => exact .none
    | present taken =>
        obtain ⟨rfl, leading⟩ := taken
        exact .some leading
  refine Builds.name.bind fun first parts named => ?_
  cases named
  refine Looks.count.bind fun cursor => ?_
  refine (more_members_build _).map fun rest memberParts others => ?_
  simp only [List.singleton_append]
  refine ⟨.union word mark bar others, ?_⟩
  have stop : (rest.getLast?.getD first).span.stop = partsStop first.span.stop memberParts := by
    rw [each_stop member_stop others, Option.getD_map]
  simp [Hull, Located.between, Phrase.span, stop]

theorem scalar_type_builds (description : Option String) :
    Builds ahead (scalarType description)
      (There fun definition => TypeDefinitionForm (.scalar definition)) := by
  unfold scalarType
  exact .marked_name fun keyword name token word => .pure ⟨.scalar word, rfl⟩

theorem enum_value_builds : Parses enumValue (Node EnumValueForm) := by
  apply Builds.node
  unfold enumValue
  refine Looks.description.bind fun description => ?_
  refine .peek fun found => ?_
  split
  · exact .reject _
  · exact .reject _
  · refine Builds.name.bind fun name parts named => ?_
    cases named
    refine directives_builds.map fun marks markParts marked => ?_
    refine ⟨.value marked, ?_⟩
    simp [Hull, Located.between, Phrase.span, directives_stop marked]

theorem enum_type_builds (description : Option String) :
    Builds ahead (enumType description)
      (There fun definition => TypeDefinitionForm (.enum definition)) := by
  unfold enumType
  refine .marked_name fun keyword name token word => ?_
  refine (delimited_nonempty_builds enum_value_builds).bind fun values parts there => ?_
  refine (Looks.repeats _ _).bind fun _ => .pure ?_
  rw [List.append_nil]
  refine ⟨.enum word there.1, ?_⟩
  simp [Hull, Located.between, Phrase.span, there.2.stop]

theorem input_object_type_builds (description : Option String) :
    Builds ahead (inputObjectType description)
      (There fun definition => TypeDefinitionForm (.inputObject definition)) := by
  unfold inputObjectType
  refine .marked_name fun keyword name token word => ?_
  refine (input_definitions_builds _ _ _).map fun fields parts there => ?_
  refine ⟨.inputObject word there.1, ?_⟩
  simp [Hull, Located.between, Phrase.span, there.2.stop]

theorem type_extension_builds (description : Option String) :
    Builds ahead (typeExtension description) (Node ExtensionForm) := by
  apply Builds.node
  unfold typeExtension
  refine (Builds.expect _).bind fun keyword parts taken => ?_
  obtain ⟨rfl, word⟩ := taken
  refine (object_type_builds description).map fun object parts there => ?_
  refine ⟨.extension word there.1, ?_⟩
  simp [Hull, Located.between, Phrase.span, there.2.stop]

end Types

section Documents

variable {ahead : Located Token → Prop}

theorem as_type_builds {α : Type} {wrap : α → TypeDefinition} {reader : Reader (Located α)}
    (builds : Builds ahead reader (There fun definition => TypeDefinitionForm (wrap definition))) :
    Builds ahead (asType wrap reader) DefinitionForm := by
  have node : Builds ahead reader fun found parts =>
      Node TypeDefinitionForm (found.map wrap) parts :=
    .gather (builds.mono fun found parts holds => ⟨.node holds.1, holds.2⟩)
  unfold asType
  refine node.map fun found parts there => ?_
  exact .type there

theorem definition_builds : Parses definition DefinitionForm := by
  unfold definition
  refine Looks.description.bind fun description => ?_
  refine .peek fun found => ?_
  have operation {reader : Reader (Located Operation)}
      (builds : Builds (fun token => token = found) reader (Node OperationForm)) :
      Builds (fun token => token = found)
        (do
          let operation ← reader
          pure (Definition.operation operation)) DefinitionForm := by
    refine builds.map fun located parts there => ?_
    exact .operation there
  split
  · exact operation bare_query_builds
  · rename_i same
    exact operation ((keyword_operation_builds .query).knowing fun token here => here ▸ same)
  · rename_i same
    exact operation ((keyword_operation_builds .mutation).knowing fun token here => here ▸ same)
  · refine fragment_builds.map fun located parts there => ?_
    exact .fragment there
  · exact as_type_builds ((object_type_builds description).mono
      fun _ _ holds => ⟨.object holds.1, holds.2⟩)
  · exact as_type_builds (interface_type_builds description)
  · exact as_type_builds (union_type_builds description)
  · exact as_type_builds (scalar_type_builds description)
  · exact as_type_builds (enum_type_builds description)
  · exact as_type_builds (input_object_type_builds description)
  · refine (type_extension_builds description).map fun located parts there => ?_
    exact .extension there
  · exact .fail _ _
  · exact .reject _

theorem definitions_build (count : Nat) : Parses (definitions count) (Each DefinitionForm) := by
  induction count with
  | zero =>
      rw [definitions]
      exact .peek fun found => .fail _ _
  | succ count ih =>
      rw [definitions]
      refine definition_builds.bind fun first parts holds => ?_
      refine .sees (.pure (.cons holds .nil)) ?_
      refine ih.map fun rest more others => ?_
      exact .cons holds others

/-- Definitions are read until the end token is the next one. -/
theorem definitions_end {count : Nat} {cursor left : Cursor} {found : List Definition}
    (ran : (definitions count).run cursor = .ok found left) :
    ∀ token ∈ left.tokens.head?, token.node = .endOfFile := by
  induction count generalizing cursor found with
  | zero =>
      obtain ⟨_, _, _, failed⟩ := run_bind ran
      cases failed
  | succ count ih =>
      obtain ⟨first, middle, -, later⟩ := run_bind ran
      obtain ⟨last, same, looked, ended⟩ := run_bind later
      obtain ⟨next, kept, peeked, told⟩ := run_bind looked
      cases told
      by_cases final : next.node = .endOfFile
      · rw [decide_eq_true final] at ended
        cases ended
        cases middle with
        | nil =>
            cases peeked
            exact fun _ absent => by cases absent
        | cons entry rest =>
            cases peeked
            intro token same
            cases same
            exact final
      · rw [decide_eq_false final] at ended
        obtain ⟨rest, others, read, told⟩ := run_bind ended
        cases told
        exact ih read

end Documents

end Reader

end GraphQL
