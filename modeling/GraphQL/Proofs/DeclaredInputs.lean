import GraphQL.Proofs.SchemaClosure
import GraphQL.Proofs.SourceNames

/-!
The arguments and input fields that a schema declares.

Those of the types of an accepted schema were read from its source, be it in a type or in an extension
of one. Introspection adds no default to them. So the defaults of a schema are constants in which all
names are valid.
-/

namespace GraphQL

/-- The arguments of some fields. -/
def fieldInputs (fields : List (Located FieldDefinition)) : List InputDefinition :=
  fields.flatMap fun field => field.node.arguments.map (·.node)

/-- The arguments of the fields of a type, or the fields of an input object. -/
def TypeDefinition.inputs : TypeDefinition → List InputDefinition
  | .object definition => fieldInputs definition.fields
  | .interface definition => fieldInputs definition.fields
  | .inputObject definition => definition.fields.map (·.node)
  | _ => []

def Definition.inputs : Definition → List InputDefinition
  | .type located => located.node.inputs
  | .extension located => fieldInputs located.node.fields
  | _ => []

section Reading

variable {fields : List (Located FieldDefinition)} {property : InputDefinition → Prop}

theorem field_inputs_forall : (∀ input ∈ fieldInputs fields, property input) ↔
    ∀ field ∈ fields, ∀ argument ∈ field.node.arguments, property argument.node := by
  constructor
  · intro all field member argument given
    exact all _ (List.mem_flatMap_of_mem member (List.mem_map_of_mem given))
  · intro all input there
    obtain ⟨field, member, among⟩ := List.mem_flatMap.mp there
    obtain ⟨argument, given, rfl⟩ := List.mem_map.mp among
    exact all field member argument given

namespace Reader

theorem interface_type_constant (description : Option String) :
    Yields (interfaceType description) fun interface =>
      ∀ input ∈ fieldInputs interface.node.fields, input.ConstantDefault := by
  rw [interfaceType]
  apply Yields.after
  intro keyword
  apply Yields.after
  intro typeName
  apply field_definitions_constant.bind
  intro fields constant
  exact .pure (field_inputs_forall.mpr constant)

/-- The defaults in a definition are constants. -/
theorem definition_inputs_constant :
    Yields definition fun definition => ∀ input ∈ definition.inputs, input.ConstantDefault := by
  rw [definition]
  apply Yields.after
  intro description
  apply Yields.after
  intro found
  split
  case h_5 =>
    apply (object_type_constant description).bind
    intro object constant
    exact .pure (field_inputs_forall.mpr constant)
  case h_6 =>
    apply (interface_type_constant description).bind
    intro interface constant
    exact .pure constant
  case h_10 =>
    apply (input_object_type_constant description).bind
    intro input constant
    exact .pure (List.forall_mem_map.mpr constant)
  case h_11 =>
    apply (type_extension_constant description).bind
    intro object constant
    exact .pure (field_inputs_forall.mpr constant)
  case h_12 => exact .fail
  case h_13 => exact .reject
  all_goals exact .after fun _ => .pure (List.forall_mem_nil _)

end Reader

end Reading

section Forms

variable {parts : List Phrase}

theorem inputs_worded {inputs : List (Located InputDefinition)} {opening closing : Punctuator}
    (made : Enclosed opening closing (Each (Node InputDefinitionForm)) inputs parts)
    (worded : AllWorded parts) {input : Located InputDefinition} (member : input ∈ inputs) :
    ∃ own, InputDefinitionForm input.node own ∧ AllWorded own := by
  obtain ⟨inside, each, fit⟩ := made.worded worded
  obtain ⟨own, node, good⟩ := each.worded fit member
  exact node.worded good

theorem fields_worded {fields : List (Located FieldDefinition)} (made : FieldsForm fields parts)
    (worded : AllWorded parts) : ∀ input ∈ fieldInputs fields,
      ∃ own, InputDefinitionForm input own ∧ AllWorded own := by
  rw [field_inputs_forall]
  intro field member argument given
  obtain ⟨inside, each, fit⟩ := made.worded worded
  obtain ⟨own, node, good⟩ := each.worded fit member
  obtain ⟨inner, form, fine⟩ := node.worded good
  generalize field.node = found at form given
  cases form with
  | field arguments mark typed directives =>
      cases arguments with
      | none => cases given
      | some list =>
          exact inputs_worded list (fun part inside =>
            fine part (List.mem_cons_of_mem _ (List.mem_append_left _ inside))) given

theorem object_worded {object : ObjectType} (made : ObjectForm object parts)
    (worded : AllWorded parts) : ∀ input ∈ fieldInputs object.fields,
      ∃ own, InputDefinitionForm input own ∧ AllWorded own := by
  cases made with
  | object word implemented body =>
      exact fields_worded body fun part inside => worded part
        (List.mem_cons_of_mem _ (List.mem_cons_of_mem _ (List.mem_append_right _ inside)))

theorem type_worded {type : TypeDefinition} (made : TypeDefinitionForm type parts)
    (worded : AllWorded parts) : ∀ input ∈ type.inputs,
      ∃ own, InputDefinitionForm input own ∧ AllWorded own := by
  cases made with
  | object inside => exact object_worded inside worded
  | interface word body =>
      exact fields_worded body fun part inside => worded part
        (List.mem_cons_of_mem _ (List.mem_cons_of_mem _ inside))
  | inputObject word body =>
      refine List.forall_mem_map.mpr fun input member => inputs_worded body ?_ member
      exact fun part inside => worded part
        (List.mem_cons_of_mem _ (List.mem_cons_of_mem _ inside))
  | _ => exact List.forall_mem_nil _

theorem definition_worded {definition : Definition} (made : DefinitionForm definition parts)
    (worded : AllWorded parts) : ∀ input ∈ definition.inputs,
      ∃ own, InputDefinitionForm input own ∧ AllWorded own := by
  cases made with
  | type node =>
      obtain ⟨own, form, good⟩ := node.worded worded
      exact type_worded form good
  | extension node =>
      obtain ⟨own, form, good⟩ := node.worded worded
      cases form with
      | extension word inside =>
          exact object_worded inside fun part member =>
            good part (List.mem_cons_of_mem _ member)
  | _ => exact List.forall_mem_nil _

theorem default_formed {input : InputDefinition} (made : InputDefinitionForm input parts)
    (worded : AllWorded parts) (constant : input.ConstantDefault) :
    ∀ literal ∈ input.default, literal.node.Formed (fun _ => True) true := by
  intro literal given
  have own := constant literal given
  cases made with
  | input mark typed defaulted directives =>
      cases defaulted with
      | absent => cases given
      | present equals content =>
          cases given
          obtain ⟨inside, form, good⟩ := content.worded fun part member => worded part
            (List.mem_cons_of_mem _ (List.mem_cons_of_mem _ (List.mem_append_right _
              (List.mem_append_left _ (List.mem_cons_of_mem _ member)))))
          exact form.formed own good

/-- Defaults in a document that was read are constants in which all names are valid. -/
theorem Document.of_text_formed {text : List Char} {document : Document}
    (read : Document.ofText text = .ok document) :
    ∀ definition ∈ document.definitions, ∀ input ∈ definition.inputs, ∀ literal ∈ input.default,
      literal.node.Formed (fun _ => True) true := by
  intro definition member input among
  obtain ⟨parts, made, worded⟩ := Document.of_text_worded read definition member
  obtain ⟨own, form, good⟩ := definition_worded made worded input among
  have constant := Document.of_text_yields Reader.definition_inputs_constant read _ member
  exact default_formed form good (constant input among)

end Forms

section Schemas

variable {document : Document} {queryName : String} {mutationName : Option String}

theorem field_inputs_append (fields more : List (Located FieldDefinition)) :
    fieldInputs (fields ++ more) = fieldInputs fields ++ fieldInputs more := List.flatMap_append

theorem entries_without_defaults :
    ∀ input ∈ fieldInputs Introspection.entries, input.default = none :=
  List.forall_mem_singleton.mpr rfl

/-- Inputs that an object type gains from extensions are inputs of these. -/
theorem written_out_inputs {extensions : List (Located ObjectType)} {object : ObjectType}
    {input : InputDefinition} (among : input ∈ fieldInputs (object.writtenOut extensions).fields) :
    input ∈ fieldInputs object.fields ∨
      ∃ extension ∈ extensions, input ∈ fieldInputs extension.node.fields := by
  rw [ObjectType.writtenOut, ObjectType.withParts, field_inputs_append, List.mem_append] at among
  refine among.imp_right fun gained => ?_
  obtain ⟨field, there, given⟩ := List.mem_flatMap.mp gained
  obtain ⟨part, chosen, own⟩ := List.mem_flatMap.mp there
  obtain ⟨extension, member, rfl⟩ := List.mem_map.mp (List.mem_of_mem_filter chosen)
  exact ⟨extension, member, List.mem_flatMap_of_mem own given⟩

/-- What a schema declares besides what its document does has no default. -/
theorem schema_input_read {type : TypeDefinition}
    (declared : type ∈ (document.schema queryName mutationName).types) {input : InputDefinition}
    (among : input ∈ type.inputs) : input.default = none ∨
      ∃ definition ∈ document.definitions, input ∈ definition.inputs := by
  rw [Schema.types, Document.schema, Document.merged, Document.withExtensions, Document.map_objects_twice,
    Document.map_objects_types] at declared
  obtain ⟨base, there, rfl⟩ := List.mem_map.mp declared
  obtain ⟨definition, member, typed⟩ := List.mem_filterMap.mp there
  cases definition with
  | type located =>
      cases typed
      obtain ⟨base, span⟩ := located
      cases base with
      | object object =>
          have gained : input ∈ fieldInputs (object.writtenOut document.extensions).fields ∨
              input ∈ fieldInputs Introspection.entries := by
            change input ∈ fieldInputs (ite _ _ _ : ObjectType).fields at among
            split at among
            · rwa [ObjectType.withEntries, field_inputs_append, List.mem_append] at among
            · exact .inl among
          rcases gained with own | entry
          · rcases written_out_inputs own with own | ⟨extension, added, there⟩
            · exact .inr ⟨_, member, own⟩
            · obtain ⟨definition, inside, same⟩ := List.mem_filterMap.mp added
              cases definition with
              | extension other =>
                  cases same
                  exact .inr ⟨_, inside, there⟩
              | _ => cases same
          · exact .inl (entries_without_defaults input entry)
      | _ => exact .inr ⟨_, member, among⟩
  | _ => cases typed

theorem Schema.accepted_defaults_formed {source : String} {schema : Schema}
    (built : Schema.ofSource source queryName mutationName = .ok schema) {type : TypeDefinition}
    (declared : type ∈ schema.types) {input : InputDefinition} (among : input ∈ type.inputs)
    {default : Located Literal} (given : default ∈ input.default) :
    default.node.Formed (fun _ => True) true := by
  obtain ⟨document, read, accepted⟩ := Schema.of_source_ok_iff.mp built
  obtain ⟨-, -, -, rfl⟩ := Document.accepted_iff.mp accepted
  rcases schema_input_read declared among with nothing | ⟨definition, member, there⟩
  · rw [nothing] at given
    cases given
  · exact Document.of_text_formed read definition member input there default given

end Schemas

end GraphQL
