import GraphQL.Proofs.AlikeSelections
import GraphQL.Reading.Document

/-!
Readers of the schema language and of documents never look at places.

The description in front of a definition is part of it, so what is seen of a definition depends on
what is seen of descriptions. Whole documents are read alike from cursors of the same words: a name
that is declared again is found by its kind and text.
-/

namespace GraphQL

/-- Of a description nothing is seen. -/
abbrev undescribed : Option String → Option String := fun _ => none

section Descriptions

variable (view : Option String → Option String)

def InputDefinition.described (input : InputDefinition) : InputDefinition :=
  { input with description := view input.description }

def FieldDefinition.described (field : FieldDefinition) : FieldDefinition :=
  { field with
    description := view field.description
    arguments := field.arguments.map (Located.map (InputDefinition.described view)) }

def EnumValueDefinition.described (value : EnumValueDefinition) : EnumValueDefinition :=
  { value with description := view value.description }

def ObjectType.described (object : ObjectType) : ObjectType :=
  { object with
    description := view object.description
    fields := object.fields.map (Located.map (FieldDefinition.described view)) }

def InterfaceType.described (interface : InterfaceType) : InterfaceType :=
  { interface with
    description := view interface.description
    fields := interface.fields.map (Located.map (FieldDefinition.described view)) }

def UnionType.described (union : UnionType) : UnionType :=
  { union with description := view union.description }

def ScalarType.described (scalar : ScalarType) : ScalarType :=
  { scalar with description := view scalar.description }

def EnumType.described (enum : EnumType) : EnumType :=
  { enum with
    description := view enum.description
    values := enum.values.map (Located.map (EnumValueDefinition.described view)) }

def InputObjectType.described (input : InputObjectType) : InputObjectType :=
  { input with
    description := view input.description
    fields := input.fields.map (Located.map (InputDefinition.described view)) }

def TypeDefinition.described : TypeDefinition → TypeDefinition
  | .scalar definition => .scalar (definition.described view)
  | .object definition => .object (definition.described view)
  | .interface definition => .interface (definition.described view)
  | .union definition => .union (definition.described view)
  | .enum definition => .enum (definition.described view)
  | .inputObject definition => .inputObject (definition.described view)

/-- A definition with what is seen of the descriptions in it. -/
def Definition.described : Definition → Definition
  | .operation located => .operation located
  | .fragment located => .fragment located
  | .type located => .type (located.map (TypeDefinition.described view))
  | .extension located => .extension (located.map (ObjectType.described view))

/-- A definition without places, with what is seen of the descriptions in it. -/
def Definition.seen (definition : Definition) : Definition := (definition.described view).placeless

end Descriptions

section Views

variable (view : Option String → Option String)

/-- What is seen of each member may be told before or behind the loss of places. -/
theorem described_list {α : Type} {described placeless : α → α}
    (same : ∀ value, described (placeless value) = placeless (described value))
    (list : List (Located α)) :
    (list.map (Located.placeless placeless)).map (Located.map described) =
      (list.map (Located.map described)).map (Located.placeless placeless) := by
  rw [List.map_map, List.map_map]
  exact List.map_congr_left fun value _ => congrArg Located.unplaced (same value.node)

theorem FieldDefinition.described_placeless (field : FieldDefinition) :
    field.placeless.described view = (field.described view).placeless := by
  have inputs := @described_list _ (InputDefinition.described view) InputDefinition.placeless
    (fun _ => rfl) field.arguments
  exact congrArg (fun arguments => FieldDefinition.mk _ _ arguments _ _) inputs

theorem ObjectType.described_placeless (object : ObjectType) :
    object.placeless.described view = (object.described view).placeless :=
  congrArg (ObjectType.mk _ _ _)
    (described_list (FieldDefinition.described_placeless view) object.fields)

theorem TypeDefinition.described_placeless (type : TypeDefinition) :
    type.placeless.described view = (type.described view).placeless := by
  cases type with
  | object object => exact congrArg TypeDefinition.object (object.described_placeless view)
  | interface interface =>
      exact congrArg (fun fields => TypeDefinition.interface
          ⟨interface.name.bareName, view interface.description, fields⟩)
        (described_list (FieldDefinition.described_placeless view) interface.fields)
  | enum enum =>
      exact congrArg (fun values => TypeDefinition.enum
          ⟨enum.name.bareName, view enum.description, values⟩)
        (@described_list _ (EnumValueDefinition.described view) EnumValueDefinition.placeless
          (fun _ => rfl) enum.values)
  | inputObject input =>
      exact congrArg (fun fields => TypeDefinition.inputObject
          ⟨input.name.bareName, view input.description, fields⟩)
        (@described_list _ (InputDefinition.described view) InputDefinition.placeless
          (fun _ => rfl) input.fields)
  | _ => rfl

/-- What is seen of a definition is seen of it without its places. -/
theorem Definition.seen_placeless (definition : Definition) :
    definition.seen view = definition.placeless.described view := by
  cases definition with
  | type located =>
      exact congrArg (fun type => Definition.type (.unplaced type))
        (located.node.described_placeless view).symm
  | extension located =>
      exact congrArg (fun object => Definition.extension (.unplaced object))
        (located.node.described_placeless view).symm
  | _ => rfl

end Views

namespace Reader

variable {α : Type} {view : Option String → Option String}

section TypeDefinitions

theorem as_string_placeless (literal : Literal) :
    literal.placeless.asString? = literal.asString? := by
  cases literal <;> simp [Literal.placeless, Literal.asString?]

/-- Directives tell of a deprecation without their places. -/
theorem deprecation_placeless (list : Directives) :
    deprecation list.placeless = deprecation list := by
  have reason (mark : Directive) : (mark.placeless.argument? "reason").bind
        (fun literal => literal.node.asString?) =
      (mark.argument? "reason").bind fun literal => literal.node.asString? := by
    rw [directive_argument_placeless]
    cases mark.argument? "reason" with
    | none => rfl
    | some literal => exact as_string_placeless literal.node
  cases list with
  | none => rfl
  | some marks =>
      have found : ((Directives.placeless (some marks)).getD []).find?
            (fun mark => mark.node.name.node == "deprecated") =
          (marks.find? fun mark => mark.node.name.node == "deprecated").map
            (Located.placeless Directive.placeless) := List.find?_map ..
      rw [deprecation, deprecation, found, Option.getD_some]
      cases marks.find? fun mark => mark.node.name.node == "deprecated" with
      | none => rfl
      | some mark => exact congrArg Deprecation.deprecated (reason mark.node)

theorem deprecation_alike {marks others : Directives} (same : marks.placeless = others.placeless) :
    deprecation marks = deprecation others := by
  rw [← deprecation_placeless marks, same, deprecation_placeless]

/-- What is seen of an argument or input field. -/
abbrev lookInput (view : Option String → Option String) :
    Located InputDefinition → Located InputDefinition :=
  Located.placeless fun input => (input.described view).placeless

theorem input_definition_steady : Steady view (lookInput view) inputDefinition := by
  refine description_steady.bind fun description text same_text => ?_
  refine name_steady.bind fun name copy same_name => ?_
  refine (expect_steady _).bind fun _ _ _ => ?_
  refine type_ref_steady.bind fun type other same_type => ?_
  refine default_value_steady.bind fun value default same_value => ?_
  refine directives_steady.map fun marks others _ => Located.placeless_eq ?_
  simp only [Located.between, InputDefinition.described, InputDefinition.placeless, same_text,
    same_name, same_type, same_value]

theorem input_definitions_steady (opening closing : Punctuator) (kind : NameKind) :
    Steady view (Located.placeless (List.map (lookInput view)))
      (inputDefinitions opening closing kind) :=
  named_list_steady _ _ kind (fun input => input.node.name) (fun _ => rfl) input_definition_steady

/-- What is seen of a field definition. -/
abbrev lookFieldDefinition (view : Option String → Option String) :
    Located FieldDefinition → Located FieldDefinition :=
  Located.placeless fun field => (field.described view).placeless

/-- What is seen of inputs is seen of them one by one. -/
theorem described_inputs (inputs : List (Located InputDefinition)) :
    (inputs.map (Located.map (InputDefinition.described view))).map
        (Located.placeless InputDefinition.placeless) = inputs.map (lookInput view) := by
  rw [List.map_map]
  rfl

theorem described_fields (fields : List (Located FieldDefinition)) :
    (fields.map (Located.map (FieldDefinition.described view))).map
        (Located.placeless FieldDefinition.placeless) = fields.map (lookFieldDefinition view) := by
  rw [List.map_map]
  rfl

/-- What follows the inputs of a field: its type and directives. -/
theorem field_type_alike {description text : Option String}
    (same_text : view description = view text) {name copy : Located String}
    (same_name : name.bareName = copy.bareName)
    {inputs others : List (Located InputDefinition)}
    (same_inputs : inputs.map (lookInput view) = others.map (lookInput view)) :
    Alike view (lookFieldDefinition view)
      (do
        let _ ← expect (.punctuator .colon)
        let type ← typeRef
        let marks ← directives
        pure (.between name.span.start (directivesStop marks type.span.stop)
          ⟨name, description, inputs, type, deprecation marks⟩))
      (do
        let _ ← expect (.punctuator .colon)
        let type ← typeRef
        let marks ← directives
        pure (.between copy.span.start (directivesStop marks type.span.stop)
          ⟨copy, text, others, type, deprecation marks⟩)) := by
  refine (expect_steady _).bind fun _ _ _ => ?_
  refine type_ref_steady.bind fun type other same_type => ?_
  refine directives_steady.map fun marks copies same_marks => Located.placeless_eq ?_
  simp only [Located.between, FieldDefinition.described, FieldDefinition.placeless,
    described_inputs, same_text, same_name, same_inputs, same_type, deprecation_alike same_marks]

theorem field_definition_steady : Steady view (lookFieldDefinition view) fieldDefinition := by
  refine description_steady.bind fun description text same_text => ?_
  refine name_steady.bind fun name copy same_name => .sees fun opened => ?_
  cases opened with
  | false => exact field_type_alike same_text same_name rfl
  | true =>
      refine (input_definitions_steady _ _ _).bind fun list others same => ?_
      exact field_type_alike same_text same_name (Located.placeless_node same)

theorem field_definitions_steady :
    Steady view (Located.placeless (List.map (lookFieldDefinition view))) fieldDefinitions :=
  named_list_steady _ _ .field (fun field => field.node.name) (fun _ => rfl)
    field_definition_steady

theorem interface_names_steady (count : Nat) :
    Steady view (List.map Located.bareName) (interfaceNames count) := by
  induction count with
  | zero => exact .peek fun found other _ => .fail _ _ _
  | succ count ih =>
      refine name_steady.bind fun first copy same => .sees fun opened => ?_
      cases opened with
      | true => exact .pure (congrArg (fun name => [name]) same)
      | false => exact ih.map fun rest others alike => congrArg₂ List.cons same alike

/-- What is seen of an object type. -/
abbrev lookObject (view : Option String → Option String) :
    Located ObjectType → Located ObjectType :=
  Located.placeless fun object => (object.described view).placeless

/-- What follows the interfaces of an object: its fields. -/
theorem object_fields_alike {description text : Option String}
    (same_text : view description = view text) (start begin : Position)
    {name copy : Located String} (same_name : name.bareName = copy.bareName)
    {interfaces others : List (Located String)}
    (same_interfaces : interfaces.map Located.bareName = others.map Located.bareName) :
    Alike view (lookObject view)
      (do
        let fields ← fieldDefinitions
        pure (.between start fields.span.stop ⟨name, description, interfaces, fields.node⟩))
      (do
        let fields ← fieldDefinitions
        pure (.between begin fields.span.stop ⟨copy, text, others, fields.node⟩)) := by
  refine field_definitions_steady.map fun fields copies same => Located.placeless_eq ?_
  have same_fields : fields.node.map (lookFieldDefinition view) =
      copies.node.map (lookFieldDefinition view) := Located.placeless_node same
  simp only [Located.between, ObjectType.described, ObjectType.placeless, described_fields,
    same_text, same_name, same_interfaces, same_fields]

theorem object_type_alike {description text : Option String}
    (same_text : view description = view text) :
    Alike view (lookObject view) (objectType description) (objectType text) := by
  refine (expect_steady _).bind fun keyword word _ => ?_
  refine name_steady.bind fun name copy same_name => ?_
  refine .skip (object_fields_alike same_text _ _ same_name rfl) fun _ _ => ?_
  refine .count fun cursor other length => ?_
  rw [length]
  refine (interface_names_steady _).bind fun interfaces others same_interfaces => ?_
  exact object_fields_alike same_text _ _ same_name same_interfaces

theorem interface_type_alike {description text : Option String}
    (same_text : view description = view text) :
    Alike view (Located.placeless fun interface => (interface.described view).placeless)
      (interfaceType description) (interfaceType text) := by
  refine (expect_steady _).bind fun keyword word _ => ?_
  refine name_steady.bind fun name copy same_name => ?_
  refine field_definitions_steady.map fun fields copies same => Located.placeless_eq ?_
  have same_fields : fields.node.map (lookFieldDefinition view) =
      copies.node.map (lookFieldDefinition view) := Located.placeless_node same
  simp only [Located.between, InterfaceType.described, InterfaceType.placeless, described_fields,
    same_text, same_name, same_fields]

theorem more_members_steady (count : Nat) :
    Steady view (List.map Located.bareName) (moreMembers count) := by
  induction count with
  | zero => exact .pure rfl
  | succ count ih =>
      refine .skip (.pure rfl) fun _ _ => ?_
      refine name_steady.bind fun first copy same => ?_
      exact ih.map fun rest others alike => congrArg₂ List.cons same alike

theorem union_type_alike {description text : Option String}
    (same_text : view description = view text) :
    Alike view (Located.placeless fun union => (union.described view).placeless)
      (unionType description) (unionType text) := by
  refine (expect_steady _).bind fun keyword word _ => ?_
  refine name_steady.bind fun name copy same_name => ?_
  refine (expect_steady _).bind fun _ _ _ => ?_
  refine (skip_steady _).bind fun _ _ _ => ?_
  refine name_steady.bind fun first other same_first => ?_
  refine .count fun cursor others length => ?_
  rw [length]
  refine (more_members_steady _).map fun rest copies same_rest => Located.placeless_eq ?_
  simp only [Located.between, UnionType.described, UnionType.placeless, List.map_cons, same_text,
    same_name, same_first, same_rest]

theorem scalar_type_alike {description text : Option String}
    (same_text : view description = view text) :
    Alike view (Located.placeless fun scalar => (scalar.described view).placeless)
      (scalarType description) (scalarType text) := by
  refine (expect_steady _).bind fun keyword word _ => ?_
  refine name_steady.map fun name copy same_name => Located.placeless_eq ?_
  simp only [Located.between, ScalarType.described, ScalarType.placeless, same_text, same_name]

/-- What is seen of an enum value. -/
abbrev lookEnumValue (view : Option String → Option String) :
    Located EnumValueDefinition → Located EnumValueDefinition :=
  Located.placeless fun value => (value.described view).placeless

theorem enum_value_steady : Steady view (lookEnumValue view) enumValue := by
  refine description_steady.bind fun description text same_text => ?_
  refine .peek fun found other same => ?_
  rw [same]
  split
  · exact reject_steady _
  · exact reject_steady _
  · refine name_steady.bind fun name copy same_name => ?_
    refine directives_steady.map fun marks others same_marks => Located.placeless_eq ?_
    simp only [Located.between, EnumValueDefinition.described, EnumValueDefinition.placeless,
      same_text, same_name, deprecation_alike same_marks]

theorem enum_type_alike {description text : Option String}
    (same_text : view description = view text) :
    Alike view (Located.placeless fun enum => (enum.described view).placeless)
      (enumType description) (enumType text) := by
  refine (expect_steady _).bind fun keyword word _ => ?_
  refine name_steady.bind fun name copy same_name => ?_
  refine (delimited_nonempty_steady _ _ enum_value_steady).bind fun values others same => ?_
  have same_values : values.node.map (lookEnumValue view) = others.node.map (lookEnumValue view) :=
    Located.placeless_node same
  refine (repeats_alike (fun value => value.node.name) (fun _ => rfl) same_values).bind
    fun _ _ _ => .pure (Located.placeless_eq ?_)
  have described (list : List (Located EnumValueDefinition)) :
      (list.map (Located.map (EnumValueDefinition.described view))).map
        (Located.placeless EnumValueDefinition.placeless) = list.map (lookEnumValue view) := by
    rw [List.map_map]
    rfl
  simp only [Located.between, EnumType.described, EnumType.placeless, described, same_text,
    same_name, same_values]

theorem input_object_type_alike {description text : Option String}
    (same_text : view description = view text) :
    Alike view (Located.placeless fun input => (input.described view).placeless)
      (inputObjectType description) (inputObjectType text) := by
  refine (expect_steady _).bind fun keyword word _ => ?_
  refine name_steady.bind fun name copy same_name => ?_
  refine (input_definitions_steady _ _ _).map fun fields copies same => Located.placeless_eq ?_
  have same_fields : fields.node.map (lookInput view) = copies.node.map (lookInput view) :=
    Located.placeless_node same
  simp only [Located.between, InputObjectType.described, InputObjectType.placeless,
    described_inputs, same_text, same_name, same_fields]

theorem type_extension_alike {description text : Option String}
    (same_text : view description = view text) :
    Alike view (lookObject view) (typeExtension description) (typeExtension text) := by
  refine (expect_steady _).bind fun keyword word _ => ?_
  exact (object_type_alike same_text).map fun object other same =>
    Located.placeless_eq (Located.placeless_node same)

theorem as_type_alike {α : Type} (wrap : α → TypeDefinition) {change : α → α}
    (wrapped : ∀ value, ((wrap value).described view).placeless = wrap (change value))
    {left right : Reader (Located α)} (alike : Alike view (Located.placeless change) left right) :
    Alike view (Definition.seen view) (asType wrap left) (asType wrap right) := by
  refine alike.map fun value other same => congrArg Definition.type (Located.placeless_eq ?_)
  exact (wrapped value.node).trans
    ((congrArg wrap (Located.placeless_node same)).trans (wrapped other.node).symm)

theorem definition_steady : Steady view (Definition.seen view) definition := by
  refine description_steady.bind fun description text same_text => ?_
  refine .peek fun found other same => ?_
  rw [same]
  split
  · exact bare_query_steady.map fun _ _ alike => congrArg Definition.operation alike
  · exact (keyword_operation_steady _).map fun _ _ alike => congrArg Definition.operation alike
  · exact (keyword_operation_steady _).map fun _ _ alike => congrArg Definition.operation alike
  · exact fragment_steady.map fun _ _ alike => congrArg Definition.fragment alike
  · exact as_type_alike .object (fun _ => rfl) (object_type_alike same_text)
  · exact as_type_alike .interface (fun _ => rfl) (interface_type_alike same_text)
  · exact as_type_alike .union (fun _ => rfl) (union_type_alike same_text)
  · exact as_type_alike .scalar (fun _ => rfl) (scalar_type_alike same_text)
  · exact as_type_alike .enum (fun _ => rfl) (enum_type_alike same_text)
  · exact as_type_alike .inputObject (fun _ => rfl) (input_object_type_alike same_text)
  · exact (type_extension_alike same_text).map fun _ _ alike => congrArg Definition.extension alike
  · exact .fail _ _ _
  · exact reject_steady _

theorem definitions_steady (count : Nat) :
    Steady view (List.map (Definition.seen view)) (definitions count) := by
  induction count with
  | zero => exact .peek fun found other _ => .fail _ _ _
  | succ count ih =>
      refine definition_steady.bind fun first copy same => .sees fun ends => ?_
      cases ends with
      | true => exact .pure (congrArg (fun one => [one]) same)
      | false => exact ih.map fun rest others alike => congrArg₂ List.cons same alike

end TypeDefinitions

end Reader

namespace Document

variable {view : Option String → Option String}

/-- A document without places, with what is seen of the descriptions in it. -/
def seen (view : Option String → Option String) (document : Document) : Document :=
  ⟨document.definitions.map (Definition.seen view), .unplaced⟩

/-- What is seen of an attempt to read a document. -/
def shown (view : Option String → Option String) :
    Except (Located ParseError) Document → Except ParseError Document
  | .ok document => .ok (document.seen view)
  | .error error => .error error.node

/-- A declaration without its place. -/
def bareDeclaration (declared : NameKind × Located String) : NameKind × Located String :=
  (declared.1, declared.2.bareName)

theorem declared_seen (definition : Definition) :
    (definition.seen view).declared? = definition.declared?.map bareDeclaration := by
  match definition with
  | .operation ⟨⟨_, none, _, _, _⟩, _⟩ => rfl
  | .operation ⟨⟨_, some _, _, _, _⟩, _⟩ => rfl
  | .fragment _ => rfl
  | .extension _ => rfl
  | .type ⟨type, _⟩ => cases type <;> rfl

/-- Which name is declared again is decided by kinds and names alone. -/
theorem first_redeclared_bare (earlier : List (NameKind × String))
    (list : List (NameKind × Located String)) :
    (firstRedeclared? earlier list).map bareDeclaration =
      firstRedeclared? earlier (list.map bareDeclaration) := by
  induction list generalizing earlier with
  | nil => rfl
  | cons declared rest ih =>
      obtain ⟨kind, name⟩ := declared
      rw [firstRedeclared?, List.map_cons, bareDeclaration, firstRedeclared?]
      change _ = if (kind, name.node) ∈ earlier then _ else
        firstRedeclared? ((kind, name.node) :: earlier) (rest.map bareDeclaration)
      split
      · rfl
      · exact ih _

theorem of_definitions_shown {definitions others : List Definition}
    (same : definitions.map (Definition.seen view) = others.map (Definition.seen view))
    (span place : Span) :
    shown view (ofDefinitions definitions span) = shown view (ofDefinitions others place) := by
  have declared (list : List Definition) :
      (firstRedeclared? [] (list.filterMap Definition.declared?)).map bareDeclaration =
        firstRedeclared? [] ((list.map (Definition.seen view)).filterMap Definition.declared?) := by
    rw [first_redeclared_bare, List.map_filterMap, List.filterMap_map]
    simp only [Function.comp_def, declared_seen]
  have found := (declared definitions).trans (same ▸ (declared others).symm)
  rw [ofDefinitions, ofDefinitions]
  cases first : firstRedeclared? [] (definitions.filterMap Definition.declared?) <;>
    cases second : firstRedeclared? [] (others.filterMap Definition.declared?)
  · exact congrArg (fun list => Except.ok (Document.mk list .unplaced)) same
  · simp [first, second] at found
  · simp [first, second] at found
  · rename_i name other
    have both : bareDeclaration name = bareDeclaration other := by
      simpa [first, second] using found
    obtain ⟨kind, text⟩ := Prod.mk.inj both
    exact congrArg Except.error (congrArg₂ ParseError.duplicate kind (Located.placeless_node text))

/-- Cursors of the same words are read alike. -/
theorem of_cursor_shown {cursor other : Cursor} (words : cursor.words view = other.words view) :
    shown view (ofCursor cursor) = shown view (ofCursor other) := by
  have length : cursor.length = other.length := by
    simpa [Cursor.words] using congrArg List.length words
  have read := (Reader.definitions_steady cursor.length).run cursor other words
  rw [ofCursor, ofCursor, ← length]
  generalize (Reader.definitions cursor.length).run cursor = first at read ⊢
  generalize (Reader.definitions cursor.length).run other = second at read ⊢
  cases first <;> cases second
  · obtain ⟨same, -⟩ := Prod.mk.inj (Except.ok.inj read)
    exact of_definitions_shown same _ _
  · cases read
  · cases read
  · exact congrArg Except.error (Except.error.inj read)

end Document

end GraphQL
