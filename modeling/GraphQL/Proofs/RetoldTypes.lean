import GraphQL.Proofs.RetoldRequests
import GraphQL.Reading.Document

/-!
Type definitions in sources with other descriptions.

A description is taken in front of the first token of what it describes, so it is told anew for the
place where that begins. All else that is read is the same.
-/

namespace GraphQL

/-- Changes what is located by where it begins. -/
def Located.retold {α : Type} (change : Position → α → α) (located : Located α) : Located α :=
  ⟨change located.span.start located.node, located.span⟩

section Retold

variable (tell : Position → Option String → Option String)

def InputDefinition.retold (start : Position) (input : InputDefinition) : InputDefinition :=
  { input with description := tell start input.description }

def FieldDefinition.retold (start : Position) (field : FieldDefinition) : FieldDefinition :=
  { field with
    description := tell start field.description
    arguments := field.arguments.map (Located.retold (InputDefinition.retold tell)) }

def EnumValueDefinition.retold (start : Position) (value : EnumValueDefinition) :
    EnumValueDefinition :=
  { value with description := tell start value.description }

/-! Of types the description itself is given, as an extension does not begin with its type. -/

def ObjectType.retold (text : Option String) (object : ObjectType) : ObjectType :=
  { object with
    description := text
    fields := object.fields.map (Located.retold (FieldDefinition.retold tell)) }

def InterfaceType.retold (text : Option String) (interface : InterfaceType) : InterfaceType :=
  { interface with
    description := text
    fields := interface.fields.map (Located.retold (FieldDefinition.retold tell)) }

def EnumType.retold (text : Option String) (enum : EnumType) : EnumType :=
  { enum with
    description := text
    values := enum.values.map (Located.retold (EnumValueDefinition.retold tell)) }

def InputObjectType.retold (text : Option String) (input : InputObjectType) : InputObjectType :=
  { input with
    description := text
    fields := input.fields.map (Located.retold (InputDefinition.retold tell)) }

def TypeDefinition.retold (text : Option String) : TypeDefinition → TypeDefinition
  | .scalar definition => .scalar { definition with description := text }
  | .object definition => .object (definition.retold tell text)
  | .interface definition => .interface (definition.retold tell text)
  | .union definition => .union { definition with description := text }
  | .enum definition => .enum (definition.retold tell text)
  | .inputObject definition => .inputObject (definition.retold tell text)

/-- A definition with a description of its own, and others told anew in it. -/
def Definition.retoldAs (text : Option String) : Definition → Definition
  | .type located => .type (located.map (TypeDefinition.retold tell text))
  | .extension located => .extension (located.map (ObjectType.retold tell text))
  | .operation located => .operation located
  | .fragment located => .fragment located

end Retold

namespace Definition

def start : Definition → Position
  | .operation located => located.span.start
  | .fragment located => located.span.start
  | .type located => located.span.start
  | .extension located => located.span.start

/-- The description of a type or of an extension; operations and fragments have none. -/
def description : Definition → Option String
  | .operation _ | .fragment _ => none
  | .type located => located.node.description
  | .extension located => located.node.description

def retold (tell : Position → Option String → Option String) (definition : Definition) :
    Definition :=
  definition.retoldAs tell (tell definition.start definition.description)

end Definition

namespace Reader

variable {told : Retelling}

section Parts

/-- What is told anew of an input definition. -/
abbrev copyInput (told : Retelling) : Located InputDefinition → Located InputDefinition :=
  Located.retold (InputDefinition.retold told.tell)

theorem input_definition_echoes :
    Echoes told told.Cursors told.Cursors (Copied (copyInput told)) inputDefinition
      inputDefinition := by
  refine .describe (fun start text => name_placed.bind fun name _ taken => ?_) fun _ =>
    name_fails_at_end.first
  obtain ⟨rfl, rfl⟩ := taken
  exact (expect_echoes _).step fun _ => type_ref_same.step fun _ => default_value_same.step fun _ =>
    directives_same.step fun _ => .pure rfl

theorem input_definitions_echoes (opening closing : Punctuator) (kind : NameKind) :
    Echoes told told.Cursors told.Cursors (Copied (listCopy (copyInput told)))
      (inputDefinitions opening closing kind) (inputDefinitions opening closing kind) :=
  named_list_echoes _ _ kind (fun _ => rfl) input_definition_echoes

abbrev copyField (told : Retelling) : Located FieldDefinition → Located FieldDefinition :=
  Located.retold (FieldDefinition.retold told.tell)

theorem field_definition_echoes :
    Echoes told told.Cursors told.Cursors (Copied (copyField told)) fieldDefinition
      fieldDefinition := by
  refine .describe (fun start text => name_placed.bind fun name _ taken => ?_) fun _ =>
    name_fails_at_end.first
  obtain ⟨rfl, rfl⟩ := taken
  refine .sees fun opened => ?_
  cases opened with
  | false =>
      exact (expect_echoes _).step fun _ => type_ref_same.step fun _ => directives_same.step fun _ =>
        .pure rfl
  | true =>
      refine (input_definitions_echoes _ _ _).bind fun list _ same => ?_
      cases same
      exact (expect_echoes _).step fun _ => type_ref_same.step fun _ => directives_same.step fun _ =>
        .pure rfl

theorem field_definitions_echoes :
    Echoes told told.Cursors told.Cursors (Copied (listCopy (copyField told))) fieldDefinitions
      fieldDefinitions :=
  named_list_echoes _ _ .field (fun _ => rfl) field_definition_echoes

abbrev copyValue (told : Retelling) : Located EnumValueDefinition → Located EnumValueDefinition :=
  Located.retold (EnumValueDefinition.retold told.tell)

theorem enum_value_echoes :
    Echoes told told.Cursors told.Cursors (Copied (copyValue told)) enumValue enumValue := by
  refine .describe (fun start text => ?_) fun text entry ended value left ran => ?_
  · refine .peek told.facing_heads (fun found _ => ?_) fun found ended => ?_
    · split
      · exact reject_placed _
      · exact reject_placed _
      · refine name_placed.bind fun name _ taken => ?_
        obtain ⟨rfl, rfl⟩ := taken
        exact directives_same.step fun _ => .pure rfl
    · rw [ended]
      exact name_fails_at_end.first
  · obtain ⟨found, _, looked, taken⟩ := run_bind ran
    cases looked
    rw [ended] at taken
    exact name_fails_at_end.first entry ended value left taken

theorem interface_names_same {count other : Nat} (allows : told.Allows count other) :
    ReadsSame told (interfaceNames count) (interfaceNames other) := by
  induction count generalizing other with
  | zero => exact .none_allowed interfaceNames told.cursors_heads allows rfl rfl
  | succ count ih =>
      obtain ⟨less, rfl, fewer⟩ := allows.pred
      refine name_echoes.step fun first => .sees fun opened => ?_
      cases opened with
      | true => exact .pure rfl
      | false => exact (ih fewer).step fun _ => .pure rfl

/-- As many members are read from the second source, as each of them takes a bar and a name. -/
theorem more_members_same {count other : Nat} (allows : told.Allows count other)
    {cursor later : Cursor} (cursors : told.Cursors cursor later)
    (enough : cursor.length ≤ count) :
    Echo told told.Cursors (Copied id) ((moreMembers count).run cursor)
      ((moreMembers other).run later) := by
  induction count generalizing other cursor later with
  | zero => exact absurd (List.eq_nil_of_length_eq_zero (Nat.le_zero.mp enough)) cursors.filled
  | succ count ih =>
      obtain ⟨less, rfl, fewer⟩ := allows.pred
      refine ((skip_echoes _).run cursor later cursors).bind ?_
      rintro _ found middle between skipped - rfl rest
      cases found with
      | none => exact ⟨[], between, rfl, rfl, rest⟩
      | some bar =>
          refine (name_echoes.run middle between rest).bind ?_
          rintro _ first left behind named - rfl after
          have shorter : left.length < cursor.length := by
            rcases skip_ran skipped with ⟨_, _, _, rfl, -, -, rfl⟩ | ⟨_, _, -, -, -, absent, -⟩
            · obtain ⟨_, _, _, _, same, -, -, rfl⟩ := name_ran named
              have lengths := congrArg List.length same
              simp only [List.length_cons] at lengths ⊢
              omega
            · cases absent
          refine (ih fewer after (by omega)).bind ?_
          rintro _ others last final - - rfl ended
          exact ⟨_, final, rfl, rfl, ended⟩

end Parts

section Types

variable {α : Type} {placed : Position → Prop} {text anew : Option String}

/--
A type with a description that was handed in, read a second time with another one. It begins where
its first token is.
-/
structure Headed (placed : Position → Prop) (text : Option String) (description : α → Option String)
    (copy : α → α) (value made : Located α) : Prop where
  made : made = value.map copy
  there : placed value.span.start
  described : description value.node = text

/-- A reader of types, which is handed a description. -/
abbrev TypeEchoes (told : Retelling) (placed : Position → Prop) (text anew : Option String)
    (description : α → Option String) (copy : Option String → α → α)
    (reader : Option String → Reader (Located α)) : Prop :=
  Echoes told (told.Facing placed) told.Cursors (Headed placed text description (copy anew))
    (reader text) (reader anew)

theorem object_type_echoes :
    TypeEchoes told placed text anew ObjectType.description (ObjectType.retold told.tell)
      objectType := by
  refine (expect_placed _).bind fun _ keyword taken => ?_
  obtain ⟨rfl, there⟩ := taken
  refine name_echoes.step fun name => (skip_echoes _).step fun implements => ?_
  cases implements with
  | none =>
      refine field_definitions_echoes.bind fun fields _ same => ?_
      cases same
      exact .pure ⟨rfl, there, rfl⟩
  | some _ =>
      refine .count fun _ _ allows => (interface_names_same allows).step fun interfaces => ?_
      refine field_definitions_echoes.bind fun fields _ same => ?_
      cases same
      exact .pure ⟨rfl, there, rfl⟩

theorem interface_type_echoes :
    TypeEchoes told placed text anew InterfaceType.description (InterfaceType.retold told.tell)
      interfaceType := by
  refine (expect_placed _).bind fun _ keyword taken => ?_
  obtain ⟨rfl, there⟩ := taken
  refine name_echoes.step fun name => field_definitions_echoes.bind fun fields _ same => ?_
  cases same
  exact .pure ⟨rfl, there, rfl⟩

theorem union_type_echoes :
    TypeEchoes told placed text anew UnionType.description
      (fun text union => { union with description := text }) unionType := by
  refine (expect_placed _).bind fun _ keyword taken => ?_
  obtain ⟨rfl, there⟩ := taken
  refine name_echoes.step fun name => (expect_echoes _).step fun _ => (skip_echoes _).step fun _ =>
    name_echoes.step fun first => ⟨fun cursor other cursors => ?_⟩
  refine (more_members_same cursors.allows cursors (Nat.le_refl _)).bind ?_
  rintro _ members left later - - rfl rest
  exact ⟨_, later, rfl, ⟨rfl, there, rfl⟩, rest⟩

theorem scalar_type_echoes :
    TypeEchoes told placed text anew ScalarType.description
      (fun text scalar => { scalar with description := text }) scalarType := by
  refine (expect_placed _).bind fun _ keyword taken => ?_
  obtain ⟨rfl, there⟩ := taken
  exact name_echoes.step fun name => .pure ⟨rfl, there, rfl⟩

theorem enum_type_echoes :
    TypeEchoes told placed text anew EnumType.description (EnumType.retold told.tell)
      enumType := by
  refine (expect_placed _).bind fun _ keyword taken => ?_
  obtain ⟨rfl, there⟩ := taken
  refine name_echoes.step fun name => ?_
  refine (delimited_nonempty_echoes _ _ enum_value_echoes).bind fun values _ same => ?_
  cases same
  rw [@list_copy_keys _ (copyValue told) _ (·.node.name) (fun _ => rfl)]
  exact (repeats_echoes _ _).step fun _ => .pure ⟨rfl, there, rfl⟩

theorem input_object_type_echoes :
    TypeEchoes told placed text anew InputObjectType.description (InputObjectType.retold told.tell)
      inputObjectType := by
  refine (expect_placed _).bind fun _ keyword taken => ?_
  obtain ⟨rfl, there⟩ := taken
  refine name_echoes.step fun name => (input_definitions_echoes _ _ _).bind fun fields _ same => ?_
  cases same
  exact .pure ⟨rfl, there, rfl⟩

/-- Behind its keyword an extension is an object type, wherever that begins. -/
theorem type_extension_echoes :
    TypeEchoes told placed text anew ObjectType.description (ObjectType.retold told.tell)
      typeExtension := by
  refine (expect_placed _).bind fun _ keyword taken => ?_
  obtain ⟨rfl, there⟩ := taken
  refine (Echoes.widen object_type_echoes).bind fun object _ same => ?_
  obtain ⟨rfl, -, described⟩ := same
  exact .pure ⟨rfl, there, described⟩

end Types

section Definitions

/--
A definition that was handed a description, read a second time with another one. Operations and
fragments have no use for it.
-/
inductive Entitled (told : Retelling) (start : Position) (text anew : Option String) :
    Definition → Definition → Prop where
  | operation {located} : Entitled told start text anew (.operation located) (.operation located)
  | fragment {located} : Entitled told start text anew (.fragment located) (.fragment located)
  | type {located} (there : located.span.start = start) (described : located.node.description = text) :
      Entitled told start text anew (.type located)
        (.type (located.map (TypeDefinition.retold told.tell anew)))
  | extension {located} (there : located.span.start = start)
      (described : located.node.description = text) :
      Entitled told start text anew (.extension located)
        (.extension (located.map (ObjectType.retold told.tell anew)))

variable {start : Position} {text anew : Option String}

theorem as_type_echoes {α : Type} (wrap : α → TypeDefinition) {description : α → Option String}
    {copy : Option String → α → α} {reader : Option String → Reader (Located α)}
    (described : ∀ value, (wrap value).description = description value)
    (wrapped : ∀ value, wrap (copy anew value) = (wrap value).retold told.tell anew)
    (echoes : TypeEchoes told (· = start) text anew description copy reader) :
    Echoes told (told.Facing (· = start)) told.Cursors (Entitled told start text anew)
      (asType wrap (reader text)) (asType wrap (reader anew)) := by
  refine echoes.bind fun value _ headed => ?_
  obtain ⟨rfl, there, same⟩ := headed
  have mapped : (value.map (copy anew)).map wrap =
      (value.map wrap).map (TypeDefinition.retold told.tell anew) :=
    congrArg (Located.mk · value.span) (wrapped value.node)
  rw [mapped]
  exact .pure (.type there ((described value.node).trans same))

/-- What is read behind the description of a definition, whatever that is. -/
theorem definition_entrance : ∃ body : Option String → Reader Definition,
    definition = takeDescription >>= body ∧ (∀ text, FailsAtEnd (body text)) ∧
      ∀ (told : Retelling) (start : Position) (text anew : Option String),
        Echoes told (told.Facing (· = start)) told.Cursors (Entitled told start text anew)
          (body text) (body anew) := by
  refine ⟨_, rfl, fun text entry ended value left ran => ?_, fun told start text anew => ?_⟩
  · obtain ⟨found, _, looked, taken⟩ := run_bind ran
    cases looked
    rw [ended] at taken
    cases taken
  · refine .peek told.facing_heads (fun found _ => ?_) fun found ended => ?_
    · split
      · exact (bare_query_same _).step fun _ => .pure .operation
      · exact (keyword_operation_same _ _).step fun _ => .pure .operation
      · exact (keyword_operation_same _ _).step fun _ => .pure .operation
      · exact (fragment_same _).step fun _ => .pure .fragment
      · exact as_type_echoes .object (fun _ => rfl) (fun _ => rfl) object_type_echoes
      · exact as_type_echoes .interface (fun _ => rfl) (fun _ => rfl) interface_type_echoes
      · exact as_type_echoes .union (fun _ => rfl) (fun _ => rfl) union_type_echoes
      · exact as_type_echoes .scalar (fun _ => rfl) (fun _ => rfl) scalar_type_echoes
      · exact as_type_echoes .enum (fun _ => rfl) (fun _ => rfl) enum_type_echoes
      · exact as_type_echoes .inputObject (fun _ => rfl) (fun _ => rfl) input_object_type_echoes
      · refine type_extension_echoes.bind fun object _ headed => ?_
        obtain ⟨rfl, there, described⟩ := headed
        exact .pure (.extension there described)
      · exact .fail
      · exact reject_placed _
    · rw [ended]
      exact .fail

end Definitions

end Reader

end GraphQL
