import GraphQL.Proofs.ReadingBack
import GraphQL.Reading.TypeDefinition

/-!
Type definitions are read back as they are written.

A description is found in front of the name it describes, a deprecation among the directives behind a
type. Definitions that end with a brace or with their names may stand in front of anything. The
members of a union go on as long as bars follow; what follows them is looked at, and has to be there.
-/

namespace GraphQL

/-- The directives that tell a deprecation. -/
def Deprecation.directives : Deprecation → Directives
  | .current => none
  | .deprecated none => some [.unplaced ⟨.unplaced "deprecated", none⟩]
  | .deprecated (some reason) =>
      some [.unplaced ⟨.unplaced "deprecated",
        some (.unplaced [⟨.unplaced "reason", .unplaced (.string reason)⟩])⟩]

theorem deprecation_pieces (deprecation : Deprecation) :
    deprecation.pieces = deprecation.directives.pieces := by
  cases deprecation with
  | current => rfl
  | deprecated reason =>
      cases reason with
      | none => rfl
      | some text =>
          simp [Deprecation.pieces, Deprecation.directives, Directives.pieces, Directive.pieces,
            argumentPieces, Argument.pieces, Literal.pieces, Located.unplaced]

theorem deprecation_writable (told : Deprecation) : told.directives.Writable := by
  have named : Name.isValid "deprecated" = true := by decide
  have reasoned : DistinctNames [.unplaced "reason"] := ⟨by decide, by decide⟩
  have directive (arguments : Option (Located (List Argument)))
      (writable : ArgumentsWritable arguments) :
      Directives.Writable (some [.unplaced ⟨.unplaced "deprecated", arguments⟩]) :=
    ⟨by simp, List.forall_mem_singleton.mpr named, List.forall_mem_singleton.mpr writable⟩
  match told with
  | .current => exact no_directives_writable
  | .deprecated none => exact directive none no_arguments_writable
  | .deprecated (some reason) =>
      refine directive _ ⟨fun list there => ?_, fun list there => ?_, fun list there => ?_⟩
      all_goals cases there
      · exact List.cons_ne_nil _ _
      · exact reasoned
      · refine List.forall_mem_singleton.mpr ?_
        simp [Located.unplaced, Literal.Writable]

theorem argument_placeless (directive : Directive) (name : String) :
    directive.placeless.argument? name =
      (directive.argument? name).map (Located.placeless Literal.placeless) := by
  obtain ⟨word, arguments⟩ := directive
  cases arguments with
  | none => rfl
  | some list =>
      simp only [Directive.argument?, Directive.placeless, placelessArguments, Option.map_some,
        findArgument?, Located.placeless, Located.unplaced, List.find?_map, Option.map_map]
      rfl

/-- Places do not matter for a deprecation. -/
theorem deprecation_placeless (list : Directives) :
    Reader.deprecation list.placeless = Reader.deprecation list := by
  have marks : list.placeless.getD [] =
      (list.getD []).map (Located.placeless Directive.placeless) := by
    cases list <;> rfl
  have text (literal : Literal) : literal.placeless.asString? = literal.asString? := by
    cases literal <;> simp [Literal.placeless, Literal.asString?]
  have reason (directive : Directive) :
      ((directive.placeless.argument? "reason").bind fun reason => reason.node.asString?) =
        (directive.argument? "reason").bind fun reason => reason.node.asString? := by
    rw [argument_placeless, Option.bind_map]
    exact congrArg _ (funext fun reason => text reason.node)
  have named (mark : Located Directive) :
      ((mark.placeless Directive.placeless).node.name.node == "deprecated") =
        (mark.node.name.node == "deprecated") := rfl
  rw [Reader.deprecation, Reader.deprecation, marks, List.find?_map]
  simp only [Function.comp_def, named]
  cases (list.getD []).find? fun mark => mark.node.name.node == "deprecated" with
  | none => rfl
  | some mark => exact congrArg Deprecation.deprecated (reason mark.node)

theorem deprecation_told (deprecation : Deprecation) :
    Reader.deprecation deprecation.directives = deprecation := by
  cases deprecation with
  | current => rfl
  | deprecated reason => cases reason <;> rfl

namespace Reader

variable {rest : List Piece}

/-- Where there are no directives, none are read. -/
theorem no_directives_take (after : Avoids [.punctuator .at, .punctuator .parenOpen] rest) :
    Takes directives rest rest fun found => found = none := by
  refine (directives_take no_directives_writable after).mono fun found same => ?_
  exact Option.map_eq_none_iff.mp same

theorem deprecation_takes {told : Deprecation}
    (after : Avoids [.punctuator .at, .punctuator .parenOpen] rest) :
    Takes directives (told.pieces ++ rest) rest fun found => deprecation found = told := by
  rw [deprecation_pieces]
  refine (directives_take (deprecation_writable told) after).mono fun found same => ?_
  rw [← deprecation_placeless, same, deprecation_placeless, deprecation_told]

theorem input_definition_takes {input : InputDefinition} (writable : input.Writable)
    (after : Avoids [.punctuator .bang, .punctuator .equals, .punctuator .at,
      .punctuator .parenOpen, .endOfFile] rest) :
    Takes inputDefinition (input.pieces ++ rest) rest
      fun found => found.node.placeless = input.placeless := by
  have no_mark : Avoids [.punctuator .bang] (defaultPieces input.default ++ rest) :=
    .optional (default_begins (by decide) _) (after.mono (by decide))
  rw [inputDefinition, InputDefinition.pieces]
  simp only [List.cons_append, List.append_assoc]
  refine (Takes.take_description _ _).bind fun description same_description => ?_
  refine (Takes.name (Token.of_word_name _) (List.cons_ne_nil _ _)).bind fun name named => ?_
  refine (Takes.expect _ (type_begins _).append.ne_nil).bind fun colon _ => ?_
  refine (type_takes writable.type no_mark).bind fun type same_type => ?_
  refine (default_takes writable.default (after.mono (by decide))).bind fun value same_value => ?_
  refine (no_directives_take (after.mono (by decide))).bind fun marks _ => .pure ?_
  have bare : name.bareName = input.name.bareName := congrArg Located.unplaced named
  have typed : type.placeless id = input.type.placeless id := Located.placeless_eq same_type
  simp only [InputDefinition.placeless, Located.between, bare, same_description, typed, same_value]

/-- Input definitions between two marks, the closing one of which ends a list. -/
theorem input_definitions_take {opening closing : Punctuator} {kind : NameKind}
    {inputs : List (Located InputDefinition)} (filled : inputs ≠ [])
    (closes : closing ∈ [.parenClose, .braceClose]) (writable : InputsWritable inputs)
    (follows : rest ≠ []) :
    Takes (inputDefinitions opening closing kind)
      (enclosed opening closing (inputPieces inputs) ++ rest) rest fun found =>
        found.node.map (Located.placeless InputDefinition.placeless) =
          inputs.map (Located.placeless InputDefinition.placeless) := by
  let parting : List Token :=
    [.punctuator .bang, .punctuator .equals, .punctuator .at, .punctuator .parenOpen, .endOfFile]
  have each : ∀ input ∈ inputs, ∀ rest, Avoids parting rest →
      Takes inputDefinition (input.node.pieces ++ rest) rest fun found =>
        found.placeless InputDefinition.placeless = input.placeless InputDefinition.placeless :=
    fun input member rest after =>
      (input_definition_takes (writable.each input member) after).mono
        fun found same => Located.placeless_eq same
  have begins : ∀ input ∈ inputs,
      Avoids (.punctuator closing :: .endOfFile :: parting) input.node.pieces :=
    fun input _ => .named (Token.of_word_name _) (by simp [parting, Token.asName?])
  have apart : .punctuator closing ∉ parting := by
    rcases List.mem_pair.mp closes with rfl | rfl <;> simp [parting]
  rw [inputDefinitions, inputPieces]
  exact distinct_list_takes filled writable.names.distinct each (fun _ => rfl) begins apart follows
    fun found same => .pure same

/-- What follows the arguments of a field definition. -/
theorem field_type_takes {field : FieldDefinition} (writable : field.type.node.Writable)
    {name : Located String} (named : name.node = field.name.node)
    {inputs : List (Located InputDefinition)}
    (same_inputs : inputs.map (Located.placeless InputDefinition.placeless) =
      field.arguments.map (Located.placeless InputDefinition.placeless))
    (after : Avoids [.punctuator .bang, .punctuator .at, .punctuator .parenOpen] rest) :
    Takes
      (do
        let _ ← expect (.punctuator .colon)
        let type ← typeRef
        let marks ← directives
        pure (.between name.span.start (directivesStop marks type.span.stop)
          ⟨name, field.description, inputs, type, deprecation marks⟩))
      (Punctuator.colon.piece :: (field.type.node.pieces ++ (field.deprecation.pieces ++ rest))) rest
      fun found : Located FieldDefinition => found.node.placeless = field.placeless := by
  have marks_next : Avoids [.punctuator .bang] (field.deprecation.pieces ++ rest) := by
    rw [deprecation_pieces]
    exact .optional (directives_begin (by decide) _) (after.mono (by decide))
  refine (Takes.expect _ (type_begins _).append.ne_nil).bind fun colon _ => ?_
  refine (type_takes writable marks_next).bind fun type same_type => ?_
  refine (deprecation_takes (after.mono (by decide))).bind fun marks told => .pure ?_
  have bare : name.bareName = field.name.bareName := congrArg Located.unplaced named
  have typed : type.placeless id = field.type.placeless id := Located.placeless_eq same_type
  simp only [FieldDefinition.placeless, Located.between, bare, same_inputs, typed, told]

theorem field_definition_takes {field : FieldDefinition} (writable : field.Writable)
    (after : Avoids [.punctuator .bang, .punctuator .at, .punctuator .parenOpen] rest) :
    Takes fieldDefinition (field.pieces ++ rest) rest
      fun found => found.node.placeless = field.placeless := by
  rw [fieldDefinition, FieldDefinition.pieces]
  simp only [List.cons_append, List.append_assoc]
  refine (Takes.take_description _ _).bind fun description same_description => ?_
  subst same_description
  refine (Takes.name (Token.of_word_name _) (by simp)).bind fun name named => ?_
  by_cases empty : field.arguments = []
  · have no_inputs : Avoids [.punctuator .parenOpen] (Punctuator.colon.piece ::
        (field.type.node.pieces ++ (field.deprecation.pieces ++ rest))) := by
      simp [Avoids, Token.plain]
    rw [empty, List.isEmpty_nil, if_pos rfl, List.nil_append]
    refine (Takes.sees_other no_inputs (by decide)).bind fun found absent => ?_
    rw [absent]
    exact field_type_takes writable.type named (by rw [empty]) after
  · rw [List.isEmpty_eq_false_iff.mpr empty, if_neg Bool.false_ne_true]
    refine (Takes.sees_present _).bind fun found present => ?_
    rw [present, if_pos rfl]
    refine (input_definitions_take empty (by decide) writable.arguments
      (List.cons_ne_nil _ _)).bind fun list same => ?_
    exact field_type_takes writable.type named same after

theorem field_definitions_take {fields : List (Located FieldDefinition)}
    (writable : FieldsWritable fields) (follows : rest ≠ []) :
    Takes fieldDefinitions (fieldPieces fields ++ rest) rest fun found =>
      found.node.map (Located.placeless FieldDefinition.placeless) =
        fields.map (Located.placeless FieldDefinition.placeless) := by
  have each : ∀ field ∈ fields, ∀ rest,
      Avoids [.punctuator .bang, .punctuator .at, .punctuator .parenOpen] rest →
      Takes fieldDefinition (field.node.pieces ++ rest) rest fun found =>
        found.placeless FieldDefinition.placeless = field.placeless FieldDefinition.placeless :=
    fun field member rest after =>
      (field_definition_takes (writable.each field member) after).mono
        fun found same => Located.placeless_eq same
  have begins : ∀ field ∈ fields, Avoids (.punctuator .braceClose :: .endOfFile ::
      [.punctuator .bang, .punctuator .at, .punctuator .parenOpen]) field.node.pieces :=
    fun field _ => .named (Token.of_word_name _) (by decide)
  rw [fieldDefinitions, fieldPieces]
  exact distinct_list_takes writable.filled writable.names.distinct each (fun _ => rfl) begins
    (by decide) follows fun found same => .pure same

/-- Names are taken up to an opening brace. -/
theorem interface_names_take {names : List (Located String)} (filled : names ≠ []) {count : Nat}
    (enough : names.length ≤ count) {more : List Piece} :
    Takes (interfaceNames count)
      (names.map (fun name => namePiece name.node) ++ Punctuator.braceOpen.piece :: more)
      (Punctuator.braceOpen.piece :: more)
      fun found => found.map Located.bareName = names.map Located.bareName := by
  induction names generalizing count with
  | nil => exact absurd rfl filled
  | cons name others ih =>
      obtain ⟨left, rfl⟩ := Nat.exists_eq_add_one.mpr (Nat.zero_lt_of_lt enough)
      rw [interfaceNames, List.map_cons, List.cons_append]
      refine (Takes.name (Token.of_word_name _) (by simp)).bind fun first named => ?_
      have bare : first.bareName = name.bareName := congrArg Located.unplaced named
      cases others with
      | nil =>
          refine (Takes.sees_present _).bind fun found present => ?_
          rw [present, if_pos rfl]
          exact .pure (congrArg (· :: []) bare)
      | cons other rest =>
          have goes_on : Avoids [.punctuator .braceOpen]
              ((other :: rest).map (fun name => namePiece name.node) ++
                Punctuator.braceOpen.piece :: more) :=
            .named (Token.of_word_name other.node) (by decide)
          refine (Takes.sees_other goes_on (by decide)).bind fun found absent => ?_
          rw [absent, if_neg Bool.false_ne_true]
          refine (ih (List.cons_ne_nil _ _) (Nat.le_of_succ_le_succ enough)).bind
            fun found same => .pure ?_
          rw [List.map_cons, List.map_cons, bare, same]

theorem object_type_takes {object : ObjectType} (writable : object.Writable)
    (follows : rest ≠ []) :
    Takes (objectType object.description) (Keyword.type.piece :: (object.body ++ rest)) rest
      fun found => found.node.placeless = object.placeless := by
  have fields := field_definitions_take writable.fields follows
  have finished (start : Position) {name : Located String} (named : name.node = object.name.node)
      {interfaces : List (Located String)}
      (same_interfaces : interfaces.map Located.bareName =
        object.interfaces.map Located.bareName) :
      Takes
        (do
          let fields ← fieldDefinitions
          pure (.between start fields.span.stop
            ⟨name, object.description, interfaces, fields.node⟩))
        (fieldPieces object.fields ++ rest) rest
        fun found : Located ObjectType => found.node.placeless = object.placeless := by
    have bare : name.bareName = object.name.bareName := congrArg Located.unplaced named
    refine fields.bind fun list same => .pure ?_
    simp only [ObjectType.placeless, Located.between, bare, same_interfaces, same]
  rw [objectType, ObjectType.body]
  simp only [List.cons_append, List.append_assoc]
  refine (Takes.expect _ (List.cons_ne_nil _ _)).bind fun keyword _ => ?_
  refine (Takes.name (Token.of_word_name _) (by simp [fieldPieces, enclosed])).bind
    fun name named => ?_
  cases listed : object.interfaces with
  | nil =>
      have no_interfaces : Avoids [.keyword .implements, .endOfFile]
          (fieldPieces object.fields ++ rest) := by
        simp [Avoids, fieldPieces, enclosed, Token.plain]
      refine (Takes.skip_missing no_interfaces (by decide) (by decide)).bind fun found missing => ?_
      rw [missing]
      exact finished _ named (by rw [listed])
  | cons first others =>
      have filled : object.interfaces ≠ [] := by simp [listed]
      have names := @interface_names_take object.interfaces filled
      rw [← listed]
      have written : interfacePieces object.interfaces = Keyword.implements.piece ::
          object.interfaces.map fun name => namePiece name.node := by
        rw [listed, interfacePieces]
        exact List.cons_ne_nil _ _
      rw [written, List.cons_append]
      refine (Takes.skip_present (by simp [listed])).bind fun found present => ?_
      obtain ⟨word, rfl⟩ := present
      refine Takes.count.bind fun cursor counted => ?_
      refine (names ?_).bind fun interfaces same => finished _ named same
      rw [counted, List.length_append, List.length_map]
      omega

theorem interface_type_takes {interface : InterfaceType} (fields : FieldsWritable interface.fields)
    (follows : rest ≠ []) :
    Takes (interfaceType interface.description) (Keyword.interface.piece ::
        namePiece interface.name.node :: (fieldPieces interface.fields ++ rest)) rest
      fun found => found.node.placeless = interface.placeless := by
  rw [interfaceType]
  refine (Takes.expect _ (List.cons_ne_nil _ _)).bind fun keyword _ => ?_
  refine (Takes.name (Token.of_word_name _) (by simp [fieldPieces, enclosed])).bind
    fun name named => ?_
  have bare : name.bareName = interface.name.bareName := congrArg Located.unplaced named
  refine (field_definitions_take fields follows).bind fun list same => .pure ?_
  simp only [InterfaceType.placeless, Located.between, bare, same]

theorem scalar_type_takes {scalar : ScalarType} (follows : rest ≠ []) :
    Takes (scalarType scalar.description)
      (Keyword.scalar.piece :: namePiece scalar.name.node :: rest) rest
      fun found => found.node.placeless = scalar.placeless := by
  rw [scalarType]
  refine (Takes.expect _ (List.cons_ne_nil _ _)).bind fun keyword _ => ?_
  refine (Takes.name (Token.of_word_name _) follows).bind fun name named => .pure ?_
  have bare : name.bareName = scalar.name.bareName := congrArg Located.unplaced named
  simp only [ScalarType.placeless, Located.between, bare]

theorem enum_value_takes {value : EnumValueDefinition} (allowed : IsEnumName value.name.node)
    (after : Avoids [.punctuator .at, .punctuator .parenOpen] rest) :
    Takes enumValue (value.pieces ++ rest) rest
      fun found => found.node.placeless = value.placeless := by
  have more : value.deprecation.pieces ++ rest ≠ [] := by simp [after.ne_nil]
  have named := Token.of_word_name value.name.node
  have valued (name : Located String) (same_name : name.node = value.name.node) :
      Takes
        (do
          let marks ← directives
          pure (.between name.span.start (directivesStop marks name.span.stop)
            ⟨name, value.description, deprecation marks⟩))
        (value.deprecation.pieces ++ rest) rest
        fun found : Located EnumValueDefinition => found.node.placeless = value.placeless := by
    have bare : name.bareName = value.name.bareName := congrArg Located.unplaced same_name
    refine (deprecation_takes after).bind fun marks told => .pure ?_
    simp only [EnumValueDefinition.placeless, Located.between, bare, told]
  rw [enumValue, EnumValueDefinition.pieces]
  refine (Takes.take_description _ _).bind fun description same_description => ?_
  subst same_description
  refine Takes.peek.bind fun found same => ?_
  have reads : Takes
      (do
        let valueName ← name
        let marks ← directives
        pure (.between valueName.span.start (directivesStop marks valueName.span.stop)
          ⟨valueName, value.description, deprecation marks⟩))
      (namePiece value.name.node :: (value.deprecation.pieces ++ rest)) rest
      fun found : Located EnumValueDefinition => found.node.placeless = value.placeless :=
    (Takes.name named more).bind fun found same => valued found same
  rcases enum_word allowed with word | ⟨keyword, word, -⟩
  · rw [same, show (Token.ofWord value.name.node).plain.token = .name value.name.node from word]
    exact reads
  · rw [same, show (Token.ofWord value.name.node).plain.token = .keyword keyword from word]
    exact reads

theorem enum_type_takes {enum : EnumType} (writable : enum.Writable) (follows : rest ≠ []) :
    Takes (enumType enum.description) (Keyword.enum.piece :: namePiece enum.name.node ::
        (enclosed .braceOpen .braceClose (enum.values.flatMap fun value => value.node.pieces) ++
          rest)) rest
      fun found => found.node.placeless = enum.placeless := by
  have each : ∀ value ∈ enum.values, ∀ rest,
      Avoids [.punctuator .at, .punctuator .parenOpen] rest →
      Takes enumValue (value.node.pieces ++ rest) rest fun found =>
        found.placeless EnumValueDefinition.placeless =
          value.placeless EnumValueDefinition.placeless :=
    fun value member rest after => (enum_value_takes (writable.each value member).1 after).mono
      fun found same => Located.placeless_eq same
  have begins : ∀ value ∈ enum.values, Avoids (.punctuator .braceClose :: .endOfFile ::
      [.punctuator .at, .punctuator .parenOpen]) value.node.pieces :=
    fun value _ => .named (Token.of_word_name _) (by decide)
  rw [enumType]
  refine (Takes.expect _ (List.cons_ne_nil _ _)).bind fun keyword _ => ?_
  refine (Takes.name (Token.of_word_name _) (by simp [enclosed])).bind fun name named => ?_
  have bare : name.bareName = enum.name.bareName := congrArg Located.unplaced named
  refine distinct_list_takes writable.filled writable.names.distinct each (fun _ => rfl) begins
    (by decide) follows fun list same => .pure ?_
  simp only [EnumType.placeless, Located.between, bare, same]

theorem input_object_type_takes {input : InputObjectType} (filled : input.fields ≠ [])
    (writable : InputsWritable input.fields) (follows : rest ≠ []) :
    Takes (inputObjectType input.description) (Keyword.input.piece :: namePiece input.name.node ::
        (enclosed .braceOpen .braceClose (inputPieces input.fields) ++ rest)) rest
      fun found => found.node.placeless = input.placeless := by
  rw [inputObjectType]
  refine (Takes.expect _ (List.cons_ne_nil _ _)).bind fun keyword _ => ?_
  refine (Takes.name (Token.of_word_name _) (by simp [enclosed])).bind fun name named => ?_
  have bare : name.bareName = input.name.bareName := congrArg Located.unplaced named
  refine (input_definitions_take filled (by decide) writable follows).bind
    fun list same => .pure ?_
  simp only [InputObjectType.placeless, Located.between, bare, same]

theorem type_extension_takes {object : ObjectType} (writable : object.Writable)
    (follows : rest ≠ []) :
    Takes (typeExtension object.description)
      (Keyword.extend.piece :: Keyword.type.piece :: (object.body ++ rest)) rest
      fun found => found.node.placeless = object.placeless := by
  rw [typeExtension]
  refine (Takes.expect _ (List.cons_ne_nil _ _)).bind fun keyword _ => ?_
  exact (object_type_takes writable follows).bind fun found same => .pure same

section Unions

/-- Members are read as long as bars follow; something else has to follow in the end. -/
theorem more_members_take {members : List (Located String)} {count : Nat}
    (enough : members.length < count) (after : Avoids [.punctuator .pipe, .endOfFile] rest) :
    Takes (moreMembers count) (morePieces members ++ rest) rest
      fun found => found.map Located.bareName = members.map Located.bareName := by
  induction members generalizing count with
  | nil =>
      obtain ⟨left, rfl⟩ := Nat.exists_eq_add_one.mpr (Nat.zero_lt_of_lt enough)
      rw [moreMembers]
      refine (Takes.skip_missing after (by decide) (by decide)).bind fun found missing => ?_
      rw [missing]
      exact .pure rfl
  | cons member others ih =>
      obtain ⟨left, rfl⟩ := Nat.exists_eq_add_one.mpr (Nat.zero_lt_of_lt enough)
      have more : morePieces others ++ rest ≠ [] := by simp [after.ne_nil]
      rw [moreMembers, morePieces, List.flatMap_cons, List.append_assoc]
      refine (Takes.skip_present (List.cons_ne_nil _ _)).bind fun found present => ?_
      obtain ⟨bar, rfl⟩ := present
      refine (Takes.name (Token.of_word_name _) more).bind fun first named => ?_
      have bare : first.bareName = member.bareName := congrArg Located.unplaced named
      refine (ih (Nat.lt_of_succ_lt_succ enough)).bind fun found same => .pure ?_
      rw [List.map_cons, List.map_cons, bare, same]

/-- Where nothing follows the members, a bar is looked for in vain. -/
theorem more_members_fail {members : List (Located String)} {count : Nat}
    (enough : members.length < count) :
    Fails (moreMembers count) (morePieces members ++ [Token.endOfFile.plain]) .unexpectedEnd := by
  induction members generalizing count with
  | nil =>
      obtain ⟨left, rfl⟩ := Nat.exists_eq_add_one.mpr (Nat.zero_lt_of_lt enough)
      rw [moreMembers]
      exact (Fails.skip_at_end (by decide)).bind
  | cons member others ih =>
      obtain ⟨left, rfl⟩ := Nat.exists_eq_add_one.mpr (Nat.zero_lt_of_lt enough)
      have more : morePieces others ++ [Token.endOfFile.plain] ≠ [] := by simp
      rw [moreMembers, morePieces, List.flatMap_cons, List.append_assoc]
      refine .after (Takes.skip_present (List.cons_ne_nil _ _)) fun found present => ?_
      obtain ⟨bar, rfl⟩ := present
      refine .after (Takes.name (Token.of_word_name _) more) fun first _ => ?_
      exact (ih (Nat.lt_of_succ_lt_succ enough)).bind

theorem more_length (members : List (Located String)) :
    members.length ≤ (morePieces members).length :=
  parts_length fun _ _ => List.cons_ne_nil _ _

/-- The bar in front of the first member is skipped if it is there. -/
theorem leading_bar_takes {leading : List Piece}
    (optional : leading = [] ∨ leading = [Punctuator.pipe.piece]) {name : String} :
    Takes (skip? (.punctuator .pipe)) (leading ++ namePiece name :: rest) (namePiece name :: rest)
      fun _ => True := by
  rcases optional with rfl | rfl
  · have no_bar : Avoids [.punctuator .pipe, .endOfFile] (namePiece name :: rest) :=
      .named (Token.of_word_name name) (by decide)
    exact (Takes.skip_missing no_bar (by decide) (by decide)).mono fun _ _ => trivial
  · exact (Takes.skip_present (List.cons_ne_nil _ _)).mono fun _ _ => trivial

variable {union : UnionType} {leading : List Piece}

theorem union_type_takes (optional : leading = [] ∨ leading = [Punctuator.pipe.piece])
    (filled : union.members ≠ []) (after : Avoids [.punctuator .pipe, .endOfFile] rest) :
    Takes (unionType union.description) (Keyword.union.piece :: namePiece union.name.node ::
        Punctuator.equals.piece :: (leading ++ (memberPieces union.members ++ rest))) rest
      fun found => found.node.placeless = union.placeless := by
  obtain ⟨name, description, members⟩ := union
  obtain ⟨first, others, rfl⟩ := List.exists_cons_of_ne_nil filled
  have more : morePieces others ++ rest ≠ [] := by simp [after.ne_nil]
  have shorter := more_length others
  -- The members are counted against all that is left, so that what follows makes up for the last look.
  have more_rest := List.length_pos_of_ne_nil after.ne_nil
  rw [unionType, memberPieces, List.cons_append]
  refine (Takes.expect _ (List.cons_ne_nil _ _)).bind fun keyword _ => ?_
  refine (Takes.name (Token.of_word_name _) (List.cons_ne_nil _ _)).bind fun found named => ?_
  refine (Takes.expect _ (by simp)).bind fun equals _ => ?_
  refine (leading_bar_takes optional).bind fun _ _ => ?_
  refine (Takes.name (Token.of_word_name _) more).bind fun member same_member => ?_
  refine Takes.count.bind fun cursor counted => ?_
  rw [List.length_append] at counted
  refine (more_members_take (by omega) after).bind fun found_others same => .pure ?_
  have bare : found.bareName = name.bareName := congrArg Located.unplaced named
  have bare_member : member.bareName = first.bareName := congrArg Located.unplaced same_member
  simp only [UnionType.placeless, Located.between, List.map_cons, bare, bare_member, same]

/-- A union at the end of a source is refused, as its members might go on. -/
theorem union_type_fails (optional : leading = [] ∨ leading = [Punctuator.pipe.piece])
    (filled : union.members ≠ []) :
    Fails (unionType union.description) (Keyword.union.piece :: namePiece union.name.node ::
        Punctuator.equals.piece :: (leading ++ (memberPieces union.members ++
          [Token.endOfFile.plain]))) .unexpectedEnd := by
  obtain ⟨name, description, members⟩ := union
  obtain ⟨first, others, rfl⟩ := List.exists_cons_of_ne_nil filled
  have more : morePieces others ++ [Token.endOfFile.plain] ≠ [] := by simp
  have shorter := more_length others
  rw [unionType, memberPieces, List.cons_append]
  refine .after (Takes.expect _ (List.cons_ne_nil _ _)) fun keyword _ => ?_
  refine .after (Takes.name (Token.of_word_name _) (List.cons_ne_nil _ _)) fun found _ => ?_
  refine .after (Takes.expect _ (by simp)) fun equals _ => ?_
  refine .after (leading_bar_takes optional) fun _ _ => ?_
  refine .after (Takes.name (Token.of_word_name _) more) fun member _ => ?_
  refine .after Takes.count fun cursor counted => ?_
  rw [List.length_append, List.length_singleton] at counted
  exact (more_members_fail (by omega)).bind

end Unions

end Reader

section Proper

theorem deprecation_proper (told : Deprecation) : AllProper told.pieces := by
  rw [deprecation_pieces]
  exact directives_proper (deprecation_writable told)

theorem inputs_proper {inputs : List (Located InputDefinition)} (writable : InputsWritable inputs) :
    AllProper (inputPieces inputs) := by
  refine .parts fun input member => ?_
  have fits := writable.each input member
  have valid := writable.names.valid _ (List.mem_map_of_mem member)
  exact .cons (described_proper valid fits.description) (.cons (mark_proper _)
    ((type_proper fits.type).append (default_proper fits.default)))

theorem fields_proper {fields : List (Located FieldDefinition)} (writable : FieldsWritable fields) :
    AllProper (fieldPieces fields) := by
  refine enclosed_proper (.parts fun field member => ?_)
  have fits := writable.each field member
  have valid := writable.names.valid _ (List.mem_map_of_mem member)
  have arguments : AllProper (if field.node.arguments.isEmpty then []
      else enclosed .parenOpen .parenClose (inputPieces field.node.arguments)) := by
    split
    · exact .nil
    · exact enclosed_proper (inputs_proper fits.arguments)
  exact .cons (described_proper valid fits.description) (arguments.append
    (.cons (mark_proper _) ((type_proper fits.type).append (deprecation_proper _))))

theorem body_proper {object : ObjectType} (writable : object.Writable) : AllProper object.body := by
  have names : AllProper (object.interfaces.map fun name => namePiece name.node) :=
    List.forall_mem_map.mpr fun name member => name_proper (writable.interfaces name member)
  have interfaces : AllProper (interfacePieces object.interfaces) := by
    unfold interfacePieces
    split
    · exact .nil
    · exact .cons (plain_keyword_proper _) names
  exact .cons (name_proper writable.name) (interfaces.append (fields_proper writable.fields))

theorem values_proper {enum : EnumType} (writable : enum.Writable) :
    AllProper (enclosed .braceOpen .braceClose
      (enum.values.flatMap fun value => value.node.pieces)) := by
  refine enclosed_proper (.parts fun value member => ?_)
  obtain ⟨allowed, described⟩ := writable.each value member
  exact .cons (described_proper allowed.1 described) (deprecation_proper _)

theorem members_proper {members : List (Located String)} (valid : ∀ name ∈ members, name.Valid) :
    AllProper (memberPieces members) := by
  cases members with
  | nil => exact .nil
  | cons first others =>
      refine .cons (name_proper (valid first List.mem_cons_self)) (.parts fun name member => ?_)
      exact .cons (mark_proper _) (.cons (name_proper (valid name (List.mem_cons_of_mem _ member)))
        .nil)

end Proper

end GraphQL
