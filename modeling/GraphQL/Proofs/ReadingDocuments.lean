import GraphQL.Proofs.ReadingSelections
import GraphQL.Proofs.ReadingTypes
import GraphQL.Reading.Document

/-!
Documents are read back as they are written.

All definitions of a document but unions may be the last thing in a source. The members of a union
are followed by a look at what comes next, which at the end of the source is an error: a union is read
back in front of another definition only.
-/

namespace GraphQL

def Definition.isUnion : Definition → Bool
  | .type ⟨.union _, _⟩ => true
  | _ => false

def Definition.isExecutable : Definition → Bool
  | .operation _ | .fragment _ => true
  | _ => false

/-- The last definition is a union. -/
def EndsWithUnion (definitions : List Definition) : Prop :=
  ∃ last ∈ definitions.getLast?, last.isUnion = true

theorem ends_with_union_last {definition : Definition} (union : definition.isUnion = true) :
    EndsWithUnion [definition] := ⟨definition, rfl, union⟩

/-- Definitions in front of others do not come last. -/
theorem ends_with_union_cons {definition : Definition} {others : List Definition}
    (more : others ≠ []) : EndsWithUnion (definition :: others) ↔ EndsWithUnion others := by
  obtain ⟨other, rest, rfl⟩ := List.exists_cons_of_ne_nil more
  rw [EndsWithUnion, List.getLast?_cons_cons, ← EndsWithUnion]

theorem definition_printed (definition : Definition) : ∃ pieces, definition.Printed pieces := by
  match definition with
  | .operation located => exact ⟨_, .operation located⟩
  | .fragment located => exact ⟨_, .fragment located⟩
  | .type ⟨.scalar scalar, span⟩ => exact ⟨_, .scalar scalar span⟩
  | .type ⟨.object object, span⟩ => exact ⟨_, .object object span⟩
  | .type ⟨.interface interface, span⟩ => exact ⟨_, .interface interface span⟩
  | .type ⟨.union union, span⟩ => exact ⟨_, .union union span [] (.inl rfl)⟩
  | .type ⟨.enum enum, span⟩ => exact ⟨_, .enum enum span⟩
  | .type ⟨.inputObject input, span⟩ => exact ⟨_, .inputObject input span⟩
  | .extension located => exact ⟨_, .extension located⟩

theorem definition_begins {definition : Definition} {pieces : List Piece}
    (printed : definition.Printed pieces) :
    Avoids [.punctuator .pipe, .endOfFile] pieces := by
  cases printed <;>
    simp [Avoids, Operation.pieces, Fragment.pieces, UnionType.pieces, enclosed, Token.plain]

theorem definition_proper {definition : Definition} {pieces : List Piece}
    (printed : definition.Printed pieces) (writable : definition.Writable) : AllProper pieces := by
  cases printed with
  | operation located => exact operation_proper writable
  | bareQuery located bare => exact set_proper (Operation.Writable.selections writable)
  | fragment located => exact fragment_proper writable
  | object object span =>
      exact .cons (keyword_proper _ (ObjectType.Writable.description writable))
        (body_proper writable)
  | interface interface span =>
      obtain ⟨valid, described, fields⟩ := writable
      exact .cons (keyword_proper _ described) (.cons (name_proper valid) (fields_proper fields))
  | union union span leading optional =>
      obtain ⟨valid, described, -, members⟩ := writable
      have bar : AllProper leading := by
        rcases optional with rfl | rfl
        · exact .nil
        · exact .cons (mark_proper _) .nil
      exact .cons (keyword_proper _ described) (.cons (name_proper valid)
        (.cons (mark_proper _) (bar.append (members_proper members))))
  | scalar scalar span =>
      exact .cons (keyword_proper _ writable.2) (.cons (name_proper writable.1) .nil)
  | enum enum span =>
      exact .cons (keyword_proper _ (EnumType.Writable.description writable))
        (.cons (name_proper (EnumType.Writable.name writable)) (values_proper writable))
  | inputObject input span =>
      obtain ⟨valid, described, -, inputs⟩ := writable
      exact .cons (keyword_proper _ described)
        (.cons (name_proper valid) (enclosed_proper (inputs_proper inputs)))
  | extension located =>
      exact .cons (keyword_proper _ (ObjectType.Writable.description writable))
        (.cons (plain_keyword_proper _) (body_proper writable))

namespace Reader

variable {rest : List Piece}

theorem as_type_takes {α : Type} {wrap : α → TypeDefinition} {change : α → α} {type : α}
    {span : Span} {reader : Reader (Located α)} {input : List Piece}
    (kept : ∀ other, (wrap other).placeless = wrap (change other))
    (reads : Takes reader input rest fun found => change found.node = change type) :
    Takes (asType wrap reader) input rest fun found =>
      found.placeless = (Definition.type ⟨wrap type, span⟩).placeless := by
  rw [asType]
  refine reads.bind fun found same => .pure ?_
  refine congrArg Definition.type (Located.placeless_eq ?_)
  change (wrap found.node).placeless = (wrap type).placeless
  rw [kept, kept, same]

/-- The description in front of a definition is taken, and its first token is looked at. -/
theorem described_takes {α : Type} {body : Option String → Located Token → Reader α}
    {token : Token} {description : Option String} {input : List Piece} {property : α → Prop}
    (reads : ∀ found : Located Token, found.node = token →
      Takes (body description found) (token.plain :: input) rest property) :
    Takes
      (do
        let taken ← takeDescription
        let found ← peek
        body taken found)
      (token.described description :: input) rest property := by
  refine (Takes.take_description _ _).bind fun taken same_description => ?_
  subst same_description
  exact Takes.peek.bind fun found same => reads found same

theorem operation_takes {operation : Located Operation} {reader : Reader (Located Operation)}
    {input : List Piece}
    (reads : Takes reader input rest fun found =>
      found.node.placeless = operation.node.placeless) :
    Takes
      (do
        let found ← reader
        pure (Definition.operation found))
      input rest fun found => found.placeless = (Definition.operation operation).placeless :=
  reads.bind fun _ same => .pure (congrArg Definition.operation (Located.placeless_eq same))

/-- A definition is read back; behind a union there has to be something that is no bar. -/
theorem definition_takes {definition : Definition} {pieces : List Piece}
    (printed : definition.Printed pieces) (writable : definition.Writable) (follows : rest ≠ [])
    (open_end : definition.isUnion = true → Avoids [.punctuator .pipe, .endOfFile] rest) :
    Takes Reader.definition (pieces ++ rest) rest
      fun found => found.placeless = definition.placeless := by
  rw [Reader.definition]
  cases printed with
  | operation located =>
      obtain ⟨⟨kind, name, inputs, directives, selections⟩, span⟩ := located
      have reads := keyword_operation_takes writable follows
      refine described_takes fun found same => ?_
      rw [same]
      cases kind with
      | query => exact operation_takes reads
      | mutation => exact operation_takes reads
  | bareQuery located bare =>
      refine described_takes fun found same => ?_
      rw [same]
      exact operation_takes (bare_query_takes bare writable follows)
  | fragment located =>
      refine described_takes fun found same => ?_
      rw [same]
      refine (fragment_takes writable follows).bind fun parts same_parts => .pure ?_
      exact congrArg Definition.fragment (Located.placeless_eq same_parts)
  | object object span =>
      refine described_takes fun found same => ?_
      rw [same]
      exact as_type_takes (fun _ => rfl) (object_type_takes writable follows)
  | interface interface span =>
      refine described_takes fun found same => ?_
      rw [same]
      exact as_type_takes (fun _ => rfl) (interface_type_takes writable.2.2 follows)
  | union union span leading optional =>
      simp only [UnionType.pieces, List.cons_append, List.append_assoc]
      refine described_takes fun found same => ?_
      rw [same]
      exact as_type_takes (fun _ => rfl)
        (union_type_takes optional writable.2.2.1 (open_end rfl))
  | scalar scalar span =>
      refine described_takes fun found same => ?_
      rw [same]
      exact as_type_takes (fun _ => rfl) (scalar_type_takes follows)
  | enum enum span =>
      refine described_takes fun found same => ?_
      rw [same]
      exact as_type_takes (fun _ => rfl) (enum_type_takes writable follows)
  | inputObject input span =>
      refine described_takes fun found same => ?_
      rw [same]
      exact as_type_takes (fun _ => rfl)
        (input_object_type_takes writable.2.2.1 writable.2.2.2 follows)
  | extension located =>
      refine described_takes fun found same => ?_
      rw [same]
      refine (type_extension_takes writable follows).bind fun object same_object => .pure ?_
      exact congrArg Definition.extension (Located.placeless_eq same_object)

/-- A union is not read in front of the end of the source. -/
theorem definition_fails {definition : Definition} {pieces : List Piece}
    (printed : definition.Printed pieces) (writable : definition.Writable)
    (union : definition.isUnion = true) :
    Fails Reader.definition (pieces ++ [Token.endOfFile.plain]) .unexpectedEnd := by
  cases printed with
  | union union span leading optional =>
      simp only [UnionType.pieces, List.cons_append, List.append_assoc]
      rw [Reader.definition]
      refine .after (Takes.take_description _ _) fun description same_description => ?_
      subst same_description
      refine .after Takes.peek fun found same => ?_
      rw [same]
      exact (union_type_fails optional writable.2.2.1).bind
  | _ => cases union

theorem definitions_begin {definitions : List Definition} {parts : List (List Piece)}
    (printed : List.Forall₂ Definition.Printed definitions parts) (filled : definitions ≠ []) :
    Avoids [.punctuator .pipe, .endOfFile] (parts.flatten ++ rest) := by
  cases printed with
  | nil => exact absurd rfl filled
  | cons first others =>
      rw [List.flatten_cons, List.append_assoc]
      exact (definition_begins first).append

/-- Definitions are read back up to the end of the source, unless a union comes last. -/
theorem definitions_take {definitions : List Definition} {parts : List (List Piece)}
    (printed : List.Forall₂ Definition.Printed definitions parts) (filled : definitions ≠ [])
    (writable : ∀ definition ∈ definitions, definition.Writable)
    (closed : ¬ EndsWithUnion definitions) {count : Nat} (enough : definitions.length ≤ count) :
    Takes (Reader.definitions count) (parts.flatten ++ [Token.endOfFile.plain])
      [Token.endOfFile.plain] fun found =>
        found.map Definition.placeless = definitions.map Definition.placeless := by
  induction printed generalizing count with
  | nil => exact absurd rfl filled
  | @cons definition pieces others parts first later ih =>
      obtain ⟨left, rfl⟩ := Nat.exists_eq_add_one.mpr (Nat.zero_lt_of_lt enough)
      have fits := writable definition List.mem_cons_self
      rw [Reader.definitions, List.flatten_cons, List.append_assoc]
      -- What follows a definition is the end of the source or begins another definition.
      by_cases last : others = []
      · subst last
        cases later
        have no_union : definition.isUnion = true → Avoids [.punctuator .pipe, .endOfFile]
            [Token.endOfFile.plain] := fun union => absurd (ends_with_union_last union) closed
        refine (definition_takes first fits (List.cons_ne_nil _ _) no_union).bind
          fun found same => ?_
        refine (Takes.sees_present _).bind fun ended present => ?_
        rw [present, if_pos rfl]
        exact .pure (congrArg (· :: []) same)
      · have goes_on : Avoids [.punctuator .pipe, .endOfFile]
            (parts.flatten ++ [Token.endOfFile.plain]) := definitions_begin later last
        refine (definition_takes first fits goes_on.ne_nil fun _ => goes_on).bind
          fun found same => ?_
        refine (Takes.sees_other goes_on (by decide)).bind fun ended absent => ?_
        rw [absent, if_neg Bool.false_ne_true]
        refine (ih last (fun other member => writable other (List.mem_cons_of_mem _ member))
          (fun union => closed ((ends_with_union_cons last).mpr union))
          (Nat.le_of_succ_le_succ enough)).bind fun rest same_rest => .pure ?_
        exact congrArg₂ List.cons same same_rest

/-- Definitions the last of which is a union are read up to its members, and then refused. -/
theorem definitions_fail {definitions : List Definition} {parts : List (List Piece)}
    (printed : List.Forall₂ Definition.Printed definitions parts)
    (writable : ∀ definition ∈ definitions, definition.Writable)
    (union : EndsWithUnion definitions) {count : Nat} (enough : definitions.length ≤ count) :
    Fails (Reader.definitions count) (parts.flatten ++ [Token.endOfFile.plain])
      .unexpectedEnd := by
  induction printed generalizing count with
  | nil =>
      obtain ⟨last, absent, -⟩ := union
      cases absent
  | @cons definition pieces others parts first later ih =>
      obtain ⟨left, rfl⟩ := Nat.exists_eq_add_one.mpr (Nat.zero_lt_of_lt enough)
      have fits := writable definition List.mem_cons_self
      rw [Reader.definitions, List.flatten_cons, List.append_assoc]
      by_cases last : others = []
      · subst last
        cases later
        obtain ⟨last, same, union⟩ := union
        cases same
        exact (definition_fails first fits union).bind
      · have goes_on : Avoids [.punctuator .pipe, .endOfFile]
            (parts.flatten ++ [Token.endOfFile.plain]) := definitions_begin later last
        refine .after (definition_takes first fits goes_on.ne_nil fun _ => goes_on)
          fun found _ => ?_
        refine .after (Takes.sees_other goes_on (by decide)) fun ended absent => ?_
        rw [absent, if_neg Bool.false_ne_true]
        exact (ih (fun other member => writable other (List.mem_cons_of_mem _ member))
          ((ends_with_union_cons last).mp union) (Nat.le_of_succ_le_succ enough)).bind

end Reader

/-- The names under which definitions are looked up, in order. -/
def declaredNames (definitions : List Definition) : List (NameKind × String) :=
  (definitions.filterMap Definition.declared?).map fun declared => (declared.1, declared.2.node)

theorem declared_names_placeless (definitions : List Definition) :
    declaredNames (definitions.map Definition.placeless) = declaredNames definitions := by
  have kept (definition : Definition) :
      (definition.placeless.declared?.map fun declared => (declared.1, declared.2.node)) =
        definition.declared?.map fun declared => (declared.1, declared.2.node) := by
    match definition with
    | .operation ⟨⟨_, none, _, _, _⟩, _⟩ => rfl
    | .operation ⟨⟨_, some _, _, _, _⟩, _⟩ => rfl
    | .fragment _ => rfl
    | .type ⟨type, _⟩ => cases type <;> rfl
    | .extension _ => rfl
  rw [declaredNames, declaredNames, List.filterMap_map, List.map_filterMap, List.map_filterMap]
  exact List.filterMap_congr fun definition _ => kept definition

theorem none_redeclared {declared : List (NameKind × Located String)}
    (distinct : (declared.map fun name => (name.1, name.2.node)).Nodup)
    (seen : List (NameKind × String)) (fresh : ∀ name ∈ declared, (name.1, name.2.node) ∉ seen) :
    Document.firstRedeclared? seen declared = none := by
  induction declared generalizing seen with
  | nil => rfl
  | cons first rest ih =>
      obtain ⟨apart, others⟩ := List.nodup_cons.mp distinct
      rw [Document.firstRedeclared?, if_neg (fresh first List.mem_cons_self)]
      refine ih others _ fun name member before => ?_
      rcases List.mem_cons.mp before with same | earlier
      · exact apart (List.mem_map.mpr ⟨name, member, same⟩)
      · exact fresh name (List.mem_cons_of_mem _ member) earlier

/-- Names that are distinct are no hindrance. -/
theorem of_definitions_distinct {definitions : List Definition}
    (distinct : (declaredNames definitions).Nodup) (span : Span) :
    Document.ofDefinitions definitions span = .ok ⟨definitions, span⟩ := by
  rw [Document.ofDefinitions, none_redeclared distinct [] fun _ _ absent => by cases absent]

section Documents

variable {definitions : List Definition} {text : List Char}

theorem parts_proper {parts : List (List Piece)}
    (printed : List.Forall₂ Definition.Printed definitions parts)
    (writable : ∀ definition ∈ definitions, definition.Writable) :
    AllProper parts.flatten ∧ definitions.length ≤ parts.flatten.length := by
  induction printed with
  | nil => exact ⟨.nil, Nat.le_refl 0⟩
  | @cons definition pieces others parts first later ih =>
      have own := definition_proper first (writable definition List.mem_cons_self)
      have filled := List.length_pos_of_ne_nil (definition_begins first).ne_nil
      obtain ⟨proper, enough⟩ :=
        ih fun other member => writable other (List.mem_cons_of_mem _ member)
      rw [List.flatten_cons, List.length_append, List.length_cons]
      exact ⟨own.append proper, by omega⟩

theorem printed_spaced {parts : List (List Piece)}
    (printed : List.Forall₂ Definition.Printed definitions parts)
    (writable : ∀ definition ∈ definitions, definition.Writable) :
    PrintedAs definitions (spaced (parts.flatten.flatMap Piece.spelling)) := by
  have spelled := pieces_spelled (parts_proper printed writable).1
  exact ⟨parts, _, printed, spelled, List.flatMap_def ▸ written_spaced _⟩

/-- There is a text in which the definitions are written. -/
theorem definitions_printed (writable : ∀ definition ∈ definitions, definition.Writable) :
    ∃ text, PrintedAs definitions text := by
  have parts : ∃ parts, List.Forall₂ Definition.Printed definitions parts := by
    clear writable
    induction definitions with
    | nil => exact ⟨[], .nil⟩
    | cons definition rest ih =>
        obtain ⟨pieces, printed⟩ := definition_printed definition
        obtain ⟨parts, others⟩ := ih
        exact ⟨pieces :: parts, .cons printed others⟩
  obtain ⟨parts, printed⟩ := parts
  exact ⟨_, printed_spaced printed writable⟩

/-- There are at least as many tokens as definitions. -/
theorem definitions_counted {parts : List (List Piece)}
    (printed : List.Forall₂ Definition.Printed definitions parts)
    (writable : ∀ definition ∈ definitions, definition.Writable) {cursor : Cursor}
    (held : Cursor.pieces cursor = parts.flatten ++ [Token.endOfFile.plain]) :
    definitions.length ≤ cursor.length := by
  obtain ⟨-, enough⟩ := parts_proper printed writable
  have counted : cursor.length = parts.flatten.length + 1 := by
    rw [← List.length_map (f := Entry.piece), ← Cursor.pieces, held, List.length_append,
      List.length_singleton]
  omega

/-- The cursor of a text holds what is written there. -/
theorem cursor_printed (writable : ∀ definition ∈ definitions, definition.Writable)
    (printed : PrintedAs definitions text) :
    ∃ cursor parts, Cursor.ofStream (.ofText text) = .ok cursor ∧
      List.Forall₂ Definition.Printed definitions parts ∧
      Cursor.pieces cursor = parts.flatten ++ [Token.endOfFile.plain] ∧
      definitions.length ≤ cursor.length := by
  obtain ⟨parts, spellings, each, spelled, written⟩ := printed
  obtain ⟨cursor, scanned, held⟩ :=
    cursor_written spelled (parts_proper each writable).1 written
  exact ⟨cursor, parts, scanned, each, held, definitions_counted each writable held⟩

/-- Whatever text a cursor comes from, the definitions that it holds are read back. -/
theorem cursor_read_back (filled : definitions ≠ [])
    (writable : ∀ definition ∈ definitions, definition.Writable)
    (distinct : (declaredNames definitions).Nodup) (closed : ¬ EndsWithUnion definitions)
    {parts : List (List Piece)} (printed : List.Forall₂ Definition.Printed definitions parts)
    {cursor : Cursor} (held : Cursor.pieces cursor = parts.flatten ++ [Token.endOfFile.plain])
    (enough : definitions.length ≤ cursor.length) :
    ∃ document, Document.ofCursor cursor = .ok document ∧
      document.definitions.map Definition.placeless = definitions.map Definition.placeless := by
  obtain ⟨found, left, ran, -, same⟩ :=
    (Reader.definitions_take printed filled writable closed enough).run cursor held
  have apart : (declaredNames found).Nodup := by
    rw [← declared_names_placeless, same, declared_names_placeless]
    exact distinct
  simp only [Document.ofCursor, ran]
  rw [of_definitions_distinct apart]
  exact ⟨_, rfl, same⟩

theorem definitions_read_back (filled : definitions ≠ [])
    (writable : ∀ definition ∈ definitions, definition.Writable)
    (distinct : (declaredNames definitions).Nodup) (closed : ¬ EndsWithUnion definitions)
    (printed : PrintedAs definitions text) :
    ∃ document, Document.ofText text = .ok document ∧
      document.definitions.map Definition.placeless = definitions.map Definition.placeless := by
  obtain ⟨cursor, parts, scanned, pieces, held, enough⟩ := cursor_printed writable printed
  rw [Document.ofText, Document.ofStream, scanned]
  exact cursor_read_back filled writable distinct closed pieces held enough

theorem executables_end_otherwise
    (executable : ∀ definition ∈ definitions, definition.isExecutable = true) :
    ¬ EndsWithUnion definitions := by
  rintro ⟨last, ends, union⟩
  have runs := executable last (List.mem_of_mem_getLast? ends)
  match last, union with
  | .type _, _ => cases runs

theorem unions_refused_at_end (writable : ∀ definition ∈ definitions, definition.Writable)
    (union : EndsWithUnion definitions) (printed : PrintedAs definitions text) :
    ∃ span, Document.ofText text = .error ⟨.unexpectedEnd, span⟩ := by
  obtain ⟨cursor, parts, scanned, pieces, held, enough⟩ := cursor_printed writable printed
  obtain ⟨span, left, ran⟩ :=
    (Reader.definitions_fail pieces writable union enough).run cursor held
  refine ⟨span, ?_⟩
  rw [Document.ofText, Document.ofStream, scanned]
  simp only [Document.ofCursor, ran]

/-- Whatever can be written in the query language is read back, places aside. -/
theorem executable_documents_read_back (filled : definitions ≠ [])
    (executable : ∀ definition ∈ definitions, definition.isExecutable = true)
    (writable : ∀ definition ∈ definitions, definition.Writable)
    (distinct : (declaredNames definitions).Nodup) :
    (∃ text, PrintedAs definitions text) ∧ ∀ text, PrintedAs definitions text →
      ∃ document, Document.ofText text = .ok document ∧
        document.definitions.map Definition.placeless =
          definitions.map Definition.placeless := by
  have closed := executables_end_otherwise executable
  exact ⟨definitions_printed writable, fun text printed =>
    definitions_read_back filled writable distinct closed printed⟩

/-- An operation whose parts are named by keywords. -/
def wordyOperation : Operation where
  kind := .query
  name := some (.unplaced "fragment")
  variableDefinitions := some (.unplaced [⟨.unplaced "on",
    .unplaced (.list (.nonNull (.named "Int"))), some (.unplaced (.list [.unplaced (.int 1)]))⟩])
  directives := none
  selections := [.field (.unplaced ⟨some (.unplaced "type"), .unplaced "on",
    some (.unplaced [⟨.unplaced "input", .unplaced (.variable "on")⟩]),
    some [.unplaced ⟨.unplaced "query", none⟩],
    some [.spread (.unplaced ⟨.unplaced "null", none⟩)]⟩)]

def wordyFragment : Fragment where
  name := .unplaced "null"
  typeCondition := .unplaced "enum"
  directives := none
  selections := [.field (.unplaced ⟨none, .unplaced "true", none, none, none⟩)]

def wordyDefinitions : List Definition :=
  [.operation (.unplaced wordyOperation), .fragment (.unplaced wordyFragment)]

def wordyText : List Char :=
  ("query fragment ( $ on : [ Int ! ] = [ 1 ] ) " ++
    "\x7b type : on ( input : $ on ) @ query \x7b ... null \x7d \x7d " ++
    "fragment null on enum \x7b true \x7d").toList

theorem wordy_operation_writable : wordyOperation.Writable where
  name name there := by
    cases there
    decide
  filled list there := by
    cases there
    exact List.cons_ne_nil _ _
  variableNames list there := by
    cases there
    exact ⟨by decide, by decide⟩
  definitions list there := by
    cases there
    refine List.forall_mem_singleton.mpr ⟨?_, fun literal there => ?_⟩
    · exact ⟨(by decide : Name.isValid "Int" = true), rfl⟩
    · cases there
      simp [Located.unplaced, Literal.Writable, ItemsWritable]
  directives := no_directives_writable
  selects := List.cons_ne_nil _ _
  selections := by
    have argued : ArgumentsWritable
        (some (.unplaced [⟨.unplaced "input", .unplaced (.variable "on")⟩])) := by
      refine ⟨fun list there => ?_, fun list there => ?_, fun list there => ?_⟩
      all_goals cases there
      · exact List.cons_ne_nil _ _
      · exact ⟨by decide, by decide⟩
      · refine List.forall_mem_singleton.mpr ?_
        simp only [Located.unplaced, Literal.Writable]
        decide
    have marked : Directives.Writable (some [.unplaced ⟨.unplaced "query", none⟩]) :=
      ⟨by simp, List.forall_mem_singleton.mpr (by decide),
        List.forall_mem_singleton.mpr no_arguments_writable⟩
    simp only [wordyOperation, Located.unplaced, SelectionsWritable, Selection.Writable]
    refine ⟨⟨⟨?_, by decide, argued, marked⟩, List.cons_ne_nil _ _, ?_⟩, trivial⟩
    · intro name there
      cases there
      decide
    · exact ⟨⟨by decide, by decide, no_directives_writable⟩, trivial⟩

theorem wordy_fragment_writable : wordyFragment.Writable where
  name := by decide
  named := by decide
  typeCondition := by decide
  directives := no_directives_writable
  selects := List.cons_ne_nil _ _
  selections := by
    simp only [wordyFragment, Located.unplaced, SelectionsWritable, Selection.Writable]
    refine ⟨⟨fun name absent => ?_, by decide, no_arguments_writable, no_directives_writable⟩,
      trivial⟩
    cases absent

theorem wordy_definitions_writable :
    ∀ definition ∈ wordyDefinitions, definition.Writable :=
  List.forall_mem_cons.mpr
    ⟨wordy_operation_writable, List.forall_mem_singleton.mpr wordy_fragment_writable⟩

theorem wordy_definitions_printed : PrintedAs wordyDefinitions wordyText := by
  have text : wordyText =
      spaced ([wordyOperation.pieces, wordyFragment.pieces].flatten.flatMap Piece.spelling) := by
    decide +kernel
  rw [text]
  exact printed_spaced (.cons (.operation _) (.cons (.fragment _) .nil)) wordy_definitions_writable

/-- Keywords and the words `null` and `true` are names wherever names stand. -/
theorem wordy_definitions_read_back :
    ∃ document, Document.ofText wordyText = .ok document ∧
      document.definitions.map Definition.placeless =
        wordyDefinitions.map Definition.placeless :=
  (executable_documents_read_back (List.cons_ne_nil _ _) (by decide) wordy_definitions_writable
    (by decide)).2 wordyText wordy_definitions_printed

/--
Whatever can be written is read back, places aside, unless a union is written last. Then the source
is refused, as it ends where a bar might have followed.
-/
theorem documents_read_back (filled : definitions ≠ [])
    (writable : ∀ definition ∈ definitions, definition.Writable)
    (distinct : (declaredNames definitions).Nodup) :
    (∃ text, PrintedAs definitions text) ∧ ∀ text, PrintedAs definitions text →
      (¬ EndsWithUnion definitions → ∃ document, Document.ofText text = .ok document ∧
        document.definitions.map Definition.placeless =
          definitions.map Definition.placeless) ∧
      (EndsWithUnion definitions →
        ∃ span, Document.ofText text = .error ⟨.unexpectedEnd, span⟩) := by
  refine ⟨definitions_printed writable, fun text printed => ⟨fun closed => ?_, fun union => ?_⟩⟩
  · exact definitions_read_back filled writable distinct closed printed
  · exact unions_refused_at_end writable union printed

def petUnion : UnionType :=
  ⟨.unplaced "Pet", some "who lives here", [.unplaced "Dog", .unplaced "Cat"]⟩

def dateScalar : ScalarType := ⟨.unplaced "Date", none⟩

abbrev petDefinition : Definition := .type (.unplaced (.union petUnion))

abbrev dateDefinition : Definition := .type (.unplaced (.scalar dateScalar))

theorem pet_date_writable : petDefinition.Writable ∧ dateDefinition.Writable := by
  have described : Described petUnion.description := by
    intro text there
    cases there
    have one_line : ("who lives here".toList.all fun c => !isLineEnd c) = true := by decide
    exact ⟨by simpa using List.all_eq_true.mp one_line, by decide⟩
  exact ⟨⟨by decide, described, List.cons_ne_nil _ _, by decide⟩, by decide, nofun⟩

/-- A union with a description and a leading bar, in front of a scalar and behind it. -/
theorem pet_refused_behind_date :
    (∃ document,
      Document.ofText "##who lives here\nunion Pet = | Dog | Cat scalar Date".toList =
          .ok document ∧
        document.definitions.map Definition.placeless =
          [petDefinition, dateDefinition].map Definition.placeless) ∧
      ∃ span, Document.ofText "scalar Date ##who lives here\nunion Pet = | Dog | Cat".toList =
        .error ⟨.unexpectedEnd, span⟩ := by
  obtain ⟨pet, date⟩ := pet_date_writable
  have bar := Definition.Printed.union petUnion .unplaced [Punctuator.pipe.piece] (.inr rfl)
  have word := Definition.Printed.scalar dateScalar .unplaced
  have first : ∀ definition ∈ [petDefinition, dateDefinition], definition.Writable :=
    List.forall_mem_cons.mpr ⟨pet, List.forall_mem_singleton.mpr date⟩
  have last : ∀ definition ∈ [dateDefinition, petDefinition], definition.Writable :=
    List.forall_mem_cons.mpr ⟨date, List.forall_mem_singleton.mpr pet⟩
  have closed : ¬ EndsWithUnion [petDefinition, dateDefinition] := by
    rintro ⟨definition, there, union⟩
    cases there
    cases union
  constructor
  · exact ((documents_read_back (List.cons_ne_nil _ _) first (by decide)).2 _
      (printed_spaced (.cons bar (.cons word .nil)) first)).1 closed
  · exact ((documents_read_back (List.cons_ne_nil _ _) last (by decide)).2 _
      (printed_spaced (.cons word (.cons bar .nil)) last)).2 ⟨_, rfl, rfl⟩

end Documents

end GraphQL
