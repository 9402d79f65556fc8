import GraphQL.Proofs.EndingRecursions

/-!
Reading ends on every source, well-formed or not.

All productions of the languages are made of operations on the cursor. So whatever was read, and
wherever a reading failed, the end token is still ahead and was not handed out. Items of lists take a
token at least, and a recursion goes through no more rounds than there are tokens.
-/

namespace GraphQL

open Reader

section Requests

theorem selection_set_operates : Operates 1 selectionSet := selection_set_recursion.counted

theorem default_operates : Operates 0 defaultValue := by
  refine (Operates.skip _).look fun found => ?_
  cases found with
  | none => exact .pure _
  | some equals => exact (literal_operates true).any.look fun _ => .pure _

theorem variable_definition_operates : Operates 1 variableDefinition :=
  (Operates.expect _).take fun _ => Operates.name.look fun _ => (Operates.expect _).look fun _ =>
    type_ref_operates.look fun _ => default_operates.look fun _ => .pure _

theorem variable_definitions_operate : Operates 0 variableDefinitions := by
  refine (Operates.sees _).look fun _ => .branch ?_ (.pure _)
  refine (Operates.delimited_nonempty _ _ variable_definition_operates.any).look fun list => ?_
  exact (Operates.reject_repeats _ _).look fun _ => .pure _

theorem operation_name_operates : Operates 0 operationName := by
  refine Operates.peek.look fun found => ?_
  split
  · exact Operates.name.look fun _ => .pure _
  · exact .pure _

theorem bare_query_operates : Operates 1 bareQuery := selection_set_operates.take fun _ => .pure _

theorem keyword_operation_operates (kind : OperationKind) : Operates 1 (keywordOperation kind) :=
  Operates.next.take fun _ => operation_name_operates.look fun _ =>
    variable_definitions_operate.look fun _ => directives_operate.look fun _ =>
      selection_set_operates.look fun _ => .pure _

theorem fragment_operates : Operates 1 fragment :=
  (Operates.expect _).take fun _ => Operates.name.look fun _ => .branch (.fail _ _)
    ((Operates.expect _).look fun _ => Operates.name.look fun _ =>
      directives_operate.look fun _ => selection_set_operates.look fun _ => .pure _)

end Requests

section Types

theorem input_definition_operates : Operates 1 inputDefinition :=
  Operates.description.look fun _ => Operates.name.take fun _ => (Operates.expect _).look fun _ =>
    type_ref_operates.look fun _ => default_operates.look fun _ =>
      directives_operate.look fun _ => .pure _

theorem input_definitions_operate (opening closing : Punctuator) (kind : NameKind) :
    Operates 1 (inputDefinitions opening closing kind) :=
  (Operates.delimited_nonempty _ _ input_definition_operates.any).take fun _ =>
    (Operates.reject_repeats _ _).look fun _ => .pure _

theorem field_definition_operates : Operates 1 fieldDefinition := by
  refine Operates.description.look fun description => Operates.name.take fun fieldName => ?_
  have typed (inputs : List (Located InputDefinition)) : Operates 0 (do
      let _ ← expect (.punctuator .colon)
      let type ← typeRef
      let marks ← directives
      pure (.between fieldName.span.start (directivesStop marks type.span.stop)
        ⟨fieldName, description, inputs, type, deprecation marks⟩) :
          Reader (Located FieldDefinition)) :=
    (Operates.expect _).look fun _ => type_ref_operates.look fun _ =>
      directives_operate.look fun _ => .pure _
  refine (Operates.sees _).look fun _ => .branch ?_ (typed [])
  exact (input_definitions_operate _ _ _).look fun list => typed list.node

theorem field_definitions_operate : Operates 1 fieldDefinitions :=
  (Operates.delimited_nonempty _ _ field_definition_operates.any).take fun _ =>
    (Operates.reject_repeats _ _).look fun _ => .pure _

theorem interface_recursion :
    Recursion 0 (itemsBeforeRound name (.punctuator .braceOpen)) interfaceNames where
  unrolled _ := rfl
  starts := used_up_operates
  guarded := items_before_round _ .name

theorem object_type_operates (description : Option String) :
    Operates 1 (objectType description) := by
  refine (Operates.expect _).take fun keyword => Operates.name.look fun typeName => ?_
  have body (interfaces : List (Located String)) : Operates 0 (do
      let fields ← fieldDefinitions
      pure (.between keyword.span.start fields.span.stop
        ⟨typeName, description, interfaces, fields.node⟩) : Reader (Located ObjectType)) :=
    field_definitions_operate.look fun _ => .pure _
  refine (Operates.skip _).look fun found => ?_
  cases found with
  | none => exact body []
  | some token =>
      refine .counted (fun cursor => ?_) fun _ _ same => by rw [same]
      exact (interface_recursion.operates _).look body

theorem interface_type_operates (description : Option String) :
    Operates 1 (interfaceType description) :=
  (Operates.expect _).take fun _ => Operates.name.look fun _ =>
    field_definitions_operate.look fun _ => .pure _

theorem member_recursion : Recursion 0 memberRound moreMembers where
  unrolled _ := rfl
  starts := .pure _
  guarded := by
    refine .skip (fun bar => ?_) (.closed (.pure _))
    exact .look .name fun first => Round.gap.finish fun _ => .pure _

theorem union_type_operates (description : Option String) : Operates 1 (unionType description) :=
  (Operates.expect _).take fun _ => Operates.name.look fun _ => (Operates.expect _).look fun _ =>
    (Operates.skip _).look fun _ => Operates.name.look fun _ =>
      member_recursion.counted.look fun _ => .pure _

theorem scalar_type_operates (description : Option String) : Operates 1 (scalarType description) :=
  (Operates.expect _).take fun _ => Operates.name.look fun _ => .pure _

theorem enum_value_operates : Operates 1 enumValue := by
  refine Operates.description.look fun description => Operates.peek.look fun found => ?_
  split
  · exact .reject _
  · exact .reject _
  · exact Operates.name.take fun _ => directives_operate.look fun _ => .pure _

theorem enum_type_operates (description : Option String) : Operates 1 (enumType description) :=
  (Operates.expect _).take fun _ => Operates.name.look fun _ =>
    (Operates.delimited_nonempty _ _ enum_value_operates.any).look fun _ =>
      (Operates.reject_repeats _ _).look fun _ => .pure _

theorem input_object_type_operates (description : Option String) :
    Operates 1 (inputObjectType description) :=
  (Operates.expect _).take fun _ => Operates.name.look fun _ =>
    (input_definitions_operate _ _ _).look fun _ => .pure _

theorem type_extension_operates (description : Option String) :
    Operates 1 (typeExtension description) :=
  (Operates.expect _).take fun _ => (object_type_operates _).look fun _ => .pure _

end Types

section Definitions

theorem as_type_operates {α : Type} {wrap : α → TypeDefinition} {reader : Reader (Located α)}
    (operates : Operates 1 reader) : Operates 1 (asType wrap reader) :=
  operates.take fun _ => .pure _

theorem definition_operates : Operates 1 definition := by
  refine Operates.description.look fun description => Operates.peek.look fun found => ?_
  split
  · exact bare_query_operates.take fun _ => .pure _
  · exact (keyword_operation_operates _).take fun _ => .pure _
  · exact (keyword_operation_operates _).take fun _ => .pure _
  · exact fragment_operates.take fun _ => .pure _
  · exact as_type_operates (object_type_operates _)
  · exact as_type_operates (interface_type_operates _)
  · exact as_type_operates (union_type_operates _)
  · exact as_type_operates (scalar_type_operates _)
  · exact as_type_operates (enum_type_operates _)
  · exact as_type_operates (input_object_type_operates _)
  · exact (type_extension_operates _).take fun _ => .pure _
  · exact .fail _ _
  · exact .reject _

theorem definition_recursion :
    Recursion 0 (itemsBeforeRound definition .endOfFile) definitions where
  unrolled _ := rfl
  starts := used_up_operates
  guarded := items_before_round _ definition_operates

end Definitions

/-- Readers of the items of lists and runs, at all levels of nesting. -/
inductive ListItem : {α : Type} → Reader α → Prop where
  | value (isConstant : Bool) (depth : Nat) : ListItem (literalWithin isConstant depth)
  | objectField (isConstant : Bool) (depth : Nat) :
      ListItem (literalField (literalWithin isConstant depth))
  | argument : ListItem Reader.argument
  | directive : ListItem Reader.directive
  | selection (depth : Nat) : ListItem (selectionItem (selectionSetWithin depth))
  | variableDefinition : ListItem Reader.variableDefinition
  | inputDefinition : ListItem Reader.inputDefinition
  | fieldDefinition : ListItem Reader.fieldDefinition
  | enumValue : ListItem Reader.enumValue
  | name : ListItem Reader.name
  | definition : ListItem Reader.definition

/-- The operations on a cursor, and the productions of both languages. -/
inductive Production : {α : Type} → Reader α → Prop where
  | item {α : Type} {reader : Reader α} (listed : ListItem reader) : Production reader
  | peek : Production Reader.peek
  | takeDescription : Production Reader.takeDescription
  | next : Production Reader.next
  | reject {α : Type} (error : Token → ParseError) : Production (Reader.reject error : Reader α)
  | expect (token : Token) : Production (Reader.expect token)
  | skip (token : Token) : Production (Reader.skip? token)
  | sees (token : Token) : Production (Reader.sees token)
  | itemsUntil {α : Type} {reader : Reader α} (closing : Token) (each : Production reader)
      (count : Nat) : Production (Reader.itemsUntil closing reader count)
  | delimited {α : Type} {reader : Reader α} (opening closing : Token)
      (each : Production reader) : Production (Reader.delimited opening reader closing)
  | delimitedNonempty {α : Type} {reader : Reader α} (opening closing : Token)
      (each : Production reader) : Production (Reader.delimitedNonempty opening reader closing)
  | rejectRepeats (kind : NameKind) (names : List (Located String)) :
      Production (Reader.rejectRepeats kind names)
  | literal (isConstant : Bool) : Production (Reader.literal isConstant)
  | typeRef : Production Reader.typeRef
  | arguments : Production Reader.arguments
  | directives : Production Reader.directives
  | selectionSet : Production Reader.selectionSet
  | defaultValue : Production Reader.defaultValue
  | variableDefinitions : Production Reader.variableDefinitions
  | operationName : Production Reader.operationName
  | bareQuery : Production Reader.bareQuery
  | keywordOperation (kind : OperationKind) : Production (Reader.keywordOperation kind)
  | fragment : Production Reader.fragment
  | inputDefinitions (opening closing : Punctuator) (kind : NameKind) :
      Production (Reader.inputDefinitions opening closing kind)
  | fieldDefinitions : Production Reader.fieldDefinitions
  | interfaceNames (count : Nat) : Production (Reader.interfaceNames count)
  | moreMembers (count : Nat) : Production (Reader.moreMembers count)
  | objectType (description : Option String) : Production (Reader.objectType description)
  | interfaceType (description : Option String) : Production (Reader.interfaceType description)
  | unionType (description : Option String) : Production (Reader.unionType description)
  | scalarType (description : Option String) : Production (Reader.scalarType description)
  | enumType (description : Option String) : Production (Reader.enumType description)
  | inputObjectType (description : Option String) :
      Production (Reader.inputObjectType description)
  | typeExtension (description : Option String) : Production (Reader.typeExtension description)
  | definitions (count : Nat) : Production (Reader.definitions count)

/-- The recursions of both languages: what one round does, and how they are counted. -/
inductive Recurs : {α : Type} → (Reader α → Reader α) → (Nat → Reader α) → Prop where
  | items {α : Type} {item : Reader α} (closing : Token) (takes : Operates 1 item) :
      Recurs (itemsRound closing item) (itemsUntil closing item)
  | literals (isConstant : Bool) : Recurs (literalRound isConstant) (literalWithin isConstant)
  | types : Recurs typeRound typeWithin
  | directives : Recurs directiveRound directiveRun
  | selectionSets : Recurs selectionSetRound selectionSetWithin
  | interfaces : Recurs (itemsBeforeRound name (.punctuator .braceOpen)) interfaceNames
  | members : Recurs memberRound moreMembers
  | definitions : Recurs (itemsBeforeRound definition .endOfFile) definitions

section Ending

variable {α : Type}

theorem ListItem.operates {item : Reader α} (listed : ListItem item) : Operates 1 item := by
  cases listed with
  | value isConstant depth => exact (literal_recursion isConstant).operates depth
  | objectField isConstant depth =>
      have made : Round 1 0 1 fun hole => literalField hole := literal_field_round .gap
      exact made.fill ((literal_recursion isConstant).operates depth)
  | argument => exact argument_operates
  | directive => exact directive_operates
  | selection depth =>
      have made : Round 1 0 1 fun hole => selectionItem hole := selection_item_round .gap
      exact made.fill (selection_set_recursion.operates depth)
  | variableDefinition => exact variable_definition_operates
  | inputDefinition => exact input_definition_operates
  | fieldDefinition => exact field_definition_operates
  | enumValue => exact enum_value_operates
  | name => exact .name
  | definition => exact definition_operates

theorem Production.operates {reader : Reader α} (production : Production reader) :
    Operates 0 reader := by
  induction production with
  | item listed => exact listed.operates.any
  | peek => exact .peek
  | takeDescription => exact .description
  | next => exact Operates.next.any
  | reject error => exact .reject error
  | expect token => exact (Operates.expect token).any
  | skip token => exact .skip token
  | sees token => exact .sees token
  | itemsUntil closing _ count each => exact .items_until closing each count
  | delimited opening closing _ each => exact (Operates.delimited opening closing each).any
  | delimitedNonempty opening closing _ each =>
      exact (Operates.delimited_nonempty opening closing each).any
  | rejectRepeats kind names => exact .reject_repeats kind names
  | literal isConstant => exact (literal_operates isConstant).any
  | typeRef => exact type_ref_operates.any
  | arguments => exact arguments_operate
  | directives => exact directives_operate
  | selectionSet => exact selection_set_operates.any
  | defaultValue => exact default_operates
  | variableDefinitions => exact variable_definitions_operate
  | operationName => exact operation_name_operates
  | bareQuery => exact bare_query_operates.any
  | keywordOperation kind => exact (keyword_operation_operates kind).any
  | fragment => exact fragment_operates.any
  | inputDefinitions opening closing kind =>
      exact (input_definitions_operate opening closing kind).any
  | fieldDefinitions => exact field_definitions_operate.any
  | interfaceNames count => exact interface_recursion.operates count
  | moreMembers count => exact member_recursion.operates count
  | objectType description => exact (object_type_operates description).any
  | interfaceType description => exact (interface_type_operates description).any
  | unionType description => exact (union_type_operates description).any
  | scalarType description => exact (scalar_type_operates description).any
  | enumType description => exact (enum_type_operates description).any
  | inputObjectType description => exact (input_object_type_operates description).any
  | typeExtension description => exact (type_extension_operates description).any
  | definitions count => exact definition_recursion.operates count

theorem Recurs.recursion {round : Reader α → Reader α} {within : Nat → Reader α}
    (recurs : Recurs round within) : ∃ inner, Recursion inner round within := by
  cases recurs with
  | items closing takes => exact ⟨_, items_recursion closing takes⟩
  | literals isConstant => exact ⟨_, literal_recursion isConstant⟩
  | types => exact ⟨_, type_recursion⟩
  | directives => exact ⟨_, directive_recursion⟩
  | selectionSets => exact ⟨_, selection_set_recursion⟩
  | interfaces => exact ⟨_, interface_recursion⟩
  | members => exact ⟨_, member_recursion⟩
  | definitions => exact ⟨_, definition_recursion⟩

/-- A cursor is what is left of some tokens: the end token is ahead, and nothing hands it out. -/
structure Cursor.LeftOf (tokens : List (Located Token)) (cursor : Cursor) : Prop where
  passed : ∃ before, tokens = before ++ cursor.tokens ∧ ∀ token ∈ before, token.node ≠ .endOfFile
  ends : ∃ ahead ending, cursor.tokens = ahead ++ [ending] ∧ ending.node = .endOfFile ∧
    ∀ token ∈ ahead, token.node ≠ .endOfFile
  peeked : ∃ found, Reader.peek.run cursor = .ok found cursor ∧ cursor.tokens.head? = some found
  next : ∀ token left, Reader.next.run cursor = .ok token left → token.node ≠ .endOfFile
  expect : ∀ mark token left, (Reader.expect mark).run cursor = .ok token left →
    token.node ≠ .endOfFile
  skip : ∀ mark token left, (Reader.skip? mark).run cursor = .ok (some token) left →
    token.node ≠ .endOfFile

/-- The token in front of another one is none that is the last one of all. -/
theorem first_ahead {entry other : Entry} {rest : Cursor} {ahead : List (Located Token)}
    {ending : Located Token}
    (same : Cursor.tokens (entry :: other :: rest) = ahead ++ [ending]) : entry.token ∈ ahead := by
  cases ahead with
  | nil => cases (List.cons.inj same).2
  | cons token more =>
      cases (List.cons.inj same).1
      exact List.mem_cons_self

/-- A suffix of tokens that end in the end token ends in it too, and hands out the others only. -/
theorem Cursor.left_of_suffix {front : List (Located Token)} {ending : Located Token}
    (ordinary : ∀ token ∈ front, token.node ≠ .endOfFile) (ended : ending.node = .endOfFile)
    {cursor : Cursor} (suffix : cursor.tokens <:+ front ++ [ending]) (filled : cursor ≠ []) :
    cursor.LeftOf (front ++ [ending]) := by
  obtain ⟨before, whole⟩ := suffix
  obtain ⟨entry, rest, rfl⟩ := List.exists_cons_of_ne_nil filled
  obtain ⟨ahead, last, tokens⟩ : ∃ ahead last, Cursor.tokens (entry :: rest) = ahead ++ [last] :=
    ⟨_, _, (List.dropLast_append_getLast (List.cons_ne_nil _ _)).symm⟩
  rw [tokens, ← List.append_assoc] at whole
  obtain ⟨rfl, same⟩ := List.append_inj' whole rfl
  obtain rfl := List.singleton_inj.mp same
  obtain ⟨passed, remaining⟩ := List.forall_mem_append.mp ordinary
  have handed {first next : Entry} {others : Cursor}
      (there : entry :: rest = first :: next :: others) : first.token.node ≠ .endOfFile :=
    remaining _ (first_ahead (there ▸ tokens))
  exact {
    passed := ⟨before, by rw [tokens, List.append_assoc], passed⟩
    ends := ⟨ahead, last, tokens, ended, remaining⟩
    peeked := ⟨entry.token, rfl, rfl⟩
    next := by
      intro token left ran
      cases rest with
      | nil => cases ran
      | cons next others =>
          cases ran
          exact handed rfl
    expect := by
      intro mark token left ran
      obtain ⟨first, next, others, there, -, rfl, -⟩ := expect_ran ran
      exact handed there
    skip := by
      intro mark token left ran
      obtain ⟨first, next, others, there, -, found, -⟩ | ⟨_, _, -, -, -, missing, -⟩ := skip_ran ran
      · cases found
        exact handed there
      · cases missing }

/-- The tokens of a source that is scanned to its end have the end token last, and only there. -/
theorem grammatical_ends {source : String} (complete : (TokenStream.ofSource source).fault = none) :
    ∃ front ending, (TokenStream.ofSource source).grammatical = front ++ [ending] ∧
      (∀ token ∈ front, token.node ≠ .endOfFile) ∧ ending.node = .endOfFile := by
  obtain ⟨front, ordinary, whole⟩ := (stream_exact source).ended complete
  rw [TokenStream.grammatical, whole, List.filter_append]
  exact ⟨_, _, rfl, fun token member => ordinary token (List.mem_of_mem_filter member), rfl⟩

theorem cursor_filled {source : String} {start : Cursor}
    (opened : Cursor.ofStream (.ofSource source) = .ok start) : start ≠ [] := by
  obtain ⟨-, front, ending, -, whole⟩ := cursor_tokens opened
  rintro rfl
  simp [Cursor.tokens] at whole

/--
A source without lexical faults is read by cursors that hold its end token, whatever was read before
and wherever it failed. Productions are made of the operations that reach such cursors. Items of
lists take a token. And on each such cursor a recursion ends: the counted reader solves its equation,
and does what as many rounds as there are tokens do, whatever comes behind them.
-/
theorem cursors_never_run_dry {source : String}
    (complete : (TokenStream.ofSource source).fault = none) :
    ∃ start, Cursor.ofStream (.ofSource source) = .ok start ∧
      (∀ cursor, start.Reached cursor →
        cursor.LeftOf (TokenStream.ofSource source).grammatical) ∧
      (∀ {α : Type} (reader : Reader α), Production reader → Operates 0 reader) ∧
      (∀ {α : Type} (item : Reader α), ListItem item → ∀ cursor value left,
        start.Reached cursor → item.run cursor = .ok value left → left.length < cursor.length) ∧
      ∀ {α : Type} (round : Reader α → Reader α) (within : Nat → Reader α), Recurs round within →
        ∀ cursor, start.Reached cursor →
          (round (counted within)).run cursor = (counted within).run cursor ∧
            ∀ steps, cursor.length ≤ steps → ∀ beyond,
              (round^[steps] beyond).run cursor = (counted within).run cursor := by
  obtain ⟨start, opened⟩ : ∃ start, Cursor.ofStream (.ofSource source) = .ok start := by
    rw [Cursor.ofStream, complete]
    exact ⟨_, rfl⟩
  have tokens := (cursor_tokens opened).1
  obtain ⟨front, ending, whole, ordinary, ended⟩ := grammatical_ends complete
  have filled {cursor : Cursor} (reached : start.Reached cursor) : cursor ≠ [] :=
    (reached.onward (cursor_filled opened)).filled
  refine ⟨start, opened, ?_, fun reader production => production.operates, ?_, ?_⟩
  · intro cursor reached
    have suffix := (reached.onward (cursor_filled opened)).suffix
    rw [tokens, whole] at suffix
    exact whole ▸ Cursor.left_of_suffix ordinary ended suffix (filled reached)
  · intro α item listed cursor value left reached ran
    exact (listed.operates.moves.succeeds cursor value left (filled reached) ran).fewer
  · intro α round within recurs cursor reached
    obtain ⟨inner, recursion⟩ := recurs.recursion
    exact ⟨recursion.solves (filled reached), fun steps enough beyond =>
      recursion.ends (filled reached) enough beyond⟩

def unclosedSource : String := "\x7ba(b:["

theorem unclosed_source_scanned : (TokenStream.ofSource unclosedSource).fault = none ∧
    (Cursor.attach [] (TokenStream.ofSource unclosedSource).tokens).length = 7 := by
  decide +kernel

/-- Where nothing is closed, reading ends too, after no more rounds than there are tokens. -/
theorem unclosed_source_ends :
    (TokenStream.ofSource unclosedSource).fault = none ∧
      ∃ start, Cursor.ofStream (.ofSource unclosedSource) = .ok start ∧
        ((definitions 7).leftBy start).LeftOf (TokenStream.ofSource unclosedSource).grammatical ∧
        ∀ beyond, ((itemsBeforeRound definition .endOfFile)^[7] beyond).run start =
          (counted definitions).run start := by
  obtain ⟨complete, length⟩ := unclosed_source_scanned
  obtain ⟨start, opened, left, productions, -, ends⟩ := cursors_never_run_dry complete
  have enough : start.length ≤ 7 := by
    rw [Cursor.ofStream, complete] at opened
    cases opened
    exact length.le
  refine ⟨complete, start, opened, ?_, (ends _ _ .definitions start .start).2 7 enough⟩
  exact left _ (.step .start (productions _ (.definitions 7)))

end Ending

end GraphQL
