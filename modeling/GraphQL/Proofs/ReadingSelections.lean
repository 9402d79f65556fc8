import GraphQL.Proofs.ReadingBack

/-!
Selections, operations and fragments are read back as they are written.

Behind a field nothing may follow that could belong to it: a colon would make its name an alias, and
parentheses, directives and braces would be its own. Behind a selection set anything may follow. A
name after three dots is that of a fragment unless it is the word `on`.
-/

namespace GraphQL

/-- A selection set that may be missing. -/
def setPieces (selections : Option (List Selection)) : List Piece :=
  match selections with
  | none => []
  | some list => enclosed .braceOpen .braceClose (selectionPieces list)

theorem selection_pieces (selections : List Selection) :
    selectionPieces selections = selections.flatMap Selection.pieces := by
  induction selections with
  | nil => rw [selectionPieces, List.flatMap_nil]
  | cons selection rest ih => rw [selectionPieces, ih, List.flatMap_cons]

theorem selections_writable {selections : List Selection}
    (writable : SelectionsWritable selections) {selection : Selection}
    (member : selection ∈ selections) : selection.Writable := by
  induction selections with
  | nil => cases member
  | cons first rest ih =>
      rw [SelectionsWritable] at writable
      rcases List.mem_cons.mp member with rfl | later
      · exact writable.1
      · exact ih writable.2 later

section Fields

variable {aliasName : Option (Located String)} {name : Located String}
  {arguments : Option (Located (List Argument))} {directives : Directives}
  {selections : Option (List Selection)} {span : Span}

theorem field_pieces :
    (Selection.field ⟨⟨aliasName, name, arguments, directives, selections⟩, span⟩).pieces =
      fieldHead aliasName name arguments directives ++ setPieces selections := by
  cases selections with
  | none => rw [Selection.pieces, setPieces, List.append_nil]
  | some list => rw [Selection.pieces, setPieces]

theorem field_placeless :
    (Selection.field ⟨⟨aliasName, name, arguments, directives, selections⟩, span⟩).placeless =
      .field (.unplaced ⟨aliasName.map Located.bareName, name.bareName,
        placelessArguments arguments, directives.placeless,
        selections.map placelessSelections⟩) := by
  cases selections with
  | none => rw [Selection.placeless, Option.map_none]
  | some list => rw [Selection.placeless, Option.map_some]

theorem field_writable :
    (Selection.field ⟨⟨aliasName, name, arguments, directives, selections⟩, span⟩).Writable ↔
      FieldHeadWritable aliasName name arguments directives ∧
        ∀ list ∈ selections, list ≠ [] ∧ SelectionsWritable list := by
  cases selections with
  | none => simp [Selection.Writable]
  | some list => simp [Selection.Writable]

end Fields

/-- A field begins with a name. -/
theorem field_begins {tokens : List Token} (marks : ∀ token ∈ tokens, token.asName? = none)
    (located : Located Field) : Avoids tokens (Selection.field located).pieces := by
  obtain ⟨⟨aliasName, name, arguments, directives, selections⟩, span⟩ := located
  rw [field_pieces]
  cases aliasName with
  | none => exact .named (Token.of_word_name _) marks
  | some other => exact .named (Token.of_word_name _) marks

/-- A selection begins with a name or with three dots. -/
theorem selection_begins {tokens : List Token} (marks : ∀ token ∈ tokens, token.asName? = none)
    (no_spread : .punctuator .spread ∉ tokens) (selection : Selection) :
    Avoids tokens selection.pieces := by
  cases selection with
  | field located => exact field_begins marks located
  | spread located =>
      obtain ⟨⟨name, directives⟩, span⟩ := located
      rw [Selection.pieces]
      exact no_spread
  | inline located =>
      obtain ⟨⟨condition, directives, selections⟩, span⟩ := located
      rw [Selection.pieces]
      exact no_spread

theorem set_begins {tokens : List Token} (apart : .punctuator .braceOpen ∉ tokens)
    (selections : Option (List Selection)) (there : setPieces selections ≠ []) :
    Avoids tokens (setPieces selections) := by
  cases selections with
  | none => exact absurd rfl there
  | some list => exact apart

theorem arguments_begin {tokens : List Token} (apart : .punctuator .parenOpen ∉ tokens)
    (arguments : Option (Located (List Argument))) (there : argumentPieces arguments ≠ []) :
    Avoids tokens (argumentPieces arguments) := by
  cases arguments with
  | none => exact absurd rfl there
  | some list => exact apart

/-- What may stand between the name of a field and the end of the field. -/
theorem field_rest_begins {tokens : List Token} (apart : ∀ mark : Punctuator,
      mark ∈ [.parenOpen, .at, .braceOpen] → .punctuator mark ∉ tokens)
    (arguments : Option (Located (List Argument))) (directives : Directives)
    (selections : Option (List Selection)) {rest : List Piece} (after : Avoids tokens rest) :
    Avoids tokens (argumentPieces arguments ++
      (directives.pieces ++ (setPieces selections ++ rest))) :=
  .optional (arguments_begin (apart _ (by decide)) arguments)
    (.optional (directives_begin (apart _ (by decide)) _)
      (.optional (set_begins (apart _ (by decide)) selections) after))

/-- In front of a selection set there are directives, or it comes at once. -/
theorem marks_before_set (directives : Directives) (inside rest : List Piece) :
    ∃ mark more, directives.pieces ++ (enclosed .braceOpen .braceClose inside ++ rest) =
      Punctuator.piece mark :: more ∧ (mark = .at ∨ mark = .braceOpen) := by
  rw [Directives.pieces]
  cases directives.getD [] with
  | nil => exact ⟨.braceOpen, _, rfl, .inr rfl⟩
  | cons first others => exact ⟨.at, _, rfl, .inl rfl⟩

/-- What does not follow a field, as it would be read as a part of it. -/
def fieldParting : List Token :=
  [.punctuator .colon, .punctuator .parenOpen, .punctuator .at, .punctuator .braceOpen, .endOfFile]

namespace Reader

/-- A reader takes a selection set in front of anything and finds the selections again. -/
abbrev ReadsSet (set : Reader (Located (List Selection))) (selections : List Selection) : Prop :=
  ∀ rest : List Piece, rest ≠ [] →
    Takes set (enclosed .braceOpen .braceClose (selectionPieces selections) ++ rest) rest
      fun found => placelessSelections found.node = placelessSelections selections

section Parts

variable {set : Reader (Located (List Selection))} {rest : List Piece} {start : Position}
  {span : Span}

theorem field_parts_take {aliasName foundAlias : Option (Located String)}
    {name foundName : Located String} {arguments : Option (Located (List Argument))}
    {directives : Directives} {selections : Option (List Selection)}
    (aliased : foundAlias.map Located.bareName = aliasName.map Located.bareName)
    (named : foundName.bareName = name.bareName)
    (arguments_writable : ArgumentsWritable arguments) (directives_writable : directives.Writable)
    (reads : ∀ list ∈ selections, ReadsSet set list)
    (after : Avoids [.punctuator .parenOpen, .punctuator .at, .punctuator .braceOpen] rest) :
    Takes (fieldParts set start foundAlias foundName)
      (argumentPieces arguments ++ (directives.pieces ++ (setPieces selections ++ rest))) rest
      fun found => found.placeless = (Selection.field
        ⟨⟨aliasName, name, arguments, directives, selections⟩, span⟩).placeless := by
  have set_next : Avoids [.punctuator .at, .punctuator .parenOpen]
      (setPieces selections ++ rest) :=
    .optional (set_begins (by decide) selections) (after.mono (by decide))
  have marks_next : Avoids [.punctuator .parenOpen]
      (directives.pieces ++ (setPieces selections ++ rest)) :=
    .optional (directives_begin (by decide) _) (set_next.mono (by decide))
  rw [fieldParts, field_placeless]
  refine (arguments_take arguments_writable marks_next).bind fun list same_list => ?_
  refine (directives_take directives_writable set_next).bind fun marks same_marks => ?_
  cases selections with
  | none =>
      refine (Takes.sees_other after (by decide)).bind fun found absent => ?_
      rw [absent]
      refine .pure (field_placeless.trans ?_)
      rw [aliased, named, same_list, same_marks]
  | some content =>
      refine (Takes.sees_present _).bind fun found present => ?_
      rw [present, if_pos rfl]
      refine (reads content rfl rest after.ne_nil).bind fun found same => ?_
      refine .pure (field_placeless.trans ?_)
      rw [aliased, named, same_list, same_marks, Option.map_some, Option.map_some, same]

theorem field_takes {aliasName : Option (Located String)} {name : Located String}
    {arguments : Option (Located (List Argument))} {directives : Directives}
    {selections : Option (List Selection)}
    (head : FieldHeadWritable aliasName name arguments directives)
    (reads : ∀ list ∈ selections, ReadsSet set list) (after : Avoids fieldParting rest) :
    Takes (field set)
      ((Selection.field ⟨⟨aliasName, name, arguments, directives, selections⟩, span⟩).pieces ++ rest)
      rest fun found => found.placeless = (Selection.field
        ⟨⟨aliasName, name, arguments, directives, selections⟩, span⟩).placeless := by
  have no_part : Avoids [.punctuator .parenOpen, .punctuator .at, .punctuator .braceOpen] rest :=
    after.mono (by decide)
  have no_colon := field_rest_begins (by decide) arguments directives selections
    (after.mono (by decide) : Avoids [.punctuator .colon, .endOfFile] rest)
  rw [field_pieces, fieldHead, field]
  cases aliasName with
  | none =>
      simp only [aliasPieces, List.nil_append, List.cons_append, List.append_assoc]
      refine (Takes.name (Token.of_word_name _) no_colon.ne_nil).bind fun first named => ?_
      refine (Takes.skip_missing no_colon (by decide) (by decide)).bind fun found missing => ?_
      rw [missing]
      exact field_parts_take rfl (congrArg Located.unplaced named) head.arguments head.directives
        reads no_part
  | some other =>
      simp only [aliasPieces, List.nil_append, List.cons_append, List.append_assoc]
      refine (Takes.name (Token.of_word_name _) (List.cons_ne_nil _ _)).bind fun first aliased => ?_
      refine (Takes.skip_present (List.cons_ne_nil _ _)).bind fun found present => ?_
      obtain ⟨colon, rfl⟩ := present
      refine (Takes.name (Token.of_word_name _) no_colon.ne_nil).bind fun second named => ?_
      exact field_parts_take (congrArg some (congrArg Located.unplaced aliased))
        (congrArg Located.unplaced named) head.arguments head.directives reads no_part

theorem inline_parts_take {condition foundCondition : Option (Located String)}
    {directives : Directives} {selections : List Selection}
    (conditioned : foundCondition.map Located.bareName = condition.map Located.bareName)
    (writable : directives.Writable) (reads : ReadsSet set selections) (follows : rest ≠ []) :
    Takes (inlineParts set start foundCondition) (directives.pieces ++
        (enclosed .braceOpen .braceClose (selectionPieces selections) ++ rest)) rest
      fun found => found.placeless =
        (Selection.inline ⟨⟨condition, directives, selections⟩, span⟩).placeless := by
  have set_next : Avoids [.punctuator .at, .punctuator .parenOpen]
      (enclosed .braceOpen .braceClose (selectionPieces selections) ++ rest) := by
    simp [Avoids, enclosed, Token.plain]
  rw [inlineParts]
  refine (directives_take writable set_next).bind fun marks same_marks => ?_
  refine (reads rest follows).bind fun found same => .pure ?_
  simp only [Selection.placeless, Located.between, conditioned, same_marks, same]

theorem inline_takes {condition : Option (Located String)} {directives : Directives}
    {selections : List Selection} (writable : directives.Writable)
    (reads : ReadsSet set selections) (follows : rest ≠ []) :
    Takes (spread set)
      ((Selection.inline ⟨⟨condition, directives, selections⟩, span⟩).pieces ++ rest) rest
      fun found => found.placeless =
        (Selection.inline ⟨⟨condition, directives, selections⟩, span⟩).placeless := by
  obtain ⟨mark, more, same_marks, one_of⟩ :=
    marks_before_set directives (selectionPieces selections) rest
  have begins : directives.pieces ++
      (enclosed .braceOpen .braceClose (selectionPieces selections) ++ rest) ≠ [] := by
    rw [same_marks]
    exact List.cons_ne_nil _ _
  have parts := @inline_parts_take set rest
  rw [Selection.pieces, spread]
  cases condition with
  | none =>
      simp only [conditionPieces, List.nil_append, List.cons_append, List.append_assoc]
      refine (Takes.expect _ begins).bind fun dots _ => ?_
      have within := @parts dots.span.start span none none directives selections rfl writable reads
        follows
      rw [same_marks] at within ⊢
      refine Takes.peek.bind fun found same => ?_
      rw [same]
      rcases one_of with rfl | rfl
      · exact within
      · exact within
  | some name =>
      simp only [conditionPieces, List.nil_append, List.cons_append, List.append_assoc]
      refine (Takes.expect _ (List.cons_ne_nil _ _)).bind fun dots _ => ?_
      refine Takes.peek.bind fun found same => ?_
      rw [same]
      refine (Takes.next (List.cons_ne_nil _ _)).bind fun keyword _ => ?_
      refine (Takes.name (Token.of_word_name _) begins).bind fun type named => ?_
      exact parts (congrArg some (congrArg Located.unplaced named)) writable reads follows

/-- Behind three dots, words other than `on` are names of fragments. -/
theorem spread_takes {name : Located String} {directives : Directives} (other : name.node ≠ "on")
    (writable : directives.Writable)
    (after : Avoids [.punctuator .at, .punctuator .parenOpen] rest) :
    Takes (spread set) ((Selection.spread ⟨⟨name, directives⟩, span⟩).pieces ++ rest) rest
      fun found => found.placeless = (Selection.spread ⟨⟨name, directives⟩, span⟩).placeless := by
  have more : directives.pieces ++ rest ≠ [] := by simp [after.ne_nil]
  have named := Token.of_word_name name.node
  rw [Selection.pieces, spread, List.cons_append, List.cons_append]
  refine (Takes.expect _ (List.cons_ne_nil _ _)).bind fun dots _ => ?_
  refine Takes.peek.bind fun found same => ?_
  rw [← show found.node = Token.ofWord name.node from same] at named
  -- Of the tokens that are looked for, only `on` could be a name.
  split
  · rename_i word
    rw [word] at named
    exact absurd (Option.some.inj named).symm other
  · rename_i mark
    rw [mark] at named
    cases named
  · rename_i mark
    rw [mark] at named
    cases named
  · rename_i ended
    rw [ended] at named
    cases named
  · simp only [named]
    refine (Takes.name (Token.of_word_name _) more).bind fun fragment same_name => ?_
    refine (directives_take writable after).bind fun marks same_marks => .pure ?_
    have bare : fragment.bareName = name.bareName := congrArg Located.unplaced same_name
    simp only [Selection.placeless, Located.between, bare, same_marks]

/-- A selection is read back if the selection sets in it are, which are shorter. -/
theorem selection_takes {selection : Selection} (writable : selection.Writable)
    (inner : ∀ list, list ≠ [] → SelectionsWritable list →
      (selectionPieces list).length < selection.pieces.length → ReadsSet set list)
    (after : Avoids fieldParting rest) :
    Takes (do if ← sees (.punctuator .spread) then spread set else field set)
      (selection.pieces ++ rest) rest fun found => found.placeless = selection.placeless := by
  cases selection with
  | field located =>
      obtain ⟨⟨aliasName, name, arguments, directives, selections⟩, span⟩ := located
      obtain ⟨head, sets⟩ := field_writable.mp writable
      have reads : ∀ list ∈ selections, ReadsSet set list := by
        intro list there
        refine inner list (sets list there).1 (sets list there).2 ?_
        rw [field_pieces, fieldHead, show selections = some list from there, setPieces]
        simp only [List.length_append, List.length_cons, enclosed_length]
        omega
      refine (Takes.sees_other (field_begins (by decide) _).append (List.mem_singleton_self _)).bind
        fun found absent => ?_
      rw [absent]
      exact field_takes head reads after
  | spread located =>
      obtain ⟨⟨name, directives⟩, span⟩ := located
      have parts := writable
      rw [Selection.Writable] at parts
      have read := @spread_takes set rest span name directives parts.2.1 parts.2.2
        (after.mono (by decide))
      rw [Selection.pieces] at read ⊢
      exact (Takes.sees_present _).bind fun found present => by
        rw [present]
        exact read
  | inline located =>
      obtain ⟨⟨condition, directives, selections⟩, span⟩ := located
      have parts := writable
      rw [Selection.Writable] at parts
      have reads : ReadsSet set selections := by
        refine inner selections parts.2.2.1 parts.2.2.2 ?_
        rw [Selection.pieces]
        simp only [List.length_append, List.length_cons, enclosed_length]
        omega
      have read := @inline_takes set rest span condition directives selections parts.2.1 reads
        after.ne_nil
      rw [Selection.pieces] at read ⊢
      exact (Takes.sees_present _).bind fun found present => by
        rw [present]
        exact read

end Parts

/-- Selection sets are read back; as deep as their pieces are many is deep enough. -/
theorem selection_set_within_takes {depth : Nat} {selections : List Selection}
    (selects : selections ≠ []) (writable : SelectionsWritable selections)
    (deep : (selectionPieces selections).length ≤ depth) :
    ReadsSet (selectionSetWithin depth) selections := by
  -- A selection is no longer than the set, and the set inside it is shorter by its braces.
  induction depth generalizing selections with
  | zero =>
      obtain ⟨first, others, rfl⟩ := List.exists_cons_of_ne_nil selects
      have begins := @selection_begins [] (by decide) (by decide) first
      have filled := List.length_pos_of_ne_nil begins.ne_nil
      rw [selectionPieces, List.length_append] at deep
      omega
  | succ depth ih =>
      intro rest follows
      have each : ∀ selection ∈ selections, ∀ rest, Avoids fieldParting rest →
          Takes (do
              if ← sees (.punctuator .spread) then spread (selectionSetWithin depth)
              else field (selectionSetWithin depth))
            (selection.pieces ++ rest) rest
            fun found => found.placeless = selection.placeless := by
        intro selection member rest after
        have within := @part_length_le _ Selection.pieces _ _ member
        rw [← selection_pieces] at within
        refine selection_takes (selections_writable writable member)
          (fun list filled parts shorter => ih filled parts ?_) after
        omega
      have begins : ∀ selection ∈ selections,
          Avoids (.punctuator .braceClose :: .endOfFile :: fieldParting) selection.pieces :=
        fun selection _ => selection_begins (by decide) (by decide) selection
      rw [selectionSetWithin, enclosed_append, selection_pieces]
      refine (Takes.delimited_nonempty selects each begins (by decide) follows).mono
        fun found same => ?_
      rw [placeless_selections, placeless_selections, same]

theorem selection_set_takes {selections : List Selection} (selects : selections ≠ [])
    (writable : SelectionsWritable selections) : ReadsSet selectionSet selections := by
  intro rest follows
  rw [selectionSet]
  refine Takes.count.bind fun cursor counted => ?_
  refine selection_set_within_takes selects writable ?_ rest follows
  rw [counted, List.length_append, enclosed_length]
  omega

variable {rest : List Piece}

theorem variable_definition_takes {definition : VariableDefinition}
    (writable : definition.Writable)
    (after : Avoids [.punctuator .bang, .punctuator .equals, .endOfFile] rest) :
    Takes variableDefinition (definition.pieces ++ rest) rest
      fun found => found.placeless = definition.placeless := by
  have no_mark : Avoids [.punctuator .bang] (defaultPieces definition.default ++ rest) :=
    .optional (default_begins (by decide) _) (after.mono (by decide))
  rw [variableDefinition, VariableDefinition.pieces]
  simp only [List.cons_append, List.append_assoc]
  refine (Takes.expect _ (List.cons_ne_nil _ _)).bind fun dollar _ => ?_
  refine (Takes.name (Token.of_word_name _) (List.cons_ne_nil _ _)).bind fun name named => ?_
  refine (Takes.expect _ (type_begins _).append.ne_nil).bind fun colon _ => ?_
  refine (type_takes writable.type no_mark).bind fun type same_type => ?_
  refine (default_takes writable.default (after.mono (by decide))).bind
    fun value same_value => .pure ?_
  have bare : Located.bareName (.between dollar.span.start name.span.stop name.node) =
      definition.name.bareName := congrArg Located.unplaced named
  have typed : type.placeless id = definition.type.placeless id := Located.placeless_eq same_type
  simp only [VariableDefinition.placeless, bare, typed, same_value]

theorem variable_definitions_take {definitions : Option (Located (List VariableDefinition))}
    (filled : ∀ list ∈ definitions, list.node ≠ [])
    (names : ∀ list ∈ definitions, DistinctNames (list.node.map (·.name)))
    (writable : ∀ list ∈ definitions, ∀ definition ∈ list.node, definition.Writable)
    (after : Avoids [.punctuator .parenOpen] rest) :
    Takes variableDefinitions (variablePieces definitions ++ rest) rest fun found =>
      found.map (Located.placeless (List.map VariableDefinition.placeless)) =
        definitions.map (Located.placeless (List.map VariableDefinition.placeless)) := by
  rw [variableDefinitions]
  cases definitions with
  | none =>
      refine (Takes.sees_other after (by decide)).bind fun found absent => ?_
      rw [absent]
      exact .pure rfl
  | some list =>
      have each : ∀ definition ∈ list.node, ∀ rest,
          Avoids [.punctuator .bang, .punctuator .equals, .endOfFile] rest →
          Takes variableDefinition (definition.pieces ++ rest) rest
            fun found => found.placeless = definition.placeless :=
        fun definition member rest after =>
          variable_definition_takes (writable list rfl definition member) after
      have begins : ∀ definition ∈ list.node, Avoids (.punctuator .parenClose :: .endOfFile ::
          [.punctuator .bang, .punctuator .equals, .endOfFile]) definition.pieces := by
        intro definition _
        simp [Avoids, VariableDefinition.pieces, Token.plain]
      rw [variablePieces]
      refine (Takes.sees_present _).bind fun found present => ?_
      rw [present, if_pos rfl]
      refine distinct_list_takes (filled list rfl) (names list rfl).distinct each (fun _ => rfl)
        begins (by decide) after.ne_nil fun found same => .pure ?_
      exact congrArg some (Located.placeless_eq same)

/-- A name is taken if there is one; a mark is none. -/
theorem operation_name_takes {name : Option (Located String)}
    (after : ∃ mark more, rest = Punctuator.piece mark :: more) :
    Takes operationName (operationNamePieces name ++ rest) rest
      fun found => found.map Located.bareName = name.map Located.bareName := by
  obtain ⟨mark, more, rfl⟩ := after
  rw [operationName]
  cases name with
  | none =>
      refine Takes.peek.bind fun found same => ?_
      rw [same]
      exact .pure rfl
  | some name =>
      have named := Token.of_word_name name.node
      refine Takes.peek.bind fun found same => ?_
      rw [same, show (namePiece name.node).token.asName? = some name.node from named]
      refine (Takes.name named (List.cons_ne_nil _ _)).bind fun operation same_name => ?_
      exact .pure (congrArg some (congrArg Located.unplaced same_name))

theorem bare_query_takes {operation : Operation} (bare : operation.IsBare)
    (writable : operation.Writable) (follows : rest ≠ []) :
    Takes bareQuery
      (enclosed .braceOpen .braceClose (selectionPieces operation.selections) ++ rest) rest
      fun found => found.node.placeless = operation.placeless := by
  obtain ⟨kind, name, inputs, directives, selections⟩ := operation
  obtain ⟨rfl, rfl, rfl, rfl⟩ := bare
  have reads := selection_set_takes writable.selects writable.selections
  rw [bareQuery]
  refine (reads rest follows).bind fun found same => .pure ?_
  simp only [Operation.placeless, Located.map, same]

theorem keyword_operation_takes {operation : Operation} (writable : operation.Writable)
    (follows : rest ≠ []) :
    Takes (keywordOperation operation.kind) (operation.pieces ++ rest) rest
      fun found => found.node.placeless = operation.placeless := by
  let set := enclosed .braceOpen .braceClose (selectionPieces operation.selections) ++ rest
  have reads := selection_set_takes writable.selects writable.selections
  have set_next : Avoids [.punctuator .at, .punctuator .parenOpen] set := by
    simp [set, Avoids, enclosed, Token.plain]
  obtain ⟨mark, more, marks_ahead, one_of⟩ :=
    marks_before_set operation.directives (selectionPieces operation.selections) rest
  have marks_next : Avoids [.punctuator .parenOpen] (operation.directives.pieces ++ set) := by
    rw [marks_ahead]
    rcases one_of with rfl | rfl <;> simp [Avoids, Token.plain]
  have no_name : ∃ mark more, variablePieces operation.variableDefinitions ++
      (operation.directives.pieces ++ set) = Punctuator.piece mark :: more := by
    cases operation.variableDefinitions with
    | none => exact ⟨mark, more, marks_ahead⟩
    | some list => exact ⟨.parenOpen, _, rfl⟩
  rw [keywordOperation, Operation.pieces]
  simp only [List.cons_append, List.append_assoc]
  have named : operationNamePieces operation.name ++ (variablePieces operation.variableDefinitions ++
      (operation.directives.pieces ++ set)) ≠ [] := by
    obtain ⟨mark, more, same⟩ := no_name
    simp [same]
  refine (Takes.next named).bind fun keyword _ => ?_
  refine (operation_name_takes no_name).bind fun name same_name => ?_
  refine (variable_definitions_take writable.filled writable.variableNames writable.definitions
    marks_next).bind fun inputs same_inputs => ?_
  refine (directives_take writable.directives set_next).bind fun marks same_marks => ?_
  refine (reads rest follows).bind fun found same => .pure ?_
  simp only [Operation.placeless, Located.between, same_name, same_inputs, same_marks, same]

theorem fragment_takes {parts : Fragment} (writable : parts.Writable) (follows : rest ≠ []) :
    Takes fragment (parts.pieces ++ rest) rest
      fun found => found.node.placeless = parts.placeless := by
  let set := enclosed .braceOpen .braceClose (selectionPieces parts.selections) ++ rest
  have reads := selection_set_takes writable.selects writable.selections
  have set_next : Avoids [.punctuator .at, .punctuator .parenOpen] set := by
    simp [set, Avoids, enclosed, Token.plain]
  have more : parts.directives.pieces ++ set ≠ [] := by simp [set_next.ne_nil]
  rw [fragment, Fragment.pieces]
  simp only [List.cons_append, List.append_assoc]
  refine (Takes.expect _ (List.cons_ne_nil _ _)).bind fun keyword _ => ?_
  refine (Takes.name (Token.of_word_name _) (List.cons_ne_nil _ _)).bind fun name named => ?_
  rw [if_neg (named ▸ writable.named)]
  refine (Takes.expect _ (List.cons_ne_nil _ _)).bind fun on _ => ?_
  refine (Takes.name (Token.of_word_name _) more).bind fun type typed => ?_
  refine (directives_take writable.directives set_next).bind fun marks same_marks => ?_
  refine (reads rest follows).bind fun found same => .pure ?_
  have bare : name.bareName = parts.name.bareName := congrArg Located.unplaced named
  have condition : type.bareName = parts.typeCondition.bareName := congrArg Located.unplaced typed
  simp only [Fragment.placeless, Located.between, bare, condition, same_marks, same]

end Reader

section Proper

theorem field_head_proper {aliasName : Option (Located String)} {name : Located String}
    {arguments : Option (Located (List Argument))} {directives : Directives}
    (head : FieldHeadWritable aliasName name arguments directives) :
    AllProper (fieldHead aliasName name arguments directives) := by
  have rest : AllProper (namePiece name.node :: (argumentPieces arguments ++ directives.pieces)) :=
    .cons (name_proper head.name)
      ((arguments_proper head.arguments).append (directives_proper head.directives))
  cases aliasName with
  | none => exact rest
  | some other => exact .cons (name_proper (head.aliasName other rfl)) (.cons (mark_proper _) rest)

mutual

theorem selection_proper : ∀ selection : Selection, selection.Writable → AllProper selection.pieces
  | .field ⟨⟨aliasName, name, arguments, directives, none⟩, _⟩, writable => by
      rw [Selection.Writable] at writable
      rw [Selection.pieces]
      exact field_head_proper writable
  | .field ⟨⟨aliasName, name, arguments, directives, some selections⟩, _⟩, writable => by
      rw [Selection.Writable] at writable
      rw [Selection.pieces]
      exact (field_head_proper writable.1).append
        (enclosed_proper (selections_proper selections writable.2.2))
  | .spread ⟨⟨name, directives⟩, _⟩, writable => by
      rw [Selection.Writable] at writable
      rw [Selection.pieces]
      exact .cons (mark_proper _)
        (.cons (name_proper writable.1) (directives_proper writable.2.2))
  | .inline ⟨⟨condition, directives, selections⟩, _⟩, writable => by
      rw [Selection.Writable] at writable
      obtain ⟨names, marks, -, sets⟩ := writable
      rw [Selection.pieces]
      have rest := (directives_proper marks).append
        (@enclosed_proper .braceOpen .braceClose _ (selections_proper selections sets))
      refine .cons (mark_proper _) ?_
      cases condition with
      | none => exact rest
      | some name => exact .cons (plain_keyword_proper _) (.cons (name_proper (names name rfl)) rest)

theorem selections_proper :
    ∀ selections : List Selection, SelectionsWritable selections →
      AllProper (selectionPieces selections)
  | [], _ => by
      rw [selectionPieces]
      exact .nil
  | selection :: rest, writable => by
      rw [SelectionsWritable] at writable
      rw [selectionPieces]
      exact (selection_proper selection writable.1).append (selections_proper rest writable.2)

end

theorem set_proper {selections : List Selection} (writable : SelectionsWritable selections) :
    AllProper (enclosed .braceOpen .braceClose (selectionPieces selections)) :=
  enclosed_proper (selections_proper selections writable)

theorem variables_proper {definitions : Option (Located (List VariableDefinition))}
    (names : ∀ list ∈ definitions, DistinctNames (list.node.map (·.name)))
    (writable : ∀ list ∈ definitions, ∀ definition ∈ list.node, definition.Writable) :
    AllProper (variablePieces definitions) := by
  cases definitions with
  | none => exact .nil
  | some list =>
      refine enclosed_proper (.parts fun definition member => ?_)
      have valid := (names list rfl).valid _ (List.mem_map_of_mem member)
      have fits := writable list rfl definition member
      exact .cons (mark_proper _) (.cons (name_proper valid) (.cons (mark_proper _)
        ((type_proper fits.type).append (default_proper fits.default))))

theorem operation_proper {operation : Operation} (writable : operation.Writable) :
    AllProper operation.pieces := by
  have name : AllProper (operationNamePieces operation.name) := by
    cases named : operation.name with
    | none => exact .nil
    | some name => exact .cons (name_proper (writable.name name named)) .nil
  exact .cons (plain_keyword_proper _) (name.append
    ((variables_proper writable.variableNames writable.definitions).append
      ((directives_proper writable.directives).append (set_proper writable.selections))))

theorem fragment_proper {fragment : Fragment} (writable : fragment.Writable) :
    AllProper fragment.pieces :=
  .cons (plain_keyword_proper _) (.cons (name_proper writable.name) (.cons (plain_keyword_proper _)
    (.cons (name_proper writable.typeCondition)
      ((directives_proper writable.directives).append (set_proper writable.selections)))))

end Proper

end GraphQL
