import GraphQL.Proofs.ReadingDocuments

/-!
Literals are read back from requests in the form in which they are printed.

The printed form of a literal is made of its tokens, with layout behind commas and colons only. It is
put into the text of a request where the value of an argument stands; what surrounds it is laid out as
the other tokens of the request, in any way.
-/

namespace GraphQL

/-- A token of the grammar, in front of a text that does not go on where the token could. -/
def Token.Fits (token : Token) (rest : List Char) : Prop := token.WellFormed ∧ token.StopsAt rest

/-- The tokens of some pieces, descriptions among them. -/
def pieceTokens (pieces : List Piece) : List Token := pieces.flatMap Piece.spelling

/-- A text does not go on where a literal could. -/
def Literal.StopsAt (literal : Literal) (rest : List Char) : Prop :=
  match literal with
  | .string _ | .list _ | .object _ => True
  | _ => NumberStops rest

section Laying

variable {pieces others : List Piece} {text middle rest : List Char}

@[simp] theorem piece_tokens_nil : pieceTokens [] = [] := rfl

@[simp] theorem piece_tokens_plain (token : Token) (more : List Piece) :
    pieceTokens (token.plain :: more) = token :: pieceTokens more := rfl

@[simp] theorem piece_tokens_append :
    pieceTokens (pieces ++ others) = pieceTokens pieces ++ pieceTokens others :=
  List.flatMap_append

theorem NumberStops.word {text : String} (stops : NumberStops rest) :
    (Token.ofWord text).StopsAt rest := by
  unfold Token.ofWord
  split
  · exact stops
  split
  · exact stops
  split
  · exact stops
  · cases Keyword.ofText? text <;> exact stops

theorem single_laid {token : Token} (fits : token.Fits rest) :
    Laid Token.Fits [token] (token.text.toList ++ rest) rest := .token fits .nothing

theorem mark_laid (mark : Punctuator) (rest : List Char) :
    Laid Token.Fits [.punctuator mark] (mark.text.toList ++ rest) rest :=
  single_laid ⟨trivial, trivial⟩

theorem word_laid {text : String} (valid : Name.isValid text = true) (stops : NumberStops rest) :
    Laid Token.Fits [.ofWord text] (text.toList ++ rest) rest := by
  have laid := single_laid ⟨Token.of_word_well_formed valid, stops.word⟩
  rwa [Token.of_word_text] at laid

/-- Marks around what is laid out in front of the closing one. -/
theorem enclosed_laid (opening closing : Punctuator)
    (laid : Laid Token.Fits (pieceTokens pieces) (text ++ (closing.text.toList ++ rest))
      (closing.text.toList ++ rest)) :
    Laid Token.Fits (pieceTokens (enclosed opening closing pieces))
      (opening.text.toList ++ (text ++ (closing.text.toList ++ rest))) rest := by
  have closed := laid.append (mark_laid closing rest)
  rw [enclosed]
  simp only [piece_tokens_plain, piece_tokens_append, piece_tokens_nil]
  exact (mark_laid opening _).append closed

/-- Values that are laid out one by one are so with commas between them. -/
theorem joined_laid {γ : Type} {pieces : γ → List Piece} {print : γ → String} {values : List γ}
    (each : ∀ value ∈ values, ∀ rest, NumberStops rest →
      Laid Token.Fits (pieceTokens (pieces value)) ((print value).toList ++ rest) rest)
    (stops : NumberStops rest) :
    Laid Token.Fits (pieceTokens (values.flatMap pieces))
      ((String.intercalate ", " (values.map print)).toList ++ rest) rest := by
  induction values with
  | nil => exact .nothing
  | cons value more ih =>
      obtain ⟨first, others⟩ := List.forall_mem_cons.mp each
      cases more with
      | nil =>
          simpa using first rest stops
      | cons next last =>
          have comma : Layout ", ".toList := layout_ignored (by simp [isIgnored])
          have behind : NumberStops (", ".toList ++
              ((String.intercalate ", " ((next :: last).map print)).toList ++ rest)) := by
            intro c begins
            cases begins
            decide
          have laid := (first _ behind).append (.layout comma (ih others))
          simpa using laid

end Laying

section Literals

variable {isConstant : Bool}

theorem print_items (items : List (Located Literal)) :
    Literal.printItems items = items.map fun item => item.node.print := by
  induction items with
  | nil => rw [Literal.printItems, List.map_nil]
  | cons item rest ih => rw [Literal.printItems, ih, List.map_cons]

/-- A field of an object literal, as it is printed. -/
def printField (field : Located String × Located Literal) : String :=
  field.1.node ++ ": " ++ field.2.node.print

theorem print_fields (fields : List (Located String × Located Literal)) :
    Literal.printFields fields = fields.map printField := by
  induction fields with
  | nil => rw [Literal.printFields, List.map_nil]
  | cons field rest ih => rw [Literal.printFields, ih, List.map_cons, printField]

theorem NumberStops.literal {rest : List Char} (stops : NumberStops rest) (literal : Literal) :
    literal.StopsAt rest := by
  cases literal <;> trivial

theorem mark_stops {mark : Punctuator} (closing : mark = .bracketClose ∨ mark = .braceClose)
    (rest : List Char) : NumberStops (mark.text.toList ++ rest) := by
  intro c begins
  rcases closing with rfl | rfl
  · cases begins
    decide
  · cases begins
    decide

/-- A literal is printed as its own tokens. -/
abbrev Literal.PrintsTokens (literal : Literal) : Prop :=
  ∀ rest, literal.StopsAt rest →
    Laid Token.Fits (pieceTokens literal.pieces) (literal.print.toList ++ rest) rest

theorem list_prints_tokens {items : List (Located Literal)}
    (each : ∀ item ∈ items, item.node.PrintsTokens) : (Literal.list items).PrintsTokens := by
  intro rest _
  have inside := @joined_laid _ _ (fun item : Located Literal => item.node.pieces)
    (fun item => item.node.print) items
    (fun item member rest stops => each item member rest (stops.literal item.node))
    (mark_stops (.inl rfl) rest)
  rw [Literal.pieces, item_pieces, Literal.print, print_items]
  simpa [Punctuator.text] using enclosed_laid .bracketOpen .bracketClose inside

theorem field_laid {field : Located String × Located Literal} (valid : field.1.Valid)
    (value : field.2.node.PrintsTokens) {rest : List Char} (stops : NumberStops rest) :
    Laid Token.Fits (pieceTokens (literalFieldPiece field)) ((printField field).toList ++ rest)
      rest := by
  have blank : Layout [' '] := layout_ignored (by simp [isIgnored])
  have content := Laid.layout blank (value rest (stops.literal field.2.node))
  have colon := (mark_laid .colon _).append content
  have begins : NumberStops (Punctuator.colon.text.toList ++
      ([' '] ++ (field.2.node.print.toList ++ rest))) := by
    intro c first
    cases first
    decide
  have laid := (word_laid valid begins).append colon
  rw [literalFieldPiece, printField]
  simpa [Punctuator.text] using laid

theorem object_prints_tokens {fields : List (Located String × Located Literal)}
    (each : ∀ field ∈ fields, field.1.Valid ∧ field.2.node.PrintsTokens) :
    (Literal.object fields).PrintsTokens := by
  intro rest _
  have inside := @joined_laid _ _ literalFieldPiece printField fields
    (fun field member rest stops => field_laid (each field member).1 (each field member).2 stops)
    (mark_stops (.inr rfl) rest)
  rw [Literal.pieces, literal_field_pieces, Literal.print, print_fields]
  simpa [Punctuator.text] using enclosed_laid .braceOpen .braceClose inside

theorem Literal.Spelled.prints_tokens {literal : Literal} (spelled : literal.Spelled isConstant) :
    literal.PrintsTokens := by
  induction spelled with
  | null => exact fun _ stops => single_laid ⟨trivial, stops⟩
  | int value => exact fun _ stops => single_laid ⟨int_well_formed value.toInt, stops⟩
  | float back => exact fun _ stops => single_laid ⟨back.token, stops⟩
  | string text => exact fun _ _ => single_laid ⟨string_well_formed text, trivial⟩
  | bool value =>
      cases value with
      | true => exact fun _ stops => single_laid ⟨trivial, stops⟩
      | false => exact fun _ stops => single_laid ⟨trivial, stops⟩
  | enum allowed => exact fun _ stops => word_laid allowed.1 stops
  | «variable» free valid =>
      intro rest stops
      have laid := (mark_laid .dollar _).append (word_laid valid stops)
      rw [Literal.pieces, Literal.print]
      simpa [Punctuator.text] using laid
  | list each ih => exact list_prints_tokens ih
  | object distinct named each ih =>
      exact object_prints_tokens fun field member => ⟨named field member, ih field member⟩

end Literals

section Arguments

/-- The arguments between two parentheses, if there are any. -/
def listedArguments (arguments : Option (Located (List Argument))) : List Argument :=
  match arguments with
  | none => []
  | some list => list.node

def Directives.arguments (directives : Directives) : List Argument :=
  (directives.getD []).flatMap fun directive => listedArguments directive.node.arguments

mutual

/-- The arguments of a selection, of its directives and of what it selects. -/
def Selection.arguments : Selection → List Argument
  | .field ⟨⟨_, _, arguments, directives, none⟩, _⟩ =>
      listedArguments arguments ++ directives.arguments
  | .field ⟨⟨_, _, arguments, directives, some selections⟩, _⟩ =>
      listedArguments arguments ++ directives.arguments ++ selectionArguments selections
  | .spread ⟨⟨_, directives⟩, _⟩ => directives.arguments
  | .inline ⟨⟨_, directives, selections⟩, _⟩ =>
      directives.arguments ++ selectionArguments selections

def selectionArguments : List Selection → List Argument
  | [] => []
  | selection :: rest => selection.arguments ++ selectionArguments rest

end

def Definition.arguments : Definition → List Argument
  | .operation located =>
      located.node.directives.arguments ++ selectionArguments located.node.selections
  | .fragment located =>
      located.node.directives.arguments ++ selectionArguments located.node.selections
  | .type _ | .extension _ => []

@[simp] theorem listed_arguments_placeless (arguments : Option (Located (List Argument))) :
    listedArguments (placelessArguments arguments) =
      (listedArguments arguments).map Argument.placeless := by
  cases arguments <;> rfl

@[simp] theorem directive_arguments_placeless (directives : Directives) :
    directives.placeless.arguments = directives.arguments.map Argument.placeless := by
  cases directives with
  | none => rfl
  | some list =>
      simp [Directives.arguments, Directives.placeless, List.flatMap_map, List.map_flatMap,
        Located.placeless, Located.unplaced, Directive.placeless]

mutual

theorem selection_arguments_placeless : (selection : Selection) →
    selection.placeless.arguments = selection.arguments.map Argument.placeless
  | .field ⟨⟨_, _, arguments, directives, none⟩, _⟩ => by
      simp [Selection.placeless, Selection.arguments, Located.unplaced]
  | .field ⟨⟨_, _, arguments, directives, some selections⟩, _⟩ => by
      simp [Selection.placeless, Selection.arguments, Located.unplaced,
        selections_arguments_placeless selections]
  | .spread ⟨⟨_, directives⟩, _⟩ => by
      simp [Selection.placeless, Selection.arguments, Located.unplaced]
  | .inline ⟨⟨_, directives, selections⟩, _⟩ => by
      simp [Selection.placeless, Selection.arguments, Located.unplaced,
        selections_arguments_placeless selections]

theorem selections_arguments_placeless : (selections : List Selection) →
    selectionArguments (placelessSelections selections) =
      (selectionArguments selections).map Argument.placeless
  | [] => by simp [placelessSelections, selectionArguments]
  | selection :: rest => by
      simp [placelessSelections, selectionArguments, selection_arguments_placeless selection,
        selections_arguments_placeless rest]

end

theorem definition_arguments_placeless (definition : Definition) :
    definition.placeless.arguments = definition.arguments.map Argument.placeless := by
  cases definition <;>
    simp [Definition.placeless, Definition.arguments, Located.placeless, Located.unplaced,
      Operation.placeless, Fragment.placeless, selections_arguments_placeless]

/-- Where definitions differ in nothing but places, so do their arguments. -/
theorem arguments_found {definitions others : List Definition}
    (same : definitions.map Definition.placeless = others.map Definition.placeless)
    {argument : Argument} (given : argument ∈ others.flatMap Definition.arguments) :
    ∃ found ∈ definitions.flatMap Definition.arguments,
      found.placeless = argument.placeless := by
  have bare (list : List Definition) : (list.flatMap Definition.arguments).map Argument.placeless =
      (list.map Definition.placeless).flatMap Definition.arguments := by
    rw [List.flatMap_map, List.map_flatMap]
    exact List.flatMap_congr fun definition _ => (definition_arguments_placeless definition).symm
  have there : argument.placeless ∈ (others.flatMap Definition.arguments).map Argument.placeless :=
    List.mem_map_of_mem given
  rw [bare, ← same, ← bare] at there
  exact List.mem_map.mp there

end Arguments

section Requests

variable {tokens : List Token} {text : List Char}

theorem Token.WellFormed.filled {token : Token} (spelled : token.WellFormed) :
    token.text.toList ≠ [] := by
  have alone : token.StopsAt [] := (ends_before_nothing token).stops
  obtain ⟨c, tail, same, -, -⟩ := (spelled.cut_off alone).begins
  rw [same]
  exact List.cons_ne_nil c tail

/-- What may follow a token shows in its first character. -/
theorem Token.StopsAt.append {token : Token} (stops : token.StopsAt text) (filled : text ≠ [])
    (rest : List Char) : token.StopsAt (text ++ rest) := by
  obtain ⟨c, more, rfl⟩ := List.exists_cons_of_ne_nil filled
  cases token <;> trivial

theorem Laid.filled {rest : List Char} (laid : Laid Token.Fits tokens text rest)
    (there : tokens ≠ []) : text ≠ [] := by
  induction laid with
  | nothing => exact absurd rfl there
  | layout _ _ ih => exact List.append_ne_nil_of_right_ne_nil _ (ih there)
  | token fits => exact List.append_ne_nil_of_left_ne_nil fits.1.filled _

/-- Tokens that end with a mark are laid out in the same way in front of more text. -/
theorem Laid.before (laid : Laid Token.Fits tokens text [])
    (ends : ∀ last ∈ tokens.getLast?, ∃ mark, last = .punctuator mark) (rest : List Char) :
    Laid Token.Fits tokens (text ++ rest) rest := by
  generalize ended : ([] : List Char) = final at laid
  induction laid with
  | nothing => exact ended ▸ .nothing
  | layout between _ ih =>
      rw [List.append_assoc]
      exact .layout between (ih ends ended)
  | @token token tokens text _ fits more ih =>
      subst ended
      rw [List.append_assoc]
      by_cases last : tokens = []
      · subst last
        obtain ⟨mark, rfl⟩ := ends token rfl
        exact .token ⟨trivial, trivial⟩ (ih (by simp) rfl)
      · refine .token ⟨fits.1, fits.2.append (more.filled last) rest⟩ (ih ?_ rfl)
        obtain ⟨next, others, rfl⟩ := List.exists_cons_of_ne_nil last
        rwa [List.getLast?_cons_cons] at ends

/--
A request is written around the value of one of its arguments: the text in front ends with the colon
of the argument, and the text behind is the rest of the request.
-/
structure RequestAround (definitions : List Definition) (argument : Argument)
    (front back : List Char) : Prop where
  filled : definitions ≠ []
  executable : ∀ definition ∈ definitions, definition.isExecutable = true
  writable : ∀ definition ∈ definitions, definition.Writable
  distinct : (declaredNames definitions).Nodup
  given : argument ∈ definitions.flatMap Definition.arguments
  written : ∃ parts before after, List.Forall₂ Definition.Printed definitions parts ∧
    parts.flatten = before ++ (argument.pieces ++ after) ∧
    Laid Token.Fits
      (pieceTokens (before ++ [namePiece argument.name.node, Punctuator.colon.piece])) front [] ∧
    Laid Token.Fits (pieceTokens after) back []

theorem request_read_back {definitions : List Definition} {argument : Argument}
    {front back : List Char} (request : RequestAround definitions argument front back)
    (writable : argument.value.node.Writable false) (stops : argument.value.node.StopsAt back) :
    ∃ document,
      Document.ofText (front ++ (argument.value.node.print.toList ++ back)) = .ok document ∧
        document.definitions.map Definition.placeless = definitions.map Definition.placeless := by
  obtain ⟨parts, before, after, printed, same, opens, closes⟩ := request.written
  have colon : ∀ last ∈ (pieceTokens
      (before ++ [namePiece argument.name.node, Punctuator.colon.piece])).getLast?,
      ∃ mark, last = .punctuator mark := by
    simp
  have named := opens.before colon (argument.value.node.print.toList ++ back)
  have laid := named.append ((writable.spelled.prints_tokens back stops).append closes)
  have tokens : parts.flatten.flatMap Piece.spelling =
      pieceTokens (before ++ [namePiece argument.name.node, Punctuator.colon.piece]) ++
        (pieceTokens argument.value.node.pieces ++ pieceTokens after) := by
    rw [same]
    simp [Argument.pieces, pieceTokens]
  have proper := (parts_proper printed request.writable).1
  have scanned := stream_laid (laid.mono fun token _ rest fits => fits.1.cut_off fits.2)
  rw [← tokens, List.flatMap_def] at scanned
  obtain ⟨cursor, found, held⟩ := cursor_spelled (pieces_spelled proper) proper scanned
  rw [Document.ofText, Document.ofStream, found]
  exact cursor_read_back request.filled request.writable request.distinct
    (executables_end_otherwise request.executable) printed held
    (definitions_counted printed request.writable held)

/-- A query for one field with one argument. -/
def queryWith (argument : Argument) : Definition :=
  .operation (.unplaced {
    kind := .query
    name := none
    variableDefinitions := none
    directives := none
    selections := [.field
      (.unplaced ⟨none, .unplaced "f", some (.unplaced [argument]), none, none⟩)] })

theorem query_with_writable {argument : Argument} (named : argument.name.Valid)
    (writable : argument.value.node.Writable false) : (queryWith argument).Writable where
  name := nofun
  filled := nofun
  variableNames := nofun
  definitions := nofun
  directives := no_directives_writable
  selects := List.cons_ne_nil _ _
  selections := by
    have argued : ArgumentsWritable (some (.unplaced [argument])) := by
      refine ⟨fun list there => ?_, fun list there => ?_, fun list there => ?_⟩
      all_goals cases there
      · exact List.cons_ne_nil _ _
      · exact ⟨List.forall_mem_singleton.mpr named, by simp [Located.unplaced]⟩
      · exact List.forall_mem_singleton.mpr writable
    simp only [Located.unplaced, SelectionsWritable, Selection.Writable, and_true]
    exact ⟨nofun, by decide, argued, no_directives_writable⟩

/-- Around every literal there is a request. -/
theorem query_around {literal : Literal} (writable : literal.Writable false) :
    RequestAround [queryWith ⟨.unplaced "a", .unplaced literal⟩]
      ⟨.unplaced "a", .unplaced literal⟩ "\x7bf(a:".toList ")\x7d".toList where
  filled := List.cons_ne_nil _ _
  executable := List.forall_mem_singleton.mpr rfl
  writable := by
    have letter : Name.isValid "a" = true := by decide
    exact List.forall_mem_singleton.mpr (query_with_writable letter writable)
  distinct := List.nodup_nil
  given := by
    simp [queryWith, Definition.arguments, Directives.arguments, selectionArguments,
      Selection.arguments, listedArguments, Located.unplaced]
  written := by
    have letters : Name.isValid "f" = true ∧ Name.isValid "a" = true := by decide
    have opens : NumberStops "(a:".toList := by
      intro c begins
      cases begins
      decide
    have colon : NumberStops ":".toList := by
      intro c begins
      cases begins
      decide
    refine ⟨_, [Punctuator.braceOpen.piece, namePiece "f", Punctuator.parenOpen.piece],
      [Punctuator.parenClose.piece, Punctuator.braceClose.piece],
      .cons (.bareQuery _ ⟨rfl, rfl, rfl, rfl⟩) .nil, ?_, ?_, ?_⟩
    · simp [selectionPieces, Selection.pieces, Located.unplaced, fieldHead, aliasPieces,
        argumentPieces, Directives.pieces, enclosed, Argument.pieces]
    · have name := (word_laid letters.1 opens).append
        ((mark_laid .parenOpen _).append ((word_laid letters.2 colon).append
          (mark_laid .colon [])))
      exact (mark_laid .braceOpen _).append name
    · exact (mark_laid .parenClose _).append (mark_laid .braceClose [])

/--
Put into the text of any request as the value of an argument, the printed form of a literal makes the
text one of that request. Nothing but places changes, the argument among the rest.
-/
theorem printed_literals_read_back {literal : Literal} (writable : literal.Writable false) :
    (∃ definitions argument front back, argument.value.node = literal ∧
      literal.StopsAt back ∧ RequestAround definitions argument front back) ∧
    ∀ definitions argument front back, argument.value.node = literal →
      literal.StopsAt back → RequestAround definitions argument front back →
      ∃ document, Document.ofText (front ++ (literal.print.toList ++ back)) = .ok document ∧
        document.definitions.map Definition.placeless = definitions.map Definition.placeless ∧
        ∃ found ∈ document.definitions.flatMap Definition.arguments,
          found.placeless = argument.placeless := by
  constructor
  · have stops : NumberStops ")\x7d".toList := by
      intro c begins
      cases begins
      decide
    exact ⟨_, _, _, _, rfl, stops.literal literal, query_around writable⟩
  · rintro definitions argument front back rfl stops request
    obtain ⟨document, read, same⟩ := request_read_back request writable stops
    exact ⟨document, read, same, arguments_found same request.given⟩

/-- Words for names, the least integer, all kinds of escapes and nothing at all in lists. -/
def crowdedLiteral : Literal :=
  .object [
    (.unplaced "true", .unplaced (.list [])),
    (.unplaced "on", .unplaced (.list [.unplaced (.variable "null"), .unplaced (.int (-2147483648)),
      .unplaced (.enum "query")])),
    (.unplaced "x", .unplaced (.string "\"\\\n\x01\uFEFF")),
    (.unplaced "y", .unplaced (.object []))]

theorem crowded_literal_writable : crowdedLiteral.Writable false := by
  simp only [crowdedLiteral, Located.unplaced, Literal.Writable, LiteralFieldsWritable,
    ItemsWritable, IsEnumName]
  decide

theorem crowded_literal_read_back :
    crowdedLiteral.Writable false ∧ ∃ document,
      Document.ofText ("\x7bf(a:\x7btrue: [], on: [$null, -2147483648, query], ".toList ++
        "x: \"\\\"\\\\\\n\\u0001\uFEFF\", y: \x7b\x7d\x7d)\x7d".toList) = .ok document ∧
      ∃ found ∈ document.definitions.flatMap Definition.arguments,
        found.placeless = (⟨.unplaced "a", .unplaced crowdedLiteral⟩ : Argument).placeless := by
  have text : "\x7bf(a:\x7btrue: [], on: [$null, -2147483648, query], ".toList ++
      "x: \"\\\"\\\\\\n\\u0001\uFEFF\", y: \x7b\x7d\x7d)\x7d".toList =
      "\x7bf(a:".toList ++ (crowdedLiteral.print.toList ++ ")\x7d".toList) := by
    decide +kernel
  obtain ⟨document, read, -, found⟩ := (printed_literals_read_back crowded_literal_writable).2
    _ _ _ _ rfl trivial (query_around crowded_literal_writable)
  rw [text]
  exact ⟨crowded_literal_writable, document, read, found⟩

end Requests

end GraphQL
