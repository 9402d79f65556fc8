import GraphQL.Proofs.PrintedLiterals
import GraphQL.Proofs.TokenPlaces
import Mathlib.Data.Nat.Digits.Defs

/-!
What a scalar token is read as, wherever it stands.

A text that spells a token is scanned as that token alone. Reading a literal where the token comes
next gives what the token means, or fails with its error, at the place of the token. Readers do not
recover from failures, so the same becomes of a request that has the token for an argument. The
digits in a scalar count by their places, in integers and in codes of characters alike.
-/

namespace GraphQL

/-- The sum of digits by their places, the last of them being the ones. -/
def placeValue (base : Nat) (digits : List Char) : Nat :=
  Nat.ofDigits base (digits.reverse.map digitValue)

theorem of_digits_value (base : Nat) (digits : List Char) :
    ofDigits base digits = placeValue base digits := by
  induction digits using List.reverseRecOn with
  | nil => rfl
  | append_singleton front c ih =>
      have step : ofDigits base (front ++ [c]) = ofDigits base front * base + digitValue c := by
        simp [ofDigits]
      have value : placeValue base (front ++ [c]) = digitValue c + base * placeValue base front := by
        simp [placeValue, Nat.ofDigits_cons]
      rw [step, ih, value, Nat.add_comm, Nat.mul_comm]

/-- A stream is one token, and the end token behind it. -/
def TokenStream.IsSingle (stream : TokenStream) (token : Token) : Prop :=
  stream.tokens.map (·.node) = [token, .endOfFile] ∧ stream.fault = none

/--
Where the token comes next, reading a literal ends in the outcome: with the literal, the token being
taken, or with the error. Both have the place of the token.
-/
def Token.ReadAs (token : Token) (outcome : Except ParseError Literal) : Prop :=
  ∀ (isConstant : Bool) (entry : Entry) (rest : Cursor), entry.token.node = token → rest ≠ [] →
    (Reader.literal isConstant).run (entry :: rest) =
      match outcome with
      | .ok literal => .ok ⟨literal, entry.token.span⟩ rest
      | .error error => .error ⟨error, entry.token.span⟩ rest

/-- A text that spells a token stands alone for it. -/
theorem Token.WellFormed.single {token : Token} (spelled : token.WellFormed) :
    (TokenStream.ofText token.text.toList).IsSingle token := by
  have laid : Laid Token.CutOff [token] (token.text.toList ++ []) [] :=
    .token (spelled.cut_off (ends_before_nothing token).stops) .nothing
  rw [List.append_nil] at laid
  exact stream_laid laid

/-- What a request for one field with one argument becomes, by the literal of the argument. -/
def Document.Argues (result : Except (Located ParseError) Document) (source text : String)
    (outcome : Except ParseError Literal) : Prop :=
  ∃ span : Span, span.slice source = text ∧
    match outcome with
    | .ok literal => ∃ document name, result = .ok document ∧
        document.definitions.flatMap Definition.arguments = [⟨name, ⟨literal, span⟩⟩]
    | .error error => result = .error ⟨error, span⟩

section Requests

variable {token : Token} {outcome : Except ParseError Literal} {α β : Type}

/-- A result that hangs on the outcome of reading a literal. -/
def outcomeAt (outcome : Except ParseError Literal) (span : Span) (rest : Cursor)
    (value : Literal → α) (left : Cursor) : EStateM.Result (Located ParseError) Cursor α :=
  match outcome with
  | .ok literal => .ok (value literal) left
  | .error error => .error ⟨error, span⟩ rest

namespace Reader

theorem run_bind_outcome {reader : Reader α} {next : α → Reader β} {cursor rest middle left : Cursor}
    {span : Span} {value : Literal → α} {result : Literal → β}
    (first : reader.run cursor = outcomeAt outcome span rest value middle)
    (second : ∀ literal, (next (value literal)).run middle = .ok (result literal) left) :
    (reader >>= next).run cursor = outcomeAt outcome span rest result left := by
  cases outcome with
  | ok literal => exact (run_ok_bind first).trans (second literal)
  | error error => exact run_error_bind first

variable (s₁ s₂ s₃ s₄ s₅ span s₇ s₈ s₉ : Span)

/-- The cursor of a request for one field, whose argument is a token. -/
def argumentCursor (token : Token) : Cursor :=
  [⟨⟨.punctuator .braceOpen, s₁⟩, none⟩, ⟨⟨.name "f", s₂⟩, none⟩, ⟨⟨.punctuator .parenOpen, s₃⟩, none⟩,
    ⟨⟨.name "a", s₄⟩, none⟩, ⟨⟨.punctuator .colon, s₅⟩, none⟩, ⟨⟨token, span⟩, none⟩,
    ⟨⟨.punctuator .parenClose, s₇⟩, none⟩, ⟨⟨.punctuator .braceClose, s₈⟩, none⟩,
    ⟨⟨.endOfFile, s₉⟩, none⟩]

/-- The literal is asked for as the argument of the field. -/
def argumentField (literal : Literal) : Selection :=
  .field ⟨⟨none, ⟨"f", s₂⟩, some ⟨[⟨⟨"a", s₄⟩, ⟨literal, span⟩⟩], ⟨s₃.start, s₇.stop⟩⟩, none, none⟩,
    ⟨s₂.start, s₇.stop⟩⟩

/-- Each reader on the way to the argument goes on with what was read, or fails with it. -/
theorem argument_cursor_run (read : token.ReadAs outcome) :
    (definitions 9).run (argumentCursor s₁ s₂ s₃ s₄ s₅ span s₇ s₈ s₉ token) =
      outcomeAt outcome span ((argumentCursor s₁ s₂ s₃ s₄ s₅ span s₇ s₈ s₉ token).drop 6)
        (fun literal => [.operation ⟨⟨.query, none, none, none,
          [argumentField s₂ s₃ s₄ span s₇ literal]⟩, ⟨s₁.start, s₈.stop⟩⟩])
        [⟨⟨.endOfFile, s₉⟩, none⟩] := by
  let left (count : Nat) := (argumentCursor s₁ s₂ s₃ s₄ s₅ span s₇ s₈ s₉ token).drop count
  let asked := argumentField s₂ s₃ s₄ span s₇
  let result {α : Type} (value : Literal → α) (count : Nat) :=
    outcomeAt outcome span (left 6) value (left count)
  have content : (literal false).run (left 5) = result (fun literal => ⟨literal, span⟩) 6 := by
    refine (read false _ _ rfl (List.cons_ne_nil _ _)).trans ?_
    cases outcome <;> rfl
  have argued : argument.run (left 3) = result (fun literal => ⟨⟨"a", s₄⟩, ⟨literal, span⟩⟩) 6 :=
    (run_ok_bind rfl).trans ((run_ok_bind rfl).trans (run_bind_outcome content fun _ => rfl))
  have listed : (delimitedNonempty (.punctuator .parenOpen) argument
      (.punctuator .parenClose)).run (left 2) =
      result (fun literal => ⟨[⟨⟨"a", s₄⟩, ⟨literal, span⟩⟩], ⟨s₃.start, s₇.stop⟩⟩) 7 :=
    (run_ok_bind rfl).trans (run_bind_outcome argued fun _ => rfl)
  have arguments_read : arguments.run (left 2) =
      result (fun literal => some ⟨[⟨⟨"a", s₄⟩, ⟨literal, span⟩⟩], ⟨s₃.start, s₇.stop⟩⟩) 7 :=
    (run_ok_bind rfl).trans (run_bind_outcome listed fun _ => rfl)
  have field_read (set : Reader (Located (List Selection))) :
      (field set).run (left 1) = result asked 7 :=
    (run_ok_bind rfl).trans ((run_ok_bind rfl).trans (run_bind_outcome arguments_read fun _ => rfl))
  have set_read : selectionSet.run (left 0) =
      result (fun literal => ⟨[asked literal], ⟨s₁.start, s₈.stop⟩⟩) 8 :=
    (run_ok_bind rfl).trans ((run_ok_bind rfl).trans
      (run_bind_outcome ((run_ok_bind rfl).trans (field_read _)) fun _ => rfl))
  have query_read : bareQuery.run (left 0) =
      result (fun literal => ⟨⟨.query, none, none, none, [asked literal]⟩,
        ⟨s₁.start, s₈.stop⟩⟩) 8 :=
    run_bind_outcome set_read fun _ => rfl
  have definition_read : definition.run (left 0) =
      result (fun literal => .operation ⟨⟨.query, none, none, none, [asked literal]⟩,
        ⟨s₁.start, s₈.stop⟩⟩) 8 :=
    (run_ok_bind rfl).trans ((run_ok_bind rfl).trans (run_bind_outcome query_read fun _ => rfl))
  exact run_bind_outcome definition_read fun _ => rfl

end Reader

/-- A request for one field, whose argument is given by a text. -/
def argumentRequest (text : String) : String := "\x7bf(a:" ++ text ++ ")\x7d"

/-- The tokens of the request are known where the text of the argument is one token. -/
theorem argument_request_scanned (spelled : token.WellFormed)
    (stops : token.StopsAt ")\x7d".toList) :
    (TokenStream.ofSource (argumentRequest token.text)).tokens.map (·.node) =
        [.punctuator .braceOpen, .name "f", .punctuator .parenOpen, .name "a", .punctuator .colon,
          token, .punctuator .parenClose, .punctuator .braceClose, .endOfFile] ∧
      (TokenStream.ofSource (argumentRequest token.text)).fault = none := by
  have letters : Name.isValid "f" = true ∧ Name.isValid "a" = true := by decide
  have stops_at (c : Char) (rest : List Char) (outside : isNameContinue c = false ∧ c ≠ '.') :
      NumberStops (c :: rest) := by
    intro found first
    cases first
    exact outside
  have closed := (mark_laid .parenClose _).append (mark_laid .braceClose [])
  have argued := (mark_laid .colon _).append ((single_laid ⟨spelled, stops⟩).append closed)
  have named := (word_laid letters.2 (stops_at ':' _ (by decide))).append argued
  have field := (word_laid letters.1 (stops_at '(' _ (by decide))).append
    ((mark_laid .parenOpen _).append named)
  have laid := (mark_laid .braceOpen _).append field
  have text : (argumentRequest token.text).toList =
      "\x7bf(a:".toList ++ (token.text.toList ++ ")\x7d".toList) := by
    simp [argumentRequest]
  rw [TokenStream.ofSource, text]
  exact stream_laid (laid.mono fun token _ rest fits => fits.1.cut_off fits.2)

/-- The cursor that holds the tokens of the request, and the place of the argument in it. -/
theorem argument_request_cursor (spelled : token.WellFormed)
    (stops : token.StopsAt ")\x7d".toList) (ordinary : ∀ line, token ≠ .description line) :
    ∃ s₁ s₂ s₃ s₄ s₅ span s₇ s₈ s₉,
      span.slice (argumentRequest token.text) = token.text ∧
      Cursor.ofStream (.ofSource (argumentRequest token.text)) =
        .ok (Reader.argumentCursor s₁ s₂ s₃ s₄ s₅ span s₇ s₈ s₉ token) := by
  obtain ⟨nodes, unfailed⟩ := argument_request_scanned spelled stops
  have shown := (stream_exact (argumentRequest token.text)).spelled
  rw [Cursor.ofStream, unfailed]
  generalize (TokenStream.ofSource (argumentRequest token.text)).tokens = tokens at nodes shown ⊢
  simp only [List.map_eq_cons_iff, List.map_eq_nil_iff] at nodes
  obtain ⟨⟨_, s₁⟩, _, rfl, rfl, ⟨_, s₂⟩, _, rfl, rfl, ⟨_, s₃⟩, _, rfl, rfl, ⟨_, s₄⟩, _, rfl, rfl,
    ⟨_, s₅⟩, _, rfl, rfl, argument, _, rfl, rfl, ⟨_, s₇⟩, _, rfl, rfl, ⟨_, s₈⟩, _, rfl, rfl,
    ⟨_, s₉⟩, _, rfl, rfl, rfl⟩ := nodes
  refine ⟨s₁, s₂, s₃, s₄, s₅, argument.span, s₇, s₈, s₉, ?_, congrArg Except.ok ?_⟩
  · have visible : argument.node ≠ .endOfFile := by
      intro same
      rw [same] at spelled
      exact spelled
    exact shown argument (by simp) visible
  · simp only [Cursor.attach]
    rfl

/-- In a request, what the token is read as becomes of the argument. -/
theorem argument_request_read (spelled : token.WellFormed) (stops : token.StopsAt ")\x7d".toList)
    (ordinary : ∀ line, token ≠ .description line) (read : token.ReadAs outcome) :
    Document.Argues (Document.ofSource (argumentRequest token.text))
      (argumentRequest token.text) token.text outcome := by
  obtain ⟨s₁, s₂, s₃, s₄, s₅, span, s₇, s₈, s₉, shown, found⟩ :=
    argument_request_cursor spelled stops ordinary
  have ran := Reader.argument_cursor_run s₁ s₂ s₃ s₄ s₅ span s₇ s₈ s₉ read
  have made : Document.ofSource (argumentRequest token.text) =
      Document.ofCursor (Reader.argumentCursor s₁ s₂ s₃ s₄ s₅ span s₇ s₈ s₉ token) := by
    have stream : Document.ofSource (argumentRequest token.text) =
      Document.ofStream (.ofSource (argumentRequest token.text)) := rfl
    rw [stream, Document.ofStream, found]
  refine ⟨span, shown, ?_⟩
  rw [made, Document.ofCursor]
  change (Reader.definitions 9).run _ = _ at ran
  rw [show (Reader.argumentCursor s₁ s₂ s₃ s₄ s₅ span s₇ s₈ s₉ token).length = 9 from rfl, ran]
  cases outcome with
  | ok literal => exact ⟨_, ⟨"a", s₄⟩, rfl, rfl⟩
  | error error => rfl

/--
The text of a token stands for an outcome: it is this token alone, and reading ends in the outcome
where the token comes next as a literal, and also where it is the argument of a request.
-/
structure Token.StandsFor (token : Token) (outcome : Except ParseError Literal) : Prop where
  single : (TokenStream.ofText token.text.toList).IsSingle token
  read : token.ReadAs outcome
  argued : Document.Argues (Document.ofSource (argumentRequest token.text))
    (argumentRequest token.text) token.text outcome

theorem Token.WellFormed.stands_for (spelled : token.WellFormed)
    (stops : token.StopsAt ")\x7d".toList) (ordinary : ∀ line, token ≠ .description line)
    (read : token.ReadAs outcome) : token.StandsFor outcome where
  single := spelled.single
  read := read
  argued := argument_request_read spelled stops ordinary read

end Requests

end GraphQL
