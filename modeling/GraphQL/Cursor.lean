import GraphQL.ParseError
import GraphQL.Text.Blank
import GraphQL.Token.Stream

/-!
A cursor over the tokens of a source, and the readers that move it.

Descriptions are no tokens of the cursor; each waits at the token behind it until it is taken. The
end token is looked at but never handed out, so the cursor of a source never runs dry. A reader that
fails leaves the cursor where it failed: behind the offending token, or before the end token.
-/

namespace GraphQL

/-- A token, with the description that was written right in front of it. -/
structure Entry where
  token : Located Token
  description : Option String

abbrev Cursor := List Entry

namespace Cursor

def joinLines (lines : List String) : Option String :=
  if lines.isEmpty then none else some (String.intercalate " " lines)

/-- Moves descriptions to the tokens behind them; the given lines are still waiting for theirs. -/
def attach (waiting : List String) : List (Located Token) → Cursor
  | [] => []
  | token :: rest =>
      match token.node with
      | .description line => attach (waiting ++ [String.ofList (trimBlanks line.toList)]) rest
      | _ => ⟨token, joinLines waiting⟩ :: attach [] rest

/-- The cursor of a stream, unless a fault ended the stream. -/
def ofStream (stream : TokenStream) : Except (Located ParseError) Cursor :=
  match stream.fault with
  | some fault => .error (fault.map .lexical)
  | none => .ok (attach [] stream.tokens)

end Cursor

/-- Reads something off a cursor, or fails at a place. -/
abbrev Reader (α : Type) := EStateM (Located ParseError) Cursor α

namespace Reader

variable {α : Type}

def fail (span : Span) (error : ParseError) : Reader α :=
  throw ⟨error, span⟩

/-- The next token, which stays. Where there is none at all, an end token at no place stands in. -/
def peek : Reader (Located Token) := do
  match ← get with
  | [] => pure (.unplaced .endOfFile)
  | entry :: _ => pure entry.token

/-- Takes the description in front of the next token, if there is one. -/
def takeDescription : Reader (Option String) := do
  match ← get with
  | [] => pure none
  | entry :: rest =>
      set (⟨entry.token, none⟩ :: rest)
      pure entry.description

/-- Takes the next token, unless it is the last one. -/
def next : Reader (Located Token) := do
  match ← get with
  | [] => fail .unplaced .unexpectedEnd
  | [last] => fail last.token.span .unexpectedEnd
  | entry :: rest =>
      set rest
      pure entry.token

/-- Takes the next token and complains about it. -/
def reject (error : Token → ParseError) : Reader α := do
  let found ← next
  fail found.span (error found.node)

/-- Takes the next token, which must be the given one. -/
def expect (token : Token) : Reader (Located Token) := do
  if (← peek).node = token then next
  else reject fun found => .expectedToken [token.text] found.text

/-- Takes the next token if it is the given one; at the end of the source this fails. -/
def skip? (token : Token) : Reader (Option (Located Token)) := do
  let found ← peek
  if found.node = token then
    let taken ← next
    pure (some taken)
  else if found.node = .endOfFile then fail (.point found.span.start) .unexpectedEnd
  else pure none

def sees (token : Token) : Reader Bool := do
  pure (decide ((← peek).node = token))

/-- Takes a name; keywords and the words `true`, `false` and `null` are names here. -/
def name : Reader (Located String) := do
  let found ← peek
  if found.node = .endOfFile then fail found.span .unexpectedEnd
  else
    match found.node.asName? with
    | some text => do
        let taken ← next
        pure (taken.map fun _ => text)
    | none => reject fun token => .expectedToken ["Name"] token.text

/--
Reads items up to a closing token, and tells where that token ends. The count bounds the items; as
an item takes at least one token, the number of tokens is always enough.
-/
def itemsUntil (closing : Token) (item : Reader α) : Nat → Reader (List α × Position)
  | 0 => do
      let found ← peek
      fail found.span .unexpectedEnd
  | count + 1 => do
      match ← skip? closing with
      | some token => pure ([], token.span.stop)
      | none => do
          let first ← item
          let (rest, stop) ← itemsUntil closing item count
          pure (first :: rest, stop)

/-- A list between two tokens, possibly empty. -/
def delimited (opening : Token) (item : Reader α) (closing : Token) :
    Reader (Located (List α)) := do
  let start ← expect opening
  let (items, stop) ← itemsUntil closing item (← get).length
  pure (.between start.span.start stop items)

/-- A list between two tokens that holds at least one item. -/
def delimitedNonempty (opening : Token) (item : Reader α) (closing : Token) :
    Reader (Located (List α)) := do
  let start ← expect opening
  let first ← item
  let (rest, stop) ← itemsUntil closing item (← get).length
  pure (.between start.span.start stop (first :: rest))

/-- The first name in a list that occurred before, given the names seen so far. -/
def firstRepeat? (seen : List String) : List (Located String) → Option (Located String)
  | [] => none
  | name :: rest =>
      if name.node ∈ seen then some name else firstRepeat? (name.node :: seen) rest

/-- Fails at the first name that occurs for the second time. -/
def rejectRepeats (kind : NameKind) (names : List (Located String)) : Reader Unit :=
  match firstRepeat? [] names with
  | none => pure ()
  | some name => fail name.span (.duplicate kind name.node)

end Reader

end GraphQL
