import GraphQL.Cursor
import GraphQL.Literal
import GraphQL.TypeRef

/-!
Reading value literals and type references off a cursor.

Nesting is bounded by the number of tokens that are left, which no source exceeds, as each level
takes a token. Integers are read with 64 bits and keep the low 32 of them.
-/

namespace GraphQL

/-- The integer that a number token denotes, if its magnitude has 63 bits. -/
def integerLiteral? (raw : List Char) : Option Int :=
  let (negative, digits) :=
    match raw with
    | '-' :: rest => (true, rest)
    | _ => (false, raw)
  let magnitude :=
    match digits with
    | '0' :: 'x' :: hex => readHex? hex
    | '0' :: 'X' :: hex => readHex? hex
    | _ => readDecimal? digits
  match magnitude with
  | none => none
  | some n =>
      if fitsInt64 n then some (if negative then -(n : Int) else n) else none

/-- The character of a code point; surrogates have none and give the replacement character. -/
def charOfCode (code : Nat) : Char :=
  if h : code.isValidChar then Char.ofNatAux code h else '\uFFFD'

/-- Replaces the escapes in the inside of a string token. -/
def unescape : List Char → Except LexError (List Char)
  | [] => .ok []
  | ['\\'] => .error .unterminatedString
  | '\\' :: 'u' :: a :: b :: c :: d :: rest =>
      match readHex? [a, b, c, d] with
      | none => .error (.unknownEscape (String.ofList ['\\', 'u', a, b, c, d]))
      | some code => (unescape rest).map (charOfCode code :: ·)
  | '\\' :: c :: rest =>
      match c with
      | '"' => (unescape rest).map ('"' :: ·)
      | '\\' => (unescape rest).map ('\\' :: ·)
      | '/' => (unescape rest).map ('/' :: ·)
      | 'b' => (unescape rest).map ('\x08' :: ·)
      | 'f' => (unescape rest).map ('\x0c' :: ·)
      | 'n' => (unescape rest).map ('\n' :: ·)
      | 'r' => (unescape rest).map ('\r' :: ·)
      | 't' => (unescape rest).map ('\t' :: ·)
      | 'u' => .error (.unknownEscape (String.ofList ('\\' :: 'u' :: rest)))
      | _ => .error (.unknownEscape (String.ofList ['\\', c]))
  | c :: rest => (unescape rest).map (c :: ·)

/-- The text that a string token denotes. -/
def unquote (raw : List Char) : Except LexError (List Char) :=
  match raw with
  | '"' :: rest =>
      if rest.getLast? = some '"' then unescape rest.dropLast else .error .unterminatedString
  | _ => .error .unterminatedString

namespace Reader

/-- Takes the next token, which has the given meaning. -/
def constant (literal : Literal) : Reader (Located Literal) := do
  let token ← next
  pure (token.map fun _ => literal)

def integer (raw : String) : Reader (Located Literal) := do
  let token ← next
  match integerLiteral? raw.toList with
  | none => fail token.span .integerRange
  | some n => pure (token.map fun _ => .int (Int32.ofInt n))

def floating (raw : String) : Reader (Located Literal) := do
  let token ← next
  match Binary.read? .single raw.toList with
  | none => fail token.span .invalidFloat
  | some x => pure (token.map fun _ => .float x)

def string (raw : String) : Reader (Located Literal) := do
  let token ← next
  match unquote raw.toList with
  | .error error => fail token.span (.lexical error)
  | .ok text => pure (token.map fun _ => .string (String.ofList text))

/-- A dollar sign and a name. -/
def variableLiteral : Reader (Located Literal) := do
  let dollar ← expect (.punctuator .dollar)
  let variableName ← name
  pure (.between dollar.span.start variableName.span.stop (.variable variableName.node))

/-- A field of an object literal, with a reader for its value. -/
def literalField (value : Reader (Located Literal)) :
    Reader (Located String × Located Literal) := do
  let key ← name
  let _ ← expect (.punctuator .colon)
  let content ← value
  pure (key, content)

/-- A literal with at most so many levels of nesting; constant literals hold no variables. -/
def literalWithin (isConstant : Bool) : Nat → Reader (Located Literal)
  | 0 => do
      let found ← peek
      fail found.span .unexpectedEnd
  | depth + 1 => do
      let found ← peek
      match found.node with
      | .punctuator .bracketOpen => do
          let items ← delimited (.punctuator .bracketOpen) (literalWithin isConstant depth)
            (.punctuator .bracketClose)
          pure (items.map .list)
      | .punctuator .braceOpen => do
          let fields ← delimited (.punctuator .braceOpen)
            (literalField (literalWithin isConstant depth)) (.punctuator .braceClose)
          rejectRepeats .inputField (fields.node.map (·.1))
          pure (fields.map .object)
      | .punctuator .dollar =>
          if isConstant then reject fun token => .unexpectedToken token.text
          else variableLiteral
      | .int raw => integer raw
      | .float raw => floating raw
      | .string raw => string raw
      | .bool value => constant (.bool value)
      | .null => constant .null
      | .name text => constant (.enum text)
      | .keyword word => constant (.enum word.text)
      | .endOfFile => fail found.span .unexpectedEnd
      | _ => reject fun token => .unexpectedToken token.text

def literal (isConstant : Bool) : Reader (Located Literal) := do
  literalWithin isConstant (← get).length

/-- An optional exclamation mark behind a type. -/
def nonNullMark (type : Located TypeRef) : Reader (Located TypeRef) := do
  if ← sees (.punctuator .bang) then
    let mark ← next
    pure (.between type.span.start mark.span.stop (.nonNull type.node))
  else pure type

/-- A type reference with at most so many levels of lists. -/
def typeWithin : Nat → Reader (Located TypeRef)
  | 0 => do
      let found ← peek
      fail found.span .unexpectedEnd
  | depth + 1 => do
      match ← skip? (.punctuator .bracketOpen) with
      | some opening => do
          let element ← typeWithin depth
          let closing ← expect (.punctuator .bracketClose)
          nonNullMark (.between opening.span.start closing.span.stop (.list element.node))
      | none => do
          let typeName ← name
          nonNullMark (typeName.map .named)

def typeRef : Reader (Located TypeRef) := do
  typeWithin (← get).length

end Reader

end GraphQL
