import GraphQL.Number.Whole
import GraphQL.Text.Position
import GraphQL.Token

/-!
Cutting a source text into tokens.

Scanning works on the characters that are left. One token is scanned at a time: the scan yields the
token and what follows it, or a fault together with the text between the token's start and the place
of the fault. Positions are then a matter of moving over the scanned text, and a token moves them by
its own text. The stream ends with the end token or with the first fault.
-/

namespace GraphQL

/-- An error, reported behind some text that was already read. -/
structure Fault where
  error : LexError
  skipped : List Char

namespace Fault

/-- Moves the place of a fault behind more text. -/
def after (before : List Char) (fault : Fault) : Fault where
  error := fault.error
  skipped := before ++ fault.skipped

end Fault

abbrev Scan (α : Type) := Except Fault (α × List Char)

def isLineEnd (c : Char) : Bool := c == '\n' || c == '\r'

/-- Characters between tokens that mean nothing. -/
def isIgnored (c : Char) : Bool :=
  c == '\t' || c == ' ' || isLineEnd c || c == ',' || c == '\uFEFF'

/-- Characters that a string may hold as they are. -/
def isSourceChar (c : Char) : Bool :=
  c == '\t' || isLineEnd c || decide (' ' ≤ c)

/-- Splits off what stands before the next token; the flag tells that the text is in a comment. -/
def splitIgnored (inComment : Bool) : List Char → List Char × List Char
  | [] => ([], [])
  | c :: rest =>
      if inComment then
        let (ignored, left) := splitIgnored (!isLineEnd c) rest
        (c :: ignored, left)
      else if isIgnored c then
        let (ignored, left) := splitIgnored false rest
        (c :: ignored, left)
      else if c = '#' ∧ rest.head? ≠ some '#' then
        let (ignored, left) := splitIgnored true rest
        (c :: ignored, left)
      else ([], c :: rest)

/-- The rest of a description, behind its first number sign. -/
def scanDescription (rest : List Char) : Token × List Char :=
  let line := rest.drop 1
  (.description (String.ofList (line.takeWhile fun c => !isLineEnd c)),
    line.dropWhile fun c => !isLineEnd c)

/-- The rest of a spread, behind its first dot. -/
def scanSpread : List Char → Scan Token
  | [] => .error ⟨.unexpectedEnd, ['.']⟩
  | ['.'] => .error ⟨.unexpectedEnd, ['.', '.']⟩
  | '.' :: '.' :: rest => .ok (.punctuator .spread, rest)
  | _ => .error ⟨.unexpectedCharacter '.', []⟩

def scanWord (text : List Char) : Token × List Char :=
  (.ofWord (String.ofList (text.takeWhile isNameContinue)), text.dropWhile isNameContinue)

def isShortEscape (c : Char) : Bool :=
  c == 'b' || c == 'f' || c == 'n' || c == 'r' || c == 't' || c == '\\' || c == '/' || c == '"'

/-- Puts characters in front of what was scanned. -/
def prependScan (front : List Char) : Scan (List Char) → Scan (List Char)
  | .ok (text, rest) => .ok (front ++ text, rest)
  | .error fault => .error (fault.after front)

/-- The inside of a string, up to and without the closing quote. -/
def scanString : List Char → Scan (List Char)
  | [] => .error ⟨.unterminatedString, []⟩
  | '"' :: rest => .ok ([], rest)
  | ['\\'] => .error ⟨.unterminatedString, ['\\']⟩
  | '\\' :: c :: rest =>
      if c = 'u' then
        let digits := (rest.take 4).takeWhile isHexDigit
        if digits.length = 4 then prependScan ['\\', 'u'] (scanString rest)
        else if digits.length = rest.length then
          .error ⟨.unterminatedString, '\\' :: 'u' :: digits⟩
        else .error ⟨.unknownEscape (String.ofList ('\\' :: 'u' :: digits)), ['\\']⟩
      else if isShortEscape c then prependScan ['\\', c] (scanString rest)
      else if isLineEnd c then .error ⟨.unterminatedString, ['\\']⟩
      else .error ⟨.unknownEscape (String.ofList ['\\', c]), ['\\']⟩
  | c :: rest =>
      if isLineEnd c then .error ⟨.unterminatedString, []⟩
      else if isSourceChar c then prependScan [c] (scanString rest)
      else .error ⟨.unknownCharacterInString c, []⟩

/-- At least one character of a class, behind some text. -/
def scanRun (inClass : Char → Bool) (before text : List Char) : Scan (List Char) :=
  match text with
  | [] => .error ⟨.unexpectedEnd, before⟩
  | c :: _ =>
      if inClass c then .ok (before ++ text.takeWhile inClass, text.dropWhile inClass)
      else .error ⟨.unexpectedCharacter c, before⟩

/-- A number must not run into a name. -/
def endNumber (make : String → Token) (digits rest : List Char) : Scan Token :=
  match rest with
  | c :: _ =>
      if isNameStart c then .error ⟨.badNumber, digits⟩
      else .ok (make (String.ofList digits), rest)
  | [] => .ok (make (String.ofList digits), [])

/-- An optional exponent, behind the digits of a number. -/
def scanExponent (make : String → Token) (before text : List Char) : Scan Token :=
  match text with
  | mark :: rest =>
      if mark = 'e' ∨ mark = 'E' then
        let (sign, digits) :=
          match rest with
          | '+' :: tail => (['+'], tail)
          | '-' :: tail => (['-'], tail)
          | _ => ([], rest)
        match scanRun Char.isDigit (before ++ mark :: sign) digits with
        | .error fault => .error fault
        | .ok (number, left) => endNumber .float number left
      else endNumber make before text
  | [] => endNumber make before text

/-- An optional fraction and exponent, behind the whole part of a number. -/
def scanFraction (before text : List Char) : Scan Token :=
  match text with
  | '.' :: rest =>
      match scanRun Char.isDigit (before ++ ['.']) rest with
      | .error fault => .error fault
      | .ok (number, left) => scanExponent .float number left
  | _ => scanExponent .int before text

/-- A number, behind its optional minus. -/
def scanUnsigned (sign : List Char) : List Char → Scan Token
  | [] => .error ⟨.unexpectedEnd, sign⟩
  | '0' :: mark :: rest =>
      if mark = 'x' ∨ mark = 'X' then
        match scanRun isHexDigit (sign ++ ['0', mark]) rest with
        | .error fault => .error fault
        | .ok (number, left) => endNumber .int number left
      else if mark.isDigit then .error ⟨.leadingZero, sign ++ ['0']⟩
      else scanFraction (sign ++ ['0']) (mark :: rest)
  | c :: rest =>
      if c.isDigit then
        scanFraction (sign ++ c :: rest.takeWhile Char.isDigit) (rest.dropWhile Char.isDigit)
      else .error ⟨.unexpectedCharacter c, []⟩

def scanNumber : List Char → Scan Token
  | '-' :: rest => scanUnsigned ['-'] rest
  | text => scanUnsigned [] text

/-- The token that begins with a character. -/
def scanToken (c : Char) (rest : List Char) : Scan Token :=
  match Punctuator.ofChar? c with
  | some mark => .ok (.punctuator mark, rest)
  | none =>
      if c = '#' then .ok (scanDescription rest)
      else if c = '.' then scanSpread rest
      else if c = '"' then
        match scanString rest with
        | .error fault => .error (fault.after ['"'])
        | .ok (inside, left) => .ok (.string (String.ofList ('"' :: inside ++ ['"'])), left)
      else if c = '-' ∨ c.isDigit then scanNumber (c :: rest)
      else if isNameStart c then .ok (scanWord (c :: rest))
      else .error ⟨.unknownCharacter c, []⟩

/-- The tokens of a text, and the fault that ended them early if there is one. -/
structure TokenStream where
  tokens : List (Located Token)
  fault : Option (Located LexError)

namespace TokenStream

/--
Scans token after token from a position. The count bounds the tokens; as every token but the last
takes a character, one more than there are characters is always enough.
-/
def scanFrom : Nat → Position → List Char → TokenStream
  | 0, _, _ => ⟨[], none⟩
  | count + 1, position, text =>
      let (ignored, rest) := splitIgnored false text
      let start := position.past ignored
      match rest with
      | [] => ⟨[⟨.endOfFile, .point start⟩], none⟩
      | c :: tail =>
          match scanToken c tail with
          | .error fault => ⟨[], some ⟨fault.error, .point (start.past fault.skipped)⟩⟩
          | .ok (token, left) =>
              let stop := start.past token.text.toList
              let later := scanFrom count stop left
              ⟨⟨token, ⟨start, stop⟩⟩ :: later.tokens, later.fault⟩

def ofText (text : List Char) : TokenStream := scanFrom (text.length + 1) .origin text

def ofSource (source : String) : TokenStream := ofText source.toList

/-- Leaves out the first items, a fault counting as one; tells also how many there were. -/
def drop (stream : TokenStream) (count : Nat) : Nat × TokenStream :=
  let available := stream.tokens.length
  if count ≤ available then (count, ⟨stream.tokens.drop count, stream.fault⟩)
  else
    match stream.fault with
    | none => (available, ⟨[], none⟩)
    | some _ => (available + 1, ⟨[], none⟩)

end TokenStream

end GraphQL
