import GraphQL.Name

/-!
Tokens of the query and schema languages.

Scalars keep the text they were written with, strings with their quotes and escapes. The text of a
token is what stands in the source, so a token's width is the width of its text; the end token alone
has a text that is written nowhere.
-/

namespace GraphQL

/-- Words with a meaning of their own; each may still stand where a name is expected. -/
inductive Keyword where
  | query
  | mutation
  | fragment
  | type
  | interface
  | union
  | scalar
  | enum
  | input
  | extend
  | implements
  | on
  deriving DecidableEq, Repr

namespace Keyword

def text : Keyword → String
  | .query => "query"
  | .mutation => "mutation"
  | .fragment => "fragment"
  | .type => "type"
  | .interface => "interface"
  | .union => "union"
  | .scalar => "scalar"
  | .enum => "enum"
  | .input => "input"
  | .extend => "extend"
  | .implements => "implements"
  | .on => "on"

def all : List Keyword :=
  [.query, .mutation, .fragment, .type, .interface, .union, .scalar, .enum, .input, .extend,
    .implements, .on]

def ofText? (text : String) : Option Keyword :=
  all.find? fun keyword => keyword.text == text

end Keyword

inductive Punctuator where
  | bang
  | dollar
  | parenOpen
  | parenClose
  | bracketOpen
  | bracketClose
  | braceOpen
  | braceClose
  | spread
  | colon
  | equals
  | at
  | pipe
  deriving DecidableEq, Repr

namespace Punctuator

def text : Punctuator → String
  | .bang => "!"
  | .dollar => "$"
  | .parenOpen => "("
  | .parenClose => ")"
  | .bracketOpen => "["
  | .bracketClose => "]"
  | .braceOpen => "\x7b"
  | .braceClose => "\x7d"
  | .spread => "..."
  | .colon => ":"
  | .equals => "="
  | .at => "@"
  | .pipe => "|"

def ofChar? : Char → Option Punctuator
  | '!' => some .bang
  | '$' => some .dollar
  | '(' => some .parenOpen
  | ')' => some .parenClose
  | '[' => some .bracketOpen
  | ']' => some .bracketClose
  | '\x7b' => some .braceOpen
  | '\x7d' => some .braceClose
  | ':' => some .colon
  | '=' => some .equals
  | '@' => some .at
  | '|' => some .pipe
  | _ => none

end Punctuator

inductive Token where
  | name (text : String)
  | keyword (word : Keyword)
  | string (raw : String)
  | float (raw : String)
  | int (raw : String)
  | bool (value : Bool)
  | null
  /-- A comment line that begins with two number signs, without them. -/
  | description (text : String)
  | punctuator (mark : Punctuator)
  | endOfFile
  deriving DecidableEq, Repr

namespace Token

def text : Token → String
  | .name text => text
  | .keyword word => word.text
  | .string raw => raw
  | .float raw => raw
  | .int raw => raw
  | .bool true => "true"
  | .bool false => "false"
  | .null => "null"
  | .description text => "##" ++ text
  | .punctuator mark => mark.text
  | .endOfFile => "End of file"

/-- The text of a token that may stand where a name is expected. -/
def asName? : Token → Option String
  | .name text => some text
  | .keyword word => some word.text
  | .bool true => some "true"
  | .bool false => some "false"
  | .null => some "null"
  | _ => none

/-- The token that a name-like text is read as. -/
def ofWord (text : String) : Token :=
  if text = "true" then .bool true
  else if text = "false" then .bool false
  else if text = "null" then .null
  else
    match Keyword.ofText? text with
    | some word => .keyword word
    | none => .name text

end Token

/-- Why a text cannot be cut into tokens. -/
inductive LexError where
  | unknownCharacter (c : Char)
  | unexpectedCharacter (c : Char)
  | unterminatedString
  | unknownCharacterInString (c : Char)
  | unknownEscape (escape : String)
  | unexpectedEnd
  | leadingZero
  | badNumber
  deriving DecidableEq, Repr

def LexError.message : LexError → String
  | .unknownCharacter c => "Unknown character \"" ++ c.toString ++ "\""
  | .unexpectedCharacter c => "Unexpected character \"" ++ c.toString ++ "\""
  | .unterminatedString => "Unterminated string literal"
  | .unknownCharacterInString c => "Unknown character \"" ++ c.toString ++ "\" in string literal"
  | .unknownEscape escape => "Unknown escape sequence \"" ++ escape ++ "\" in string"
  | .unexpectedEnd => "Unexpected end of input"
  | .leadingZero => "Invalid number, unexpected digit after 0"
  | .badNumber => "Bad number syntax"

end GraphQL
