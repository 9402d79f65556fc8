/-!
Names: a letter or underscore, then letters, digits and underscores, all ASCII.

Names that begin with two underscores belong to introspection.
-/

namespace GraphQL

def isNameStart (c : Char) : Bool :=
  c == '_' || c.isAlpha

def isNameContinue (c : Char) : Bool :=
  isNameStart c || c.isDigit

namespace Name

def isValid (text : String) : Bool :=
  match text.toList with
  | [] => false
  | c :: rest => isNameStart c && rest.all isNameContinue

def isReserved (name : String) : Bool :=
  match name.toList with
  | '_' :: '_' :: _ => true
  | _ => false

/-- What is said of a text that is no name. -/
def invalidMessage (text : String) : String :=
  "Names must match /^[_a-zA-Z][_a-zA-Z0-9]*$/ but \"" ++ text ++ "\" does not"

end Name

/-- Adds a name to an ascending list, unless it is there. -/
def insertName (name : String) : List String → List String
  | [] => [name]
  | first :: rest =>
      if name = first then first :: rest
      else if name < first then name :: first :: rest
      else first :: insertName name rest

/-- The distinct names in ascending order of their code points. -/
def sortNames (names : List String) : List String :=
  names.foldl (fun sorted name => insertName name sorted) []

end GraphQL
