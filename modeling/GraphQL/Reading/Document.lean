import GraphQL.Document
import GraphQL.Reading.TypeDefinition

/-!
Reading whole documents.

A source holds at least one definition. Once all are read, names that were defined before in the
same name space are refused.
-/

namespace GraphQL

namespace Reader

/-- Wraps the definition of a type. -/
def asType {α : Type} (wrap : α → TypeDefinition) (reader : Reader (Located α)) :
    Reader Definition := do
  let definition ← reader
  pure (.type (definition.map wrap))

/-- The texts of the tokens that may begin a definition. -/
def definitionStarts : List String :=
  ["\x7b", "query", "mutation", "fragment", "type", "interface", "union", "scalar", "enum",
    "input", "extend"]

def definition : Reader Definition := do
  let description ← takeDescription
  let found ← peek
  match found.node with
  | .punctuator .braceOpen => do
      let operation ← bareQuery
      pure (.operation operation)
  | .keyword .query => do
      let operation ← keywordOperation .query
      pure (.operation operation)
  | .keyword .mutation => do
      let operation ← keywordOperation .mutation
      pure (.operation operation)
  | .keyword .fragment => do
      let parts ← fragment
      pure (.fragment parts)
  | .keyword .type => asType .object (objectType description)
  | .keyword .interface => asType .interface (interfaceType description)
  | .keyword .union => asType .union (unionType description)
  | .keyword .scalar => asType .scalar (scalarType description)
  | .keyword .enum => asType .enum (enumType description)
  | .keyword .input => asType .inputObject (inputObjectType description)
  | .keyword .extend => do
      let object ← typeExtension description
      pure (.extension object)
  | .endOfFile => fail found.span .unexpectedEnd
  | _ => reject fun token => .expectedToken definitionStarts token.text

/-- Definitions up to the end of the source, at least one and at most so many. -/
def definitions : Nat → Reader (List Definition)
  | 0 => do
      let found ← peek
      fail found.span .unexpectedEnd
  | count + 1 => do
      let first ← definition
      if ← sees .endOfFile then pure [first]
      else
        let rest ← definitions count
        pure (first :: rest)

end Reader

namespace Definition

/-- The kind and name under which a definition is looked up. -/
def declared? : Definition → Option (NameKind × Located String)
  | .operation located =>
      match located.node.name with
      | some name => some (.operation, name)
      | none => none
  | .fragment located => some (.fragment, located.node.name)
  | .type located => some (.type, located.node.locatedName)
  | .extension _ => none

end Definition

namespace Document

/-- The first declared name that was declared before, given those seen so far. -/
def firstRedeclared? (seen : List (NameKind × String)) :
    List (NameKind × Located String) → Option (NameKind × Located String)
  | [] => none
  | (kind, name) :: rest =>
      if (kind, name.node) ∈ seen then some (kind, name)
      else firstRedeclared? ((kind, name.node) :: seen) rest

/-- The document of some definitions, unless a name repeats. -/
def ofDefinitions (definitions : List Definition) (span : Span) :
    Except (Located ParseError) Document :=
  match firstRedeclared? [] (definitions.filterMap Definition.declared?) with
  | some (kind, name) => .error ⟨.duplicate kind name.node, name.span⟩
  | none => .ok ⟨definitions, span⟩

/-- The document that the tokens ahead make up. -/
def ofCursor (cursor : Cursor) : Except (Located ParseError) Document :=
  let start := (cursor.head?.map fun entry => entry.token.span.start).getD .origin
  match (Reader.definitions cursor.length).run cursor with
  | .error error _ => .error error
  | .ok definitions rest =>
      let stop := (rest.head?.map fun entry => entry.token.span.stop).getD .origin
      ofDefinitions definitions ⟨start, stop⟩

/-- The document that a stream of tokens makes up, unless a fault ended the stream. -/
def ofStream (stream : TokenStream) : Except (Located ParseError) Document :=
  match Cursor.ofStream stream with
  | .error error => .error error
  | .ok cursor => ofCursor cursor

/-- Reads a text of the query language, the schema language or both. -/
def ofText (text : List Char) : Except (Located ParseError) Document :=
  ofStream (.ofText text)

def ofSource (source : String) : Except (Located ParseError) Document := ofText source.toList

end Document

end GraphQL
