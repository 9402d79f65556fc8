import GraphQL.Schema.Build

/-!
Texts whose characters are spelled out.

The characters of a string are found by way of its bytes, which takes longer for each of them the
longer the string is. What is evaluated on a text is therefore evaluated on characters that were read
off the literals of the text by unification. For the texts of introspection this is done here, line
by line; one of them stands behind every source of a schema.
-/

namespace GraphQL

theorem append_spelled {front back : String} {text more : List Char} (first : front.toList = text)
    (rest : back.toList = more) : (front ++ back).toList = text ++ more := by
  rw [String.toList_append, first, rest]

theorem lines_spelled {line : String} {text : List Char} {lines : List String}
    {texts : List (List Char)} (first : line.toList = text)
    (rest : lines.map String.toList = texts) :
    (line :: lines).map String.toList = text :: texts := by
  rw [List.map_cons, first, rest]

namespace Introspection

/-- The characters of the lines of the types. -/
def spelledTypeLines : { texts : List (List Char) // typeLines.map String.toList = texts } := by
  apply Subtype.mk
  simp only [typeLines]
  repeat apply lines_spelled String.toList_ofList
  exact List.map_nil

/-- The characters of the lines of the request. -/
def spelledRequestLines :
    { texts : List (List Char) // requestLines.map String.toList = texts } := by
  apply Subtype.mk
  simp only [requestLines]
  repeat apply lines_spelled String.toList_ofList
  exact List.map_nil

theorem types_text_spelled : typesText = List.intercalate ['\n'] spelledTypeLines.1 :=
  congrArg (List.intercalate ['\n']) spelledTypeLines.2

theorem request_lines_spelled :
    joinedLines requestLines = List.intercalate ['\n'] spelledRequestLines.1 :=
  congrArg (List.intercalate ['\n']) spelledRequestLines.2

end Introspection

namespace Schema

/-- A text that is spelled out, with the introspection types behind it. -/
def spelledText (text : List Char) : List Char :=
  text ++ '\n' :: List.intercalate ['\n'] Introspection.spelledTypeLines.1

theorem full_text_spelled (text : List Char) : fullText text = spelledText text :=
  congrArg (text ++ '\n' :: ·) Introspection.types_text_spelled

/-- The schema of a text that is spelled out. -/
def ofSpelled (text : List Char) (queryName : String) (mutationName : Option String) :
    Except SchemaError Schema :=
  match Document.ofText (spelledText text) with
  | .error error => .error (.parse error.node error.span)
  | .ok document => ofDocument document queryName mutationName

theorem of_source_spelled (source : String) {queryName : String} {mutationName : Option String}
    {text : List Char} (spelled : source.toList = text) :
    ofSource source queryName mutationName = ofSpelled text queryName mutationName := by
  rw [ofSource, spelled, ofText, full_text_spelled]
  rfl

end Schema

end GraphQL
