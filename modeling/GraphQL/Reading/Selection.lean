import GraphQL.Reading.Literal
import GraphQL.Selection

/-!
Reading the query language: arguments, directives, selection sets, operations and fragments.

Names that repeat in a list are found once the whole list is read, and reported where they repeat.
-/

namespace GraphQL.Reader

def argument : Reader Argument := do
  let argumentName ← name
  let _ ← expect (.punctuator .colon)
  let value ← literal false
  pure ⟨argumentName, value⟩

def arguments : Reader (Option (Located (List Argument))) := do
  if ← sees (.punctuator .parenOpen) then
    let list ← delimitedNonempty (.punctuator .parenOpen) argument (.punctuator .parenClose)
    rejectRepeats .argument (list.node.map (·.name))
    pure (some list)
  else pure none

def directive : Reader (Located Directive) := do
  let mark ← expect (.punctuator .at)
  let directiveName ← name
  let list ← arguments
  let stop :=
    match list with
    | some located => located.span.stop
    | none => directiveName.span.stop
  pure (.between mark.span.start stop ⟨directiveName, list⟩)

/-- Directives as long as there are any, at most so many. -/
def directiveRun : Nat → Reader (List (Located Directive))
  | 0 => pure []
  | count + 1 => do
      if ← sees (.punctuator .at) then
        let first ← directive
        let rest ← directiveRun count
        pure (first :: rest)
      else pure []

def directives : Reader Directives := do
  let run ← directiveRun (← get).length
  pure (if run.isEmpty then none else some run)

/-- Where directives end, or another place if there are none. -/
def directivesStop (list : Directives) (otherwise : Position) : Position :=
  match list.bind List.getLast? with
  | some last => last.span.stop
  | none => otherwise

/-- The parts of a field behind its name, with a reader for selection sets. -/
def fieldParts (selectionSet : Reader (Located (List Selection))) (start : Position)
    (aliasName : Option (Located String)) (fieldName : Located String) : Reader Selection := do
  let list ← arguments
  let marks ← directives
  let argumentsStop :=
    match list with
    | some located => located.span.stop
    | none => fieldName.span.stop
  if ← sees (.punctuator .braceOpen) then
    let set ← selectionSet
    pure (.field (.between start set.span.stop ⟨aliasName, fieldName, list, marks, some set.node⟩))
  else
    pure (.field (.between start (directivesStop marks argumentsStop)
      ⟨aliasName, fieldName, list, marks, none⟩))

/-- A field, with a reader for selection sets. -/
def field (selectionSet : Reader (Located (List Selection))) : Reader Selection := do
  let first ← name
  match ← skip? (.punctuator .colon) with
  | some _ => do
      let fieldName ← name
      fieldParts selectionSet first.span.start (some first) fieldName
  | none => fieldParts selectionSet first.span.start none first

/-- The directives and selections of an inline fragment. -/
def inlineParts (selectionSet : Reader (Located (List Selection))) (start : Position)
    (typeCondition : Option (Located String)) : Reader Selection := do
  let marks ← directives
  let set ← selectionSet
  pure (.inline (.between start set.span.stop ⟨typeCondition, marks, set.node⟩))

/-- What follows the three dots, with a reader for selection sets. -/
def spread (selectionSet : Reader (Located (List Selection))) : Reader Selection := do
  let dots ← expect (.punctuator .spread)
  let found ← peek
  match found.node with
  | .keyword .on => do
      let _ ← next
      let typeCondition ← name
      inlineParts selectionSet dots.span.start (some typeCondition)
  | .punctuator .braceOpen => inlineParts selectionSet dots.span.start none
  | .punctuator .at => inlineParts selectionSet dots.span.start none
  | .endOfFile => fail found.span .unexpectedEnd
  | token =>
      match token.asName? with
      | some _ => do
          let fragmentName ← name
          let marks ← directives
          pure (.spread (.between dots.span.start (directivesStop marks fragmentName.span.stop)
            ⟨fragmentName, marks⟩))
      | none => reject fun other => .expectedToken ["Name", "on", "\x7b", "@"] other.text

/-- A selection set with at most so many levels of nesting. -/
def selectionSetWithin : Nat → Reader (Located (List Selection))
  | 0 => do
      let found ← peek
      fail found.span .unexpectedEnd
  | depth + 1 =>
      delimitedNonempty (.punctuator .braceOpen)
        (do
          if ← sees (.punctuator .spread) then spread (selectionSetWithin depth)
          else field (selectionSetWithin depth))
        (.punctuator .braceClose)

def selectionSet : Reader (Located (List Selection)) := do
  selectionSetWithin (← get).length

/-- The default value behind an equals sign. -/
def defaultValue : Reader (Option (Located Literal)) := do
  match ← skip? (.punctuator .equals) with
  | some _ => do
      let value ← literal true
      pure (some value)
  | none => pure none

def variableDefinition : Reader VariableDefinition := do
  let dollar ← expect (.punctuator .dollar)
  let variableName ← name
  let _ ← expect (.punctuator .colon)
  let type ← typeRef
  let value ← defaultValue
  pure ⟨.between dollar.span.start variableName.span.stop variableName.node, type, value⟩

def variableDefinitions : Reader (Option (Located (List VariableDefinition))) := do
  if ← sees (.punctuator .parenOpen) then
    let list ← delimitedNonempty (.punctuator .parenOpen) variableDefinition
      (.punctuator .parenClose)
    rejectRepeats .variable (list.node.map (·.name))
    pure (some list)
  else pure none

/-- The name of an operation, if the next token can be one. -/
def operationName : Reader (Option (Located String)) := do
  match (← peek).node.asName? with
  | some _ => do
      let operation ← name
      pure (some operation)
  | none => pure none

/-- A selection set alone, which is a query without a name. -/
def bareQuery : Reader (Located Operation) := do
  let set ← selectionSet
  pure (set.map fun selections => ⟨.query, none, none, none, selections⟩)

/-- An operation that begins with its kind, the keyword being next. -/
def keywordOperation (kind : OperationKind) : Reader (Located Operation) := do
  let keyword ← next
  let operation ← operationName
  let definitions ← variableDefinitions
  let marks ← directives
  let set ← selectionSet
  pure (.between keyword.span.start set.span.stop ⟨kind, operation, definitions, marks, set.node⟩)

def fragment : Reader (Located Fragment) := do
  let keyword ← expect (.keyword .fragment)
  let fragmentName ← name
  if fragmentName.node = "on" then fail fragmentName.span .fragmentNamedOn
  else
    let _ ← expect (.keyword .on)
    let typeCondition ← name
    let marks ← directives
    let set ← selectionSet
    pure (.between keyword.span.start set.span.stop
      ⟨fragmentName, typeCondition, marks, set.node⟩)

end GraphQL.Reader
