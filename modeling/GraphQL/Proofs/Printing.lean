import GraphQL.Document
import GraphQL.Proofs.Scanning

/-!
Definitions as they are written, piece by piece.

A definition is written as a row of tokens, with descriptions in front of some of them. Two things
may be left out or not: the keyword in front of an unnamed query that is nothing but a selection set,
and the bar in front of the first member of a union. What can be written at all is said beside: names
are valid, lists that are written are not empty, names in a list are distinct.
-/

namespace GraphQL

abbrev Punctuator.piece (mark : Punctuator) : Piece := (Token.punctuator mark).plain

abbrev Keyword.piece (word : Keyword) : Piece := (Token.keyword word).plain

/-- The piece of a name, which may be a keyword. -/
abbrev namePiece (name : String) : Piece := (Token.ofWord name).plain

/-- Pieces between two marks. -/
def enclosed (opening closing : Punctuator) (inside : List Piece) : List Piece :=
  opening.piece :: (inside ++ [closing.piece])

mutual

def Literal.pieces : Literal → List Piece
  | .null => [Token.null.plain]
  | .int value => [(Token.int (toString value.toInt)).plain]
  | .float value => [(Token.float (DecimalStyle.plain.write value)).plain]
  | .string text => [(Token.string (Literal.printString text)).plain]
  | .bool value => [(Token.bool value).plain]
  | .enum name => [namePiece name]
  | .variable name => [Punctuator.dollar.piece, namePiece name]
  | .list items => enclosed .bracketOpen .bracketClose (itemPieces items)
  | .object fields => enclosed .braceOpen .braceClose (literalFieldPieces fields)

def itemPieces : List (Located Literal) → List Piece
  | [] => []
  | ⟨item, _⟩ :: rest => item.pieces ++ itemPieces rest

def literalFieldPieces : List (Located String × Located Literal) → List Piece
  | [] => []
  | (name, ⟨value, _⟩) :: rest =>
      namePiece name.node :: Punctuator.colon.piece :: value.pieces ++ literalFieldPieces rest

end

def TypeRef.pieces : TypeRef → List Piece
  | .named name => [namePiece name]
  | .list element => enclosed .bracketOpen .bracketClose element.pieces
  | .nonNull inner => inner.pieces ++ [Punctuator.bang.piece]

def Argument.pieces (argument : Argument) : List Piece :=
  namePiece argument.name.node :: Punctuator.colon.piece :: argument.value.node.pieces

def argumentPieces (arguments : Option (Located (List Argument))) : List Piece :=
  match arguments with
  | none => []
  | some list => enclosed .parenOpen .parenClose (list.node.flatMap Argument.pieces)

def Directive.pieces (directive : Directive) : List Piece :=
  Punctuator.at.piece :: namePiece directive.name.node :: argumentPieces directive.arguments

def Directives.pieces (directives : Directives) : List Piece :=
  (directives.getD []).flatMap fun directive => directive.node.pieces

/-- An alias with its colon. -/
def aliasPieces (aliasName : Option (Located String)) : List Piece :=
  match aliasName with
  | none => []
  | some name => [namePiece name.node, Punctuator.colon.piece]

/-- A type condition with its keyword. -/
def conditionPieces (condition : Option (Located String)) : List Piece :=
  match condition with
  | none => []
  | some name => [Keyword.on.piece, namePiece name.node]

/-- A field without its selection set. -/
def fieldHead (aliasName : Option (Located String)) (name : Located String)
    (arguments : Option (Located (List Argument))) (directives : Directives) : List Piece :=
  aliasPieces aliasName ++ namePiece name.node :: (argumentPieces arguments ++ directives.pieces)

mutual

def Selection.pieces : Selection → List Piece
  | .field ⟨⟨aliasName, name, arguments, directives, none⟩, _⟩ =>
      fieldHead aliasName name arguments directives
  | .field ⟨⟨aliasName, name, arguments, directives, some selections⟩, _⟩ =>
      fieldHead aliasName name arguments directives ++
        enclosed .braceOpen .braceClose (selectionPieces selections)
  | .spread ⟨⟨name, directives⟩, _⟩ =>
      Punctuator.spread.piece :: namePiece name.node :: directives.pieces
  | .inline ⟨⟨condition, directives, selections⟩, _⟩ =>
      Punctuator.spread.piece :: (conditionPieces condition ++ (directives.pieces ++
        enclosed .braceOpen .braceClose (selectionPieces selections)))

def selectionPieces : List Selection → List Piece
  | [] => []
  | selection :: rest => selection.pieces ++ selectionPieces rest

end

def defaultPieces (default : Option (Located Literal)) : List Piece :=
  match default with
  | none => []
  | some literal => Punctuator.equals.piece :: literal.node.pieces

def VariableDefinition.pieces (definition : VariableDefinition) : List Piece :=
  Punctuator.dollar.piece :: namePiece definition.name.node :: Punctuator.colon.piece ::
    (definition.type.node.pieces ++ defaultPieces definition.default)

def variablePieces (definitions : Option (Located (List VariableDefinition))) : List Piece :=
  match definitions with
  | none => []
  | some list => enclosed .parenOpen .parenClose (list.node.flatMap VariableDefinition.pieces)

def operationNamePieces (name : Option (Located String)) : List Piece :=
  match name with
  | none => []
  | some name => [namePiece name.node]

def OperationKind.keyword : OperationKind → Keyword
  | .query => .query
  | .mutation => .mutation

/-- An operation is nothing but a selection set. -/
def Operation.IsBare (operation : Operation) : Prop :=
  operation.kind = .query ∧ operation.name = none ∧ operation.variableDefinitions = none ∧
    operation.directives = none

def Operation.pieces (operation : Operation) : List Piece :=
  operation.kind.keyword.piece :: (operationNamePieces operation.name ++
    (variablePieces operation.variableDefinitions ++ (operation.directives.pieces ++
      enclosed .braceOpen .braceClose (selectionPieces operation.selections))))

def Fragment.pieces (fragment : Fragment) : List Piece :=
  Keyword.fragment.piece :: namePiece fragment.name.node :: Keyword.on.piece ::
    namePiece fragment.typeCondition.node :: (fragment.directives.pieces ++
      enclosed .braceOpen .braceClose (selectionPieces fragment.selections))

/-- A token with a description in front of it, if there is one. -/
abbrev Token.described (token : Token) (description : Option String) : Piece :=
  ⟨token, description⟩

def InputDefinition.pieces (input : InputDefinition) : List Piece :=
  (Token.ofWord input.name.node).described input.description :: Punctuator.colon.piece ::
    (input.type.node.pieces ++ defaultPieces input.default)

def Deprecation.pieces : Deprecation → List Piece
  | .current => []
  | .deprecated none => [Punctuator.at.piece, namePiece "deprecated"]
  | .deprecated (some reason) =>
      Punctuator.at.piece :: namePiece "deprecated" :: enclosed .parenOpen .parenClose
        [namePiece "reason", Punctuator.colon.piece,
          (Token.string (Literal.printString reason)).plain]

def inputPieces (inputs : List (Located InputDefinition)) : List Piece :=
  inputs.flatMap fun input => input.node.pieces

def FieldDefinition.pieces (field : FieldDefinition) : List Piece :=
  (Token.ofWord field.name.node).described field.description ::
    ((if field.arguments.isEmpty then []
        else enclosed .parenOpen .parenClose (inputPieces field.arguments)) ++
      Punctuator.colon.piece :: (field.type.node.pieces ++ field.deprecation.pieces))

def fieldPieces (fields : List (Located FieldDefinition)) : List Piece :=
  enclosed .braceOpen .braceClose (fields.flatMap fun field => field.node.pieces)

def EnumValueDefinition.pieces (value : EnumValueDefinition) : List Piece :=
  (Token.ofWord value.name.node).described value.description :: value.deprecation.pieces

def interfacePieces (interfaces : List (Located String)) : List Piece :=
  match interfaces with
  | [] => []
  | _ => Keyword.implements.piece :: interfaces.map fun name => namePiece name.node

/-- An object type behind its keyword. -/
def ObjectType.body (object : ObjectType) : List Piece :=
  namePiece object.name.node :: (interfacePieces object.interfaces ++ fieldPieces object.fields)

/-- The members of a union behind the first one, each after a bar. -/
def morePieces (members : List (Located String)) : List Piece :=
  members.flatMap fun name => [Punctuator.pipe.piece, namePiece name.node]

def memberPieces (members : List (Located String)) : List Piece :=
  match members with
  | [] => []
  | first :: rest => namePiece first.node :: morePieces rest

/-- A union, with a bar in front of its first member or nothing. -/
def UnionType.pieces (union : UnionType) (leading : List Piece) : List Piece :=
  (Token.keyword .union).described union.description :: namePiece union.name.node ::
    Punctuator.equals.piece :: (leading ++ memberPieces union.members)

/-- The ways in which definitions are written. -/
inductive Definition.Printed : Definition → List Piece → Prop where
  | operation (located : Located Operation) : Printed (.operation located) located.node.pieces
  | bareQuery (located : Located Operation) (bare : located.node.IsBare) :
      Printed (.operation located)
        (enclosed .braceOpen .braceClose (selectionPieces located.node.selections))
  | fragment (located : Located Fragment) : Printed (.fragment located) located.node.pieces
  | object (object : ObjectType) (span : Span) :
      Printed (.type ⟨.object object, span⟩)
        ((Token.keyword .type).described object.description :: object.body)
  | interface (interface : InterfaceType) (span : Span) :
      Printed (.type ⟨.interface interface, span⟩)
        ((Token.keyword .interface).described interface.description ::
          namePiece interface.name.node :: fieldPieces interface.fields)
  | union (union : UnionType) (span : Span) (leading : List Piece)
      (optional : leading = [] ∨ leading = [Punctuator.pipe.piece]) :
      Printed (.type ⟨.union union, span⟩) (union.pieces leading)
  | scalar (scalar : ScalarType) (span : Span) :
      Printed (.type ⟨.scalar scalar, span⟩)
        [(Token.keyword .scalar).described scalar.description, namePiece scalar.name.node]
  | enum (enum : EnumType) (span : Span) :
      Printed (.type ⟨.enum enum, span⟩)
        ((Token.keyword .enum).described enum.description :: namePiece enum.name.node ::
          enclosed .braceOpen .braceClose (enum.values.flatMap fun value => value.node.pieces))
  | inputObject (input : InputObjectType) (span : Span) :
      Printed (.type ⟨.inputObject input, span⟩)
        ((Token.keyword .input).described input.description :: namePiece input.name.node ::
          enclosed .braceOpen .braceClose (inputPieces input.fields))
  | extension (located : Located ObjectType) :
      Printed (.extension located)
        ((Token.keyword .extend).described located.node.description :: Keyword.type.piece ::
          located.node.body)

/-- A text in which definitions are written one after another, as each of them may be. -/
def PrintedAs (definitions : List Definition) (text : List Char) : Prop :=
  ∃ parts spellings, List.Forall₂ Definition.Printed definitions parts ∧
    List.Forall₂ Piece.Spelled parts.flatten spellings ∧ Written Spaces spellings.flatten text

/-! What can be written. -/

abbrev Located.Valid (name : Located String) : Prop := Name.isValid name.node = true

/-- The names of a list, each valid and no two of them the same. -/
structure DistinctNames (names : List (Located String)) : Prop where
  valid : ∀ name ∈ names, name.Valid
  distinct : (names.map (·.node)).Nodup

/-- Enum values are not the words that mean something else. -/
def IsEnumName (name : String) : Prop :=
  Name.isValid name = true ∧ name ∉ ["true", "false", "null"]

mutual

/-- Literals that can be written; constant ones hold no variables. -/
def Literal.Writable (isConstant : Bool) : Literal → Prop
  | .float _ => False
  | .enum name => IsEnumName name
  | .variable name => isConstant = false ∧ Name.isValid name = true
  | .list items => ItemsWritable isConstant items
  | .object fields =>
      (fields.map fun field => field.1.node).Nodup ∧ LiteralFieldsWritable isConstant fields
  | _ => True

def ItemsWritable (isConstant : Bool) : List (Located Literal) → Prop
  | [] => True
  | ⟨item, _⟩ :: rest => item.Writable isConstant ∧ ItemsWritable isConstant rest

def LiteralFieldsWritable (isConstant : Bool) : List (Located String × Located Literal) → Prop
  | [] => True
  | (name, ⟨value, _⟩) :: rest =>
      name.Valid ∧ value.Writable isConstant ∧ LiteralFieldsWritable isConstant rest

end

/-- No type is non-null twice. -/
def TypeRef.Writable : TypeRef → Prop
  | .named name => Name.isValid name = true
  | .list element => element.Writable
  | .nonNull inner => inner.Writable ∧ inner.isNonNull = false

structure ArgumentsWritable (arguments : Option (Located (List Argument))) : Prop where
  filled : ∀ list ∈ arguments, list.node ≠ []
  names : ∀ list ∈ arguments, DistinctNames (list.node.map (·.name))
  values : ∀ list ∈ arguments, ∀ argument ∈ list.node, argument.value.node.Writable false

structure Directives.Writable (directives : Directives) : Prop where
  filled : directives ≠ some []
  names : ∀ directive ∈ directives.getD [], directive.node.name.Valid
  arguments : ∀ directive ∈ directives.getD [], ArgumentsWritable directive.node.arguments

/-- A field apart from its selection set. -/
structure FieldHeadWritable (aliasName : Option (Located String)) (name : Located String)
    (arguments : Option (Located (List Argument))) (directives : Directives) : Prop where
  aliasName : ∀ name ∈ aliasName, name.Valid
  name : name.Valid
  arguments : ArgumentsWritable arguments
  directives : directives.Writable

mutual

def Selection.Writable : Selection → Prop
  | .field ⟨⟨aliasName, name, arguments, directives, none⟩, _⟩ =>
      FieldHeadWritable aliasName name arguments directives
  | .field ⟨⟨aliasName, name, arguments, directives, some selections⟩, _⟩ =>
      FieldHeadWritable aliasName name arguments directives ∧ selections ≠ [] ∧
        SelectionsWritable selections
  | .spread ⟨⟨name, directives⟩, _⟩ => name.Valid ∧ name.node ≠ "on" ∧ directives.Writable
  | .inline ⟨⟨condition, directives, selections⟩, _⟩ =>
      (∀ name ∈ condition, name.Valid) ∧ directives.Writable ∧ selections ≠ [] ∧
        SelectionsWritable selections

def SelectionsWritable : List Selection → Prop
  | [] => True
  | selection :: rest => selection.Writable ∧ SelectionsWritable rest

end

structure VariableDefinition.Writable (definition : VariableDefinition) : Prop where
  type : definition.type.node.Writable
  default : ∀ literal ∈ definition.default, literal.node.Writable true

structure Operation.Writable (operation : Operation) : Prop where
  name : ∀ name ∈ operation.name, name.Valid
  filled : ∀ list ∈ operation.variableDefinitions, list.node ≠ []
  variableNames : ∀ list ∈ operation.variableDefinitions, DistinctNames (list.node.map (·.name))
  definitions : ∀ list ∈ operation.variableDefinitions, ∀ definition ∈ list.node,
    definition.Writable
  directives : operation.directives.Writable
  selects : operation.selections ≠ []
  selections : SelectionsWritable operation.selections

structure Fragment.Writable (fragment : Fragment) : Prop where
  name : fragment.name.Valid
  named : fragment.name.node ≠ "on"
  typeCondition : fragment.typeCondition.Valid
  directives : fragment.directives.Writable
  selects : fragment.selections ≠ []
  selections : SelectionsWritable fragment.selections

def Described (description : Option String) : Prop := ∀ text ∈ description, IsDescription text

structure InputDefinition.Writable (input : InputDefinition) : Prop where
  description : Described input.description
  type : input.type.node.Writable
  default : ∀ literal ∈ input.default, literal.node.Writable true

structure InputsWritable (inputs : List (Located InputDefinition)) : Prop where
  names : DistinctNames (inputs.map (·.node.name))
  each : ∀ input ∈ inputs, input.node.Writable

structure FieldDefinition.Writable (field : FieldDefinition) : Prop where
  description : Described field.description
  arguments : InputsWritable field.arguments
  type : field.type.node.Writable

structure FieldsWritable (fields : List (Located FieldDefinition)) : Prop where
  filled : fields ≠ []
  names : DistinctNames (fields.map (·.node.name))
  each : ∀ field ∈ fields, field.node.Writable

structure ObjectType.Writable (object : ObjectType) : Prop where
  name : object.name.Valid
  description : Described object.description
  interfaces : ∀ name ∈ object.interfaces, name.Valid
  fields : FieldsWritable object.fields

structure EnumType.Writable (enum : EnumType) : Prop where
  name : enum.name.Valid
  description : Described enum.description
  filled : enum.values ≠ []
  names : DistinctNames (enum.values.map (·.node.name))
  each : ∀ value ∈ enum.values, IsEnumName value.node.name.node ∧ Described value.node.description

/-- Definitions of the schema language that can be written. -/
def TypeDefinition.Writable : TypeDefinition → Prop
  | .scalar definition => definition.name.Valid ∧ Described definition.description
  | .object definition => definition.Writable
  | .interface definition =>
      definition.name.Valid ∧ Described definition.description ∧ FieldsWritable definition.fields
  | .union definition =>
      definition.name.Valid ∧ Described definition.description ∧ definition.members ≠ [] ∧
        ∀ member ∈ definition.members, member.Valid
  | .enum definition => definition.Writable
  | .inputObject definition =>
      definition.name.Valid ∧ Described definition.description ∧ definition.fields ≠ [] ∧
        InputsWritable definition.fields

def Definition.Writable : Definition → Prop
  | .operation located => located.node.Writable
  | .fragment located => located.node.Writable
  | .type located => located.node.Writable
  | .extension located => located.node.Writable

end GraphQL
