import GraphQL.Proofs.Phrases
import GraphQL.Proofs.Printing
import GraphQL.Reading.Document

/-!
The grammar of documents, as a relation between what is read and its phrase.

For each kind of thing it is said of which tokens, names and nodes the phrase is made, in order.
Whatever is located is a node, and what its node is made of says where it begins and ends. In the
schema language directives leave nothing but deprecations behind, yet they are parts of phrases.
-/

namespace GraphQL

/-- Of which parts the phrase of something is made. -/
abbrev Form (α : Type) := α → List Phrase → Prop

section Forms

variable {α : Type}

inductive Maybe (form : Form α) : Form (Option α) where
  | absent : Maybe form none []
  | present {value parts} (there : form value parts) : Maybe form (some value) parts

/-- Things one behind the other. -/
inductive Each (form : Form α) : Form (List α) where
  | nil : Each form [] []
  | cons {value values parts more} (first : form value parts) (others : Each form values more) :
      Each form (value :: values) (parts ++ more)

/-- Something located is one node. -/
inductive Node (form : Form α) : Form (Located α) where
  | node {value span parts} (inside : form value parts) : Node form ⟨value, span⟩ [.node span parts]

/-- Something located is where its parts are. -/
abbrev There (form : Form α) : Form (Located α) :=
  fun found parts => form found.node parts ∧ Hull found.span parts

/-- Something between two marks. -/
inductive Enclosed (opening closing : Punctuator) (form : Form α) : Form α where
  | marks {value first last inside} (opens : first.node = .punctuator opening)
      (closes : last.node = .punctuator closing) (there : form value inside) :
      Enclosed opening closing form value (.leaf first :: (inside ++ [.leaf last]))

inductive Named : Form (Located String) where
  | name {name token} : Named name [.named name token]

end Forms

/-- What a token means as a literal. -/
inductive Token.Means : Token → Literal → Prop where
  | null : Means .null .null
  | bool {value} : Means (.bool value) (.bool value)
  | int {raw n} (value : integerLiteral? raw.toList = some n) :
      Means (.int raw) (.int (Int32.ofInt n))
  | float {raw x} (value : Binary.read? .single raw.toList = some x) :
      Means (.float raw) (.float x)
  | string {raw text} (value : unquote raw.toList = .ok text) :
      Means (.string raw) (.string (String.ofList text))
  | name {text} : Means (.name text) (.enum text)
  | keyword {word} : Means (.keyword word) (.enum word.text)

/-- A field of an object literal, given the form of literals. -/
inductive LiteralFieldForm (form : Form Literal) : Form (Located String × Located Literal) where
  | field {name token colon value parts} (mark : colon.node = .punctuator .colon)
      (content : Node form value parts) :
      LiteralFieldForm form (name, value) (.named name token :: .leaf colon :: parts)

inductive LiteralForm : Form Literal where
  | scalar {token literal} (means : token.node.Means literal) :
      LiteralForm literal [.leaf token]
  | variable {dollar name token} (mark : dollar.node = .punctuator .dollar) :
      LiteralForm (.variable name.node) [.leaf dollar, .named name token]
  | list {items parts}
      (each : Enclosed .bracketOpen .bracketClose (Each (Node LiteralForm)) items parts) :
      LiteralForm (.list items) parts
  | object {fields parts}
      (each : Enclosed .braceOpen .braceClose (Each (LiteralFieldForm LiteralForm)) fields parts) :
      LiteralForm (.object fields) parts

inductive TypeForm : Form TypeRef where
  | named {name token} : TypeForm (.named name.node) [.named name token]
  | list {element parts} (inside : Enclosed .bracketOpen .bracketClose TypeForm element parts) :
      TypeForm (.list element) parts
  | nonNull {inner parts mark} (marked : mark.node = .punctuator .bang)
      (inside : TypeForm inner parts) : TypeForm (.nonNull inner) (parts ++ [.leaf mark])

inductive ArgumentForm : Form Argument where
  | argument {name token colon value parts} (mark : colon.node = .punctuator .colon)
      (content : Node LiteralForm value parts) :
      ArgumentForm ⟨name, value⟩ (.named name token :: .leaf colon :: parts)

abbrev ArgumentsForm : Form (Option (Located (List Argument))) :=
  Maybe (Node (Enclosed .parenOpen .parenClose (Each ArgumentForm)))

inductive DirectiveForm : Form Directive where
  | directive {mark name token list parts} (marked : mark.node = .punctuator .at)
      (arguments : ArgumentsForm list parts) :
      DirectiveForm ⟨name, list⟩ (.leaf mark :: .named name token :: parts)

def DirectivesForm : Form Directives := fun list => Each (Node DirectiveForm) (list.getD [])

inductive AliasForm : Form (Option (Located String)) where
  | absent : AliasForm none []
  | present {name token colon} (mark : colon.node = .punctuator .colon) :
      AliasForm (some name) [.named name token, .leaf colon]

inductive ConditionForm : Form (Option (Located String)) where
  | absent : ConditionForm none []
  | present {name token keyword} (word : keyword.node = .keyword .on) :
      ConditionForm (some name) [.leaf keyword, .named name token]

inductive SelectionForm : Form Selection where
  | field {aliasName name token list marks selections span aliasParts listParts markParts setParts}
      (before : AliasForm aliasName aliasParts) (arguments : ArgumentsForm list listParts)
      (directives : DirectivesForm marks markParts)
      (set : Maybe (Enclosed .braceOpen .braceClose (Each SelectionForm)) selections setParts) :
      SelectionForm (.field ⟨⟨aliasName, name, list, marks, selections⟩, span⟩)
        [.node span (aliasParts ++ .named name token :: (listParts ++ (markParts ++ setParts)))]
  | spread {dots name token marks span markParts} (mark : dots.node = .punctuator .spread)
      (directives : DirectivesForm marks markParts) :
      SelectionForm (.spread ⟨⟨name, marks⟩, span⟩)
        [.node span (.leaf dots :: .named name token :: markParts)]
  | inline {dots condition marks selections span conditionParts markParts setParts}
      (mark : dots.node = .punctuator .spread) (on : ConditionForm condition conditionParts)
      (directives : DirectivesForm marks markParts)
      (set : Enclosed .braceOpen .braceClose (Each SelectionForm) selections setParts) :
      SelectionForm (.inline ⟨⟨condition, marks, selections⟩, span⟩)
        [.node span (.leaf dots :: (conditionParts ++ (markParts ++ setParts)))]

abbrev SelectionSetForm : Form (List Selection) :=
  Enclosed .braceOpen .braceClose (Each SelectionForm)

inductive DefaultForm : Form (Option (Located Literal)) where
  | absent : DefaultForm none []
  | present {value equals parts} (mark : equals.node = .punctuator .equals)
      (content : Node LiteralForm value parts) : DefaultForm (some value) (.leaf equals :: parts)

inductive VariableDefinitionForm : Form VariableDefinition where
  | definition {name dollar word colon type default typeParts defaultParts}
      (mark : colon.node = .punctuator .colon) (typed : Node TypeForm type typeParts)
      (defaulted : DefaultForm default defaultParts) :
      VariableDefinitionForm ⟨name, type, default⟩
        (.dollarNamed name dollar word :: .leaf colon :: (typeParts ++ defaultParts))

abbrev VariableDefinitionsForm : Form (Option (Located (List VariableDefinition))) :=
  Maybe (Node (Enclosed .parenOpen .parenClose (Each VariableDefinitionForm)))

inductive OperationForm : Form Operation where
  | bare {selections parts} (set : SelectionSetForm selections parts) :
      OperationForm ⟨.query, none, none, none, selections⟩ parts
  | keyword {kind name definitions marks selections keyword nameParts definitionParts markParts
        setParts} (word : keyword.node = .keyword kind.keyword)
      (named : Maybe Named name nameParts)
      (inputs : VariableDefinitionsForm definitions definitionParts)
      (directives : DirectivesForm marks markParts) (set : SelectionSetForm selections setParts) :
      OperationForm ⟨kind, name, definitions, marks, selections⟩
        (.leaf keyword :: (nameParts ++ (definitionParts ++ (markParts ++ setParts))))

inductive FragmentForm : Form Fragment where
  | fragment {keyword name token on condition conditionToken marks selections markParts setParts}
      (word : keyword.node = .keyword .fragment) (onWord : on.node = .keyword .on)
      (directives : DirectivesForm marks markParts) (set : SelectionSetForm selections setParts) :
      FragmentForm ⟨name, condition, marks, selections⟩
        (.leaf keyword :: .named name token :: .leaf on :: .named condition conditionToken ::
          (markParts ++ setParts))

inductive InputDefinitionForm : Form InputDefinition where
  | input {name token description colon type default marks typeParts defaultParts markParts}
      (mark : colon.node = .punctuator .colon) (typed : Node TypeForm type typeParts)
      (defaulted : DefaultForm default defaultParts)
      (directives : DirectivesForm marks markParts) :
      InputDefinitionForm ⟨name, description, type, default⟩
        (.named name token :: .leaf colon :: (typeParts ++ (defaultParts ++ markParts)))

/-- Arguments of a field definition; no parentheses are written if there are none. -/
inductive InputsForm : Form (List (Located InputDefinition)) where
  | none : InputsForm [] []
  | some {inputs parts}
      (each : Enclosed .parenOpen .parenClose (Each (Node InputDefinitionForm)) inputs parts) :
      InputsForm inputs parts

inductive FieldDefinitionForm : Form FieldDefinition where
  | field {name token description inputs colon type marks inputParts typeParts markParts}
      (arguments : InputsForm inputs inputParts) (mark : colon.node = .punctuator .colon)
      (typed : Node TypeForm type typeParts) (directives : DirectivesForm marks markParts) :
      FieldDefinitionForm ⟨name, description, inputs, type, Reader.deprecation marks⟩
        (.named name token :: (inputParts ++ .leaf colon :: (typeParts ++ markParts)))

abbrev FieldsForm : Form (List (Located FieldDefinition)) :=
  Enclosed .braceOpen .braceClose (Each (Node FieldDefinitionForm))

inductive EnumValueForm : Form EnumValueDefinition where
  | value {name token description marks markParts} (directives : DirectivesForm marks markParts) :
      EnumValueForm ⟨name, description, Reader.deprecation marks⟩ (.named name token :: markParts)

inductive InterfacesForm : Form (List (Located String)) where
  | none : InterfacesForm [] []
  | some {keyword names parts} (word : keyword.node = .keyword .implements)
      (each : Each Named names parts) : InterfacesForm names (.leaf keyword :: parts)

inductive ObjectForm : Form ObjectType where
  | object {keyword name token description interfaces fields interfaceParts fieldParts}
      (word : keyword.node = .keyword .type)
      (implemented : InterfacesForm interfaces interfaceParts)
      (body : FieldsForm fields fieldParts) :
      ObjectForm ⟨name, description, interfaces, fields⟩
        (.leaf keyword :: .named name token :: (interfaceParts ++ fieldParts))

/-- A further member of a union, behind a bar. -/
inductive MemberForm : Form (Located String) where
  | member {bar name token} (mark : bar.node = .punctuator .pipe) :
      MemberForm name [.leaf bar, .named name token]

/-- A bar in front of the first member of a union, or nothing. -/
inductive LeadingBar : List Phrase → Prop where
  | none : LeadingBar []
  | some {bar} (mark : bar.node = .punctuator .pipe) : LeadingBar [.leaf bar]

/-- Definitions of types, by kind. -/
inductive TypeDefinitionForm : Form TypeDefinition where
  | object {definition parts} (inside : ObjectForm definition parts) :
      TypeDefinitionForm (.object definition) parts
  | interface {keyword name token description fields fieldParts}
      (word : keyword.node = .keyword .interface) (body : FieldsForm fields fieldParts) :
      TypeDefinitionForm (.interface ⟨name, description, fields⟩)
        (.leaf keyword :: .named name token :: fieldParts)
  | union {keyword name token description equals first firstToken members barParts memberParts}
      (word : keyword.node = .keyword .union) (mark : equals.node = .punctuator .equals)
      (bar : LeadingBar barParts) (others : Each MemberForm members memberParts) :
      TypeDefinitionForm (.union ⟨name, description, first :: members⟩)
        (.leaf keyword :: .named name token :: .leaf equals ::
          (barParts ++ .named first firstToken :: memberParts))
  | scalar {keyword name token description} (word : keyword.node = .keyword .scalar) :
      TypeDefinitionForm (.scalar ⟨name, description⟩) [.leaf keyword, .named name token]
  | enum {keyword name token description values valueParts}
      (word : keyword.node = .keyword .enum)
      (body : Enclosed .braceOpen .braceClose (Each (Node EnumValueForm)) values valueParts) :
      TypeDefinitionForm (.enum ⟨name, description, values⟩)
        (.leaf keyword :: .named name token :: valueParts)
  | inputObject {keyword name token description fields fieldParts}
      (word : keyword.node = .keyword .input)
      (body : Enclosed .braceOpen .braceClose (Each (Node InputDefinitionForm)) fields fieldParts) :
      TypeDefinitionForm (.inputObject ⟨name, description, fields⟩)
        (.leaf keyword :: .named name token :: fieldParts)

/-- The fields that an extension adds stand behind the keyword as in a type of their own. -/
inductive ExtensionForm : Form ObjectType where
  | extension {keyword definition parts} (word : keyword.node = .keyword .extend)
      (inside : ObjectForm definition parts) : ExtensionForm definition (.leaf keyword :: parts)

inductive DefinitionForm : Form Definition where
  | operation {located parts} (inside : Node OperationForm located parts) :
      DefinitionForm (.operation located) parts
  | fragment {located parts} (inside : Node FragmentForm located parts) :
      DefinitionForm (.fragment located) parts
  | type {located parts} (inside : Node TypeDefinitionForm located parts) :
      DefinitionForm (.type located) parts
  | extension {located parts} (inside : Node ExtensionForm located parts) :
      DefinitionForm (.extension located) parts

/-- A document is made of its definitions and of the end token. -/
inductive DocumentForm : Form Document where
  | document {definitions span parts ending} (each : Each DefinitionForm definitions parts)
      (ends : ending.node = .endOfFile) :
      DocumentForm ⟨definitions, span⟩ [.node span (parts ++ [.leaf ending])]

end GraphQL
