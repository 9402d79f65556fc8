/-!
The types of the introspection system, and the request that asks for all of them.

Both are texts: the types are appended to the schema source that they are to describe, and the
request is run like any other.
-/

namespace GraphQL.Introspection

/-- The characters of lines with line feeds between them. -/
def joinedLines (lines : List String) : List Char :=
  List.intercalate ['\n'] (lines.map String.toList)

/-- The lines of the definitions that follow every schema source. -/
def typeLines : List String :=
  [
    "## A UTF-8 character sequence",
    "scalar String",
    "",
    "## A boolean value representing `true` or `false`",
    "scalar Boolean",
    "",
    "## A signed 32-bit integer",
    "scalar Int",
    "",
    "## A signed double-precision floating-point value",
    "scalar Float",
    "",
    "## A unique identifier, serialized as a string",
    "scalar ID",
    "",
    "## A GraphQL schema: its types, entry points and directives",
    "type __Schema \x7b",
    "  types: [__Type!]!",
    "  queryType: __Type!",
    "  mutationType: __Type",
    "  subscriptionType: __Type",
    "  directives: [__Directive!]!",
    "\x7d",
    "",
    "type __Type \x7b",
    "  kind: __TypeKind!",
    "  name: String",
    "  description: String",
    "",
    "  # OBJECT and INTERFACE only",
    "  fields(includeDeprecated: Boolean = false): [__Field!]",
    "",
    "  # OBJECT only",
    "  interfaces: [__Type!]",
    "",
    "  # INTERFACE and UNION only",
    "  possibleTypes: [__Type!]",
    "",
    "  # ENUM only",
    "  enumValues(includeDeprecated: Boolean = false): [__EnumValue!]",
    "",
    "  # INPUT_OBJECT only",
    "  inputFields: [__InputValue!]",
    "",
    "  # NON_NULL and LIST only",
    "  ofType: __Type",
    "\x7d",
    "",
    "type __Field \x7b",
    "  name: String!",
    "  description: String",
    "  args: [__InputValue!]!",
    "  type: __Type!",
    "  isDeprecated: Boolean!",
    "  deprecationReason: String",
    "\x7d",
    "",
    "type __InputValue \x7b",
    "  name: String!",
    "  description: String",
    "  type: __Type!",
    "  defaultValue: String",
    "\x7d",
    "",
    "type __EnumValue \x7b",
    "  name: String!",
    "  description: String",
    "  isDeprecated: Boolean!",
    "  deprecationReason: String",
    "\x7d",
    "",
    "## The kind of a type, as reported by `__Type.kind`",
    "enum __TypeKind \x7b",
    "  SCALAR",
    "  OBJECT",
    "  INTERFACE",
    "  UNION",
    "  ENUM",
    "  INPUT_OBJECT",
    "  LIST",
    "  NON_NULL",
    "\x7d",
    "",
    "type __Directive \x7b",
    "  name: String!",
    "  description: String",
    "  args: [__InputValue!]!",
    "  onOperation: Boolean!",
    "  onFragment: Boolean!",
    "  onField: Boolean!",
    "\x7d",
    ""
  ]

/-- The definitions that follow every schema source. -/
def typesText : List Char := joinedLines typeLines

/-- The lines of the request for everything there is to know about a schema. -/
def requestLines : List String :=
  [
    "query IntrospectionQuery \x7b",
    "  __schema \x7b",
    "    queryType \x7b",
    "      name",
    "    \x7d",
    "    mutationType \x7b",
    "      name",
    "    \x7d",
    "    subscriptionType \x7b",
    "      name",
    "    \x7d",
    "    types \x7b",
    "      ...FullType",
    "    \x7d",
    "    directives \x7b",
    "      name",
    "      description",
    "      onOperation",
    "      onFragment",
    "      onField",
    "      args \x7b",
    "        ...InputValue",
    "      \x7d",
    "    \x7d",
    "  \x7d",
    "\x7d",
    "",
    "fragment FullType on __Type \x7b",
    "  kind",
    "  name",
    "  description",
    "  fields(includeDeprecated: true) \x7b",
    "    name",
    "    description",
    "    args \x7b",
    "      ...InputValue",
    "    \x7d",
    "    type \x7b",
    "      ...TypeRef",
    "    \x7d",
    "    isDeprecated",
    "    deprecationReason",
    "  \x7d",
    "  inputFields \x7b",
    "    ...InputValue",
    "  \x7d",
    "  interfaces \x7b",
    "    ...TypeRef",
    "  \x7d",
    "  enumValues(includeDeprecated: true) \x7b",
    "    name",
    "    description",
    "    isDeprecated",
    "    deprecationReason",
    "  \x7d",
    "  possibleTypes \x7b",
    "    ...TypeRef",
    "  \x7d",
    "\x7d",
    "",
    "fragment InputValue on __InputValue \x7b",
    "  name",
    "  description",
    "  type \x7b",
    "    ...TypeRef",
    "  \x7d",
    "  defaultValue",
    "\x7d",
    "",
    "fragment TypeRef on __Type \x7b",
    "  kind",
    "  name",
    "  ofType \x7b",
    "    kind",
    "    name",
    "    ofType \x7b",
    "      kind",
    "      name",
    "      ofType \x7b",
    "        kind",
    "        name",
    "        ofType \x7b",
    "          kind",
    "          name",
    "          ofType \x7b",
    "            kind",
    "            name",
    "            ofType \x7b",
    "              kind",
    "              name",
    "              ofType \x7b",
    "                kind",
    "                name",
    "              \x7d",
    "            \x7d",
    "          \x7d",
    "        \x7d",
    "      \x7d",
    "    \x7d",
    "  \x7d",
    "\x7d",
    ""
  ]

/-- The request for everything there is to know about a schema. -/
def requestText : String := String.ofList (joinedLines requestLines)

/-- The name of the operation in the request. -/
def requestName : String := "IntrospectionQuery"

end GraphQL.Introspection
