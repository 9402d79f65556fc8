import GraphQL.Literal
import GraphQL.TypeRef

/-!
What a request selects: fields, fragment spreads and inline fragments, nested to any depth.

Operations and named fragments carry a selection set each. Lists that were not written are `none`;
lists that were written are never empty.
-/

namespace GraphQL

structure Argument where
  name : Located String
  value : Located Literal

def findArgument? (name : String) (arguments : Option (Located (List Argument))) :
    Option (Located Literal) :=
  match arguments with
  | none => none
  | some list => (list.node.find? fun argument => argument.name.node == name).map (·.value)

structure Directive where
  name : Located String
  arguments : Option (Located (List Argument))

def Directive.argument? (directive : Directive) (name : String) : Option (Located Literal) :=
  findArgument? name directive.arguments

abbrev Directives := Option (List (Located Directive))

structure FragmentSpread where
  name : Located String
  directives : Directives

mutual

structure Field where
  aliasName : Option (Located String)
  name : Located String
  arguments : Option (Located (List Argument))
  directives : Directives
  selections : Option (List Selection)

structure InlineFragment where
  typeCondition : Option (Located String)
  directives : Directives
  selections : List Selection

inductive Selection where
  | field (field : Located Field)
  | spread (spread : Located FragmentSpread)
  | inline (fragment : Located InlineFragment)

end

namespace Field

def responseKey (field : Field) : String :=
  (field.aliasName.getD field.name).node

def argument? (field : Field) (name : String) : Option (Located Literal) :=
  findArgument? name field.arguments

end Field

inductive OperationKind where
  | query
  | mutation
  deriving DecidableEq, Repr

structure VariableDefinition where
  /-- The name without its dollar sign, at a place that includes it. -/
  name : Located String
  type : Located TypeRef
  default : Option (Located Literal)

structure Operation where
  kind : OperationKind
  name : Option (Located String)
  variableDefinitions : Option (Located (List VariableDefinition))
  directives : Directives
  selections : List Selection

structure Fragment where
  name : Located String
  typeCondition : Located String
  directives : Directives
  selections : List Selection

end GraphQL
