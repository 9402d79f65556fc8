/-!
Type references: a type name under list and non-null wrappers.

A reference is syntax alone and may name a type that does not exist.
-/

namespace GraphQL

inductive TypeRef where
  | named (name : String)
  | list (element : TypeRef)
  | nonNull (inner : TypeRef)
  deriving DecidableEq, Repr

namespace TypeRef

def text : TypeRef → String
  | .named name => name
  | .list element => "[" ++ element.text ++ "]"
  | .nonNull inner => inner.text ++ "!"

/-- The name under non-null wrappers; lists have none. -/
def name? : TypeRef → Option String
  | .named name => some name
  | .list _ => none
  | .nonNull inner => inner.name?

/-- The name under all wrappers. -/
def innermost : TypeRef → String
  | .named name => name
  | .list element => element.innermost
  | .nonNull inner => inner.innermost

def isNonNull : TypeRef → Bool
  | .nonNull _ => true
  | _ => false

/-- Takes off the outermost non-null wrapper, if there is one. -/
def nullable : TypeRef → TypeRef
  | .nonNull inner => inner
  | other => other

end TypeRef

end GraphQL
