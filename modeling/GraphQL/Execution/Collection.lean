import GraphQL.Selection
import GraphQL.Document
import GraphQL.Execution.Coercion

/-!
Collecting the fields that a selection set asks of an object type.

Fields are grouped by response key in order of first appearance. Fragments are expanded where they
apply, each named one at most once in a collection; so the expansions that are within each other are
at most as many as the document has fragments.
-/

namespace GraphQL

structure FieldGroup where
  key : String
  first : Located Field
  others : List (Located Field)

namespace FieldGroup

def fields (group : FieldGroup) : List (Located Field) := group.first :: group.others

/-- The selection sets of all fields that have one. -/
def selectionSets (group : FieldGroup) : List (List Selection) :=
  group.fields.filterMap fun field => field.node.selections

end FieldGroup

/-- Adds a field to the group of its key, or as a new group at the end. -/
def addToGroups (field : Located Field) : List FieldGroup → List FieldGroup
  | [] => [⟨field.node.responseKey, field, []⟩]
  | group :: rest =>
      if group.key = field.node.responseKey then
        { group with others := group.others ++ [field] } :: rest
      else group :: addToGroups field rest

/-- The groups so far, and the names of the fragments that were spread. -/
structure Collected where
  visited : List String
  groups : List FieldGroup

structure RequestScope where
  document : Document
  variableValues : Object

namespace RequestScope

/-- The condition of a directive, if it has one that is true or false. -/
def condition? (scope : RequestScope) (directive : Directive) : Option Bool :=
  match directive.argument? "if" with
  | none => none
  | some literal => (literal.node.toValue scope.variableValues).toBool?

def admits (scope : RequestScope) (directive : Directive) : Bool :=
  if directive.name.node = "skip" then scope.condition? directive != some true
  else if directive.name.node = "include" then scope.condition? directive != some false
  else true

def includes (scope : RequestScope) (directives : Directives) : Bool :=
  (directives.getD []).all fun directive => scope.admits directive.node

end RequestScope

/-- Whether a fragment with a type condition applies to an object type. -/
def Schema.applies (schema : Schema) (objectName condition : String) : Bool :=
  objectName == condition || schema.isPossibleType condition objectName

/-- Whether an inline fragment applies; one without a condition always does. -/
def conditionApplies (schema : Schema) (objectName : String) :
    Option (Located String) → Bool
  | none => true
  | some condition => schema.applies objectName condition.node

/-- Marks a spread fragment, and expands it if it applies. -/
def spreadInto (schema : Schema) (scope : RequestScope) (objectName : String)
    (expand : List Selection → Collected → Collected) (spread : FragmentSpread)
    (collected : Collected) : Collected :=
  let name := spread.name.node
  if !scope.includes spread.directives || decide (name ∈ collected.visited) then collected
  else
    let marked : Collected := ⟨name :: collected.visited, collected.groups⟩
    match scope.document.fragment? name with
    | none => marked
    | some fragment =>
        if scope.includes fragment.node.directives &&
            schema.applies objectName fragment.node.typeCondition.node then
          expand fragment.node.selections marked
        else marked

mutual

/-- Collects from selections in turn, given how named fragments are expanded. -/
def collectWith (schema : Schema) (scope : RequestScope) (objectName : String)
    (expand : List Selection → Collected → Collected) :
    List Selection → Collected → Collected
  | [], collected => collected
  | selection :: rest, collected =>
      collectWith schema scope objectName expand rest
        (collectOne schema scope objectName expand selection collected)

def collectOne (schema : Schema) (scope : RequestScope) (objectName : String)
    (expand : List Selection → Collected → Collected) :
    Selection → Collected → Collected
  | .field field, collected =>
      if scope.includes field.node.directives then
        { collected with groups := addToGroups field collected.groups }
      else collected
  | .spread spread, collected =>
      spreadInto schema scope objectName expand spread.node collected
  | .inline ⟨⟨condition, directives, selections⟩, _⟩, collected =>
      if scope.includes directives && conditionApplies schema objectName condition then
        collectWith schema scope objectName expand selections collected
      else collected

end

/-- Collects with at most so many expansions within each other. -/
def collectWithin (schema : Schema) (scope : RequestScope) (objectName : String) :
    Nat → List Selection → Collected → Collected
  | 0 => collectWith schema scope objectName fun _ collected => collected
  | depth + 1 => collectWith schema scope objectName
      (collectWithin schema scope objectName depth)

/-- The field groups of several selection sets, which share their named fragments. -/
def collectFields (schema : Schema) (scope : RequestScope) (objectName : String)
    (selectionSets : List (List Selection)) : List FieldGroup :=
  let depth := scope.document.fragments.length
  let collected := selectionSets.foldl
    (fun collected selections =>
      collectWithin schema scope objectName depth selections collected)
    ⟨[], []⟩
  collected.groups

end GraphQL
