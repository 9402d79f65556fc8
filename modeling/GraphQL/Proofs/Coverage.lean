import GraphQL.Proofs.Collection

/-!
The fields that are executed all occur in the document.

Whatever is collected from selections of the document, spread fragments included, is selected in one
of its operations or fragments, and so is whatever is collected below that.
-/

namespace GraphQL

/-- A field occurs in selections, at any depth; spread fragments are not looked into. -/
inductive Selects (field : Located Field) : List Selection → Prop where
  | here {selections} (member : Selection.field field ∈ selections) : Selects field selections
  | nested {selections parent inner} (member : Selection.field parent ∈ selections)
      (has : parent.node.selections = some inner) (deeper : Selects field inner) :
      Selects field selections
  | inline {selections fragment} (member : Selection.inline fragment ∈ selections)
      (deeper : Selects field fragment.node.selections) : Selects field selections

theorem Selects.mono {field : Located Field} {selections more : List Selection}
    (selected : Selects field selections)
    (contained : ∀ selection ∈ selections, selection ∈ more) : Selects field more := by
  cases selected with
  | here member => exact .here (contained _ member)
  | nested member has deeper => exact .nested (contained _ member) has deeper
  | inline member deeper => exact .inline (contained _ member) deeper

namespace Document

/-- A field occurs in an operation or a fragment of a document. -/
def Selects (document : Document) (field : Located Field) : Prop :=
  (∃ operation ∈ document.operations, GraphQL.Selects field operation.node.selections) ∨
    ∃ fragment ∈ document.fragments, GraphQL.Selects field fragment.node.selections

/-- Whatever occurs in some selections occurs in the document. -/
def Covers (document : Document) (selections : List Selection) : Prop :=
  ∀ field, GraphQL.Selects field selections → document.Selects field

/-- A field occurs in the document, with all that is selected below it. -/
def Holds (document : Document) (field : Located Field) : Prop :=
  document.Selects field ∧ ∀ inner, field.node.selections = some inner → document.Covers inner

variable {document : Document}

theorem Covers.mono {selections fewer : List Selection} (covered : document.Covers selections)
    (contained : ∀ selection ∈ fewer, selection ∈ selections) : document.Covers fewer :=
  fun field selected => covered field (selected.mono contained)

theorem Covers.head {selection : Selection} {rest : List Selection}
    (covered : document.Covers (selection :: rest)) : document.Covers [selection] :=
  covered.mono (by simp)

theorem Covers.tail {selection : Selection} {rest : List Selection}
    (covered : document.Covers (selection :: rest)) : document.Covers rest :=
  covered.mono (by simp +contextual)

theorem covers_operation {operation : Located Operation}
    (member : operation ∈ document.operations) : document.Covers operation.node.selections :=
  fun _ selected => .inl ⟨operation, member, selected⟩

theorem covers_fragment {name : String} {fragment : Located Fragment}
    (found : document.fragment? name = some fragment) :
    document.Covers fragment.node.selections :=
  fun _ selected => .inr ⟨fragment, List.mem_of_find?_eq_some found, selected⟩

theorem Covers.holds_field {field : Located Field} (covered : document.Covers [.field field]) :
    document.Holds field :=
  ⟨covered field (.here (by simp)),
    fun _ has other deeper => covered other (.nested (by simp) has deeper)⟩

end Document

/--
A property of selections that goes over to whatever is selected in them, named fragments included,
and to another property of the fields that are met.
-/
structure Document.Carries (document : Document) (covered : List Selection → Prop)
    (held : Located Field → Prop) : Prop where
  head : ∀ {selection rest}, covered (selection :: rest) → covered [selection]
  tail : ∀ {selection rest}, covered (selection :: rest) → covered rest
  field : ∀ {field}, covered [.field field] → held field
  inline : ∀ {fragment}, covered [.inline fragment] → covered fragment.node.selections
  spread : ∀ {spread fragment}, covered [.spread spread] →
    document.fragment? spread.node.name.node = some fragment → covered fragment.node.selections

section Containment

variable {schema : Schema} {scope : RequestScope} {objectName : String}
  {meet : List Selection → Gathered → Gathered} {covered : List Selection → Prop}
  {held : Located Field → Prop}

/-- From selections of a kind only fields of a kind are met. -/
def MeetsHeld (covered : List Selection → Prop) (held : Located Field → Prop)
    (meet : List Selection → Gathered → Gathered) : Prop :=
  ∀ selections gathered, covered selections → (∀ field ∈ gathered.fields, held field) →
    ∀ field ∈ (meet selections gathered).fields, held field

theorem gather_spread_held (carries : scope.document.Carries covered held)
    (meets : MeetsHeld covered held meet) {spread : Located FragmentSpread}
    (within : covered [.spread spread]) (gathered : Gathered)
    (met : ∀ field ∈ gathered.fields, held field) :
    ∀ field ∈ (gatherSpread schema scope objectName meet spread.node gathered).fields,
      held field := by
  rw [gatherSpread]
  split
  · exact met
  · cases found : scope.document.fragment? spread.node.name.node with
    | none => exact met
    | some fragment =>
        dsimp only
        split
        · exact meets _ _ (carries.spread within found) met
        · exact met

mutual

theorem gather_with_held (carries : scope.document.Carries covered held)
    (meets : MeetsHeld covered held meet) :
    ∀ (selections : List Selection) (gathered : Gathered), covered selections →
      (∀ field ∈ gathered.fields, held field) →
        ∀ field ∈ (gatherWith schema scope objectName meet selections gathered).fields, held field
  | [], gathered, _, met => by
      rw [gatherWith]
      exact met
  | selection :: rest, gathered, within, met => by
      rw [gatherWith]
      exact gather_with_held carries meets rest _ (carries.tail within)
        (gather_one_held carries meets selection gathered (carries.head within) met)

theorem gather_one_held (carries : scope.document.Carries covered held)
    (meets : MeetsHeld covered held meet) :
    ∀ (selection : Selection) (gathered : Gathered), covered [selection] →
      (∀ field ∈ gathered.fields, held field) →
        ∀ field ∈ (gatherOne schema scope objectName meet selection gathered).fields, held field
  | .field field, gathered, within, met => by
      rw [gatherOne]
      split
      · intro other member
        rcases List.mem_append.mp member with inside | inside
        · exact met other inside
        · rw [List.mem_singleton.mp inside]
          exact carries.field within
      · exact met
  | .spread spread, gathered, within, met => by
      rw [gatherOne]
      exact gather_spread_held carries meets within gathered met
  | .inline ⟨⟨condition, directives, selections⟩, span⟩, gathered, within, met => by
      rw [gatherOne]
      split
      · exact gather_with_held carries meets selections gathered (carries.inline within) met
      · exact met

end

theorem gather_within_held (carries : scope.document.Carries covered held) (depth : Nat) :
    MeetsHeld covered held (gatherWithin schema scope objectName depth) := by
  induction depth with
  | zero => exact gather_with_held carries fun _ _ _ met => met
  | succ depth ih => exact gather_with_held carries ih

/-- Selection sets of a kind ask only for fields of a kind. -/
theorem fields_asked_carried (carries : scope.document.Carries covered held)
    {selectionSets : List (List Selection)}
    (within : ∀ selections ∈ selectionSets, covered selections) :
    ∀ field ∈ fieldsAsked schema scope objectName selectionSets, held field := by
  have step (sets : List (List Selection)) (gathered : Gathered)
      (within : ∀ selections ∈ sets, covered selections)
      (met : ∀ field ∈ gathered.fields, held field) :
      ∀ field ∈ (sets.foldl
        (fun gathered selections =>
          gatherWithin schema scope objectName scope.document.fragments.length selections gathered)
        gathered).fields, held field := by
    induction sets generalizing gathered with
    | nil => exact met
    | cons selections rest ih =>
        exact ih _ (fun other member => within other (List.mem_cons_of_mem _ member))
          (gather_within_held carries _ selections gathered (within selections (by simp)) met)
  exact step selectionSets ⟨[], []⟩ within (by simp)

end Containment

/-- What the document covers leads to fields that it holds. -/
theorem Document.covers_carries (document : Document) :
    document.Carries document.Covers document.Holds where
  head := .head
  tail := .tail
  field covered := covered.holds_field
  inline covered field deeper := covered field (.inline List.mem_cons_self deeper)
  spread _ found := Document.covers_fragment found

/-- Selection sets of a document ask only for fields of the document. -/
theorem fields_asked_held {schema : Schema} {scope : RequestScope} {objectName : String}
    {selectionSets : List (List Selection)}
    (covered : ∀ selections ∈ selectionSets, scope.document.Covers selections) :
    ∀ field ∈ fieldsAsked schema scope objectName selectionSets, scope.document.Holds field :=
  fields_asked_carried scope.document.covers_carries covered

/-- The group of a field of the document leads to selection sets of the document. -/
theorem group_covered {document : Document} {fields : List (Located Field)} {group : FieldGroup}
    (held : ∀ field ∈ fields, document.Holds field) (member : group ∈ grouped fields) :
    ∀ selections ∈ group.selectionSets, document.Covers selections := by
  intro selections inside
  obtain ⟨field, among, has⟩ := List.mem_filterMap.mp inside
  exact (held field (grouped_member_met member among).1).2 selections has

end GraphQL
