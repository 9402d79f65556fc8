import GraphQL.Proofs.WrittenOut
import GraphQL.Proofs.Yields

/-!
Names that no document repeats.

The reader refuses a source in which a type name, or a field within an object type, is declared for
the second time. Extensions are read as object types and looked at later, when they are merged.
-/

namespace GraphQL

/-- If a definition is an object type, each of its fields has a name of its own. -/
def Definition.DistinctFields : Definition → Prop
  | .type ⟨.object object, _⟩ => object.DistinctFields
  | _ => True

namespace Reader

theorem field_definitions_distinct :
    Yields fieldDefinitions fun list => (fieldNames list.node).Nodup := by
  rw [fieldDefinitions]
  apply Yields.after
  intro list
  apply (reject_repeats_yields _ _).bind
  intro _ distinct
  rw [List.map_map] at distinct
  exact .pure distinct

theorem object_type_distinct (description : Option String) :
    Yields (objectType description) fun object => object.node.DistinctFields := by
  have rest (keyword : Located Token) (typeName : Located String)
      (interfaces : List (Located String)) :
      Yields (do
        let fields ← fieldDefinitions
        pure (.between keyword.span.start fields.span.stop
          ⟨typeName, description, interfaces, fields.node⟩))
        fun object : Located ObjectType => object.node.DistinctFields := by
    apply field_definitions_distinct.bind
    intro fields distinct
    exact .pure distinct
  rw [objectType]
  apply Yields.after
  intro keyword
  apply Yields.after
  intro typeName
  apply Yields.after
  intro skipped
  cases skipped with
  | none => exact rest keyword typeName []
  | some token =>
      dsimp only
      apply Yields.after
      intro cursor
      apply Yields.after
      intro interfaces
      exact rest keyword typeName interfaces

theorem definition_distinct_fields : Yields definition Definition.DistinctFields := by
  rw [definition]
  apply Yields.after
  intro description
  apply Yields.after
  intro found
  split
  -- An object type is read in one of the cases only.
  case h_5 =>
    apply (object_type_distinct description).bind
    intro object distinct
    exact .pure distinct
  case h_12 => exact .fail
  case h_13 => exact .reject
  all_goals exact .after fun _ => .pure trivial

end Reader

namespace Document

/-- What is declared without a repetition is declared under different names. -/
theorem first_redeclared_none {seen : List (NameKind × String)}
    {declared : List (NameKind × Located String)}
    (none_redeclared : firstRedeclared? seen declared = none) :
    (declared.map fun name => (name.1, name.2.node)).Nodup ∧
      ∀ name ∈ declared, (name.1, name.2.node) ∉ seen := by
  induction declared generalizing seen with
  | nil => exact ⟨List.nodup_nil, List.forall_mem_nil _⟩
  | cons name rest ih =>
      obtain ⟨kind, name⟩ := name
      rw [firstRedeclared?] at none_redeclared
      by_cases repeated : (kind, name.node) ∈ seen
      · rw [if_pos repeated] at none_redeclared
        cases none_redeclared
      · rw [if_neg repeated] at none_redeclared
        obtain ⟨distinct, fresh⟩ := ih none_redeclared
        refine ⟨List.nodup_cons.mpr ⟨fun again => ?_, distinct⟩,
          List.forall_mem_cons.mpr ⟨repeated, fun other member before => ?_⟩⟩
        · obtain ⟨other, member, same⟩ := List.mem_map.mp again
          exact fresh other member (same ▸ List.mem_cons_self)
        · exact fresh other member (List.mem_cons_of_mem _ before)

/-- The names of types are among those declared, as what they are. -/
theorem type_names_declared (definitions : List Definition) :
    ((typeNames definitions).map fun name => (NameKind.type, name)).Sublist
      ((definitions.filterMap Definition.declared?).map fun name => (name.1, name.2.node)) := by
  induction definitions with
  | nil => exact .slnil
  | cons definition rest ih =>
      cases definition with
      | operation located =>
          cases named : located.node.name with
          | none =>
              have unnamed : (Definition.operation located).declared? = none := by
                rw [Definition.declared?, named]
              rw [List.filterMap_cons, unnamed]
              exact ih
          | some name =>
              have declared : (Definition.operation located).declared? =
                  some (.operation, name) := by
                rw [Definition.declared?, named]
              rw [List.filterMap_cons, declared]
              exact ih.cons _
      | fragment located => exact ih.cons _
      | type located => exact ih.cons_cons _
      | extension located => exact ih

theorem of_definitions_distinct_types {definitions : List Definition} {span : Span}
    {document : Document} (read : ofDefinitions definitions span = .ok document) :
    document.DistinctTypes := by
  rw [ofDefinitions] at read
  split at read
  · cases read
  · rename_i none_redeclared
    cases read
    have apart := (first_redeclared_none none_redeclared).1.sublist (type_names_declared definitions)
    exact List.Pairwise.of_map _ (fun _ _ differ same => differ (congrArg _ same)) apart

/-- The definitions of a document that was read have passed the check of their names. -/
theorem of_text_indexed {text : List Char} {document : Document}
    (read : Document.ofText text = .ok document) :
    ofDefinitions document.definitions document.span = .ok document := by
  have again {definitions : List Definition} {span : Span}
      (indexed : ofDefinitions definitions span = .ok document) :
      ofDefinitions document.definitions document.span = .ok document := by
    have parts := indexed
    rw [ofDefinitions] at parts
    split at parts
    · cases parts
    · cases parts
      exact indexed
  rw [ofText, ofStream] at read
  split at read
  · cases read
  · rw [ofCursor] at read
    dsimp only at read
    split at read
    · cases read
    · exact again read

/-- A document that was read declares no type twice, and no field twice in an object type. -/
theorem of_text_distinct {text : List Char} {document : Document}
    (read : Document.ofText text = .ok document) :
    document.DistinctTypes ∧ document.DistinctFields := by
  refine ⟨of_definitions_distinct_types (of_text_indexed read), ?_⟩
  have fields := of_text_yields Reader.definition_distinct_fields read
  intro object there
  obtain ⟨definition, inside, typed⟩ := List.mem_filterMap.mp there
  cases definition with
  | type located =>
      obtain ⟨type, span⟩ := located
      cases typed
      exact fields _ inside
  | _ => cases typed

end Document

end GraphQL
