import GraphQL.Proofs.SchemaRoots
import GraphQL.Proofs.Yields

/-!
The input objects of accepted schemas.

Building a schema changes object types alone. So its input objects are as the reader left them, and
the reader takes no field name twice.
-/

namespace GraphQL

/-- A definition that building a schema does not touch. -/
def Definition.Untouched (definition : Definition) : Prop :=
  ∀ object span, definition ≠ .type ⟨.object object, span⟩

theorem update_object_untouched {name : String}
    {change : ObjectType → Except SchemaError ObjectType} {definitions updated : List Definition}
    (done : updateObject? name change definitions = some (.ok updated)) :
    ∀ definition ∈ updated, definition.Untouched → definition ∈ definitions := by
  obtain ⟨before, object, changed, span, after, rfl, -, rfl⟩ := update_object_split done
  intro definition member untouched
  rcases List.mem_append.mp member with earlier | later
  · exact List.mem_append_left _ earlier
  · rcases List.mem_cons.mp later with rfl | later
    · exact absurd rfl (untouched changed span)
    · exact List.mem_append_right _ (List.mem_cons_of_mem _ later)

theorem Document.merge_extensions_untouched {extensions : List (Located ObjectType)}
    {document merged : Document} (done : document.mergeExtensions extensions = .ok merged) :
    ∀ definition ∈ merged.definitions, definition.Untouched →
      definition ∈ document.definitions := by
  induction extensions generalizing document with
  | nil =>
      cases done
      exact fun _ member _ => member
  | cons extension rest ih =>
      rw [mergeExtensions] at done
      cases step : document.mergeExtension extension.node with
      | error error => simp [step] at done
      | ok changed =>
          simp only [step] at done
          intro definition member untouched
          have before := ih done definition member untouched
          rw [mergeExtension] at step
          split at step
          · cases step
          · cases step
          · rename_i definitions updated
            cases step
            exact update_object_untouched updated definition before untouched

/-- Types of an accepted schema that are no object types stand in a document that was read. -/
theorem Schema.accepted_type_read {schema : Schema} (accepted : schema.Accepted) {name : String}
    {type : TypeDefinition} (found : schema.type? name = some type)
    (unchanged : ∀ object, type ≠ .object object) :
    ∃ text document span, Document.ofText text = .ok document ∧
      Definition.type ⟨type, span⟩ ∈ document.definitions := by
  obtain ⟨source, queryName, mutationName, built⟩ := accepted
  rw [ofSource, ofText] at built
  cases read : Document.ofText (fullText source.toList) with
  | error error => simp [read] at built
  | ok document =>
      simp only [read] at built
      obtain ⟨merged, definitions, merging, -, updated, rfl⟩ := of_document_accepted built
      obtain ⟨definition, inside, typed⟩ := List.mem_filterMap.mp (List.mem_of_find?_eq_some found)
      cases definition with
      | type located =>
          cases typed
          have untouched : (Definition.type located).Untouched := fun object span same =>
            unchanged object (by rw [Definition.type.inj same])
          have before := update_object_untouched updated _ inside untouched
          exact ⟨_, document, located.span, read,
            Document.merge_extensions_untouched merging _ before untouched⟩
      | _ => cases typed

/-- If a definition is an input object, each of its fields has a name of its own. -/
def Definition.DistinctInputs : Definition → Prop
  | .type ⟨.inputObject input, _⟩ => (input.fields.map fun field => field.node.name.node).Nodup
  | _ => True

namespace Reader

theorem input_object_type_distinct (description : Option String) :
    Yields (inputObjectType description) fun input =>
      (input.node.fields.map fun field => field.node.name.node).Nodup := by
  rw [inputObjectType]
  apply Yields.after
  intro keyword
  apply Yields.after
  intro typeName
  have distinct : Yields (inputDefinitions .braceOpen .braceClose .inputField) fun list =>
      (list.node.map fun field => field.node.name.node).Nodup := by
    rw [inputDefinitions]
    apply Yields.after
    intro list
    apply (reject_repeats_yields _ _).bind
    intro _ distinct
    rw [List.map_map] at distinct
    exact .pure distinct
  apply distinct.bind
  intro fields nodup
  exact .pure nodup

theorem definition_distinct : Yields definition Definition.DistinctInputs := by
  rw [definition]
  apply Yields.after
  intro description
  apply Yields.after
  intro found
  split
  -- An input object is read in one of the cases only.
  case h_10 =>
    apply (input_object_type_distinct description).bind
    intro input distinct
    exact .pure distinct
  case h_12 => exact .fail
  case h_13 => exact .reject
  all_goals exact .after fun _ => .pure trivial

end Reader

theorem Schema.accepted_distinct_inputs {schema : Schema} (accepted : schema.Accepted)
    {name : String} {input : InputObjectType}
    (found : schema.type? name = some (.inputObject input)) :
    (input.fields.map fun field => field.node.name.node).Nodup := by
  obtain ⟨text, document, span, read, inside⟩ :=
    schema.accepted_type_read accepted found (by simp)
  exact Document.of_text_yields Reader.definition_distinct read _ inside

end GraphQL
