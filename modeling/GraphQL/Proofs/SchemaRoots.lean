import GraphQL.Schema.Build

/-!
The roots of accepted schemas.

A schema is accepted only if its root names are those of object types. Adding the fields of
introspection to the query root changes that type alone, and keeps it an object type of its name.
-/

namespace GraphQL

theorem ok_of_to_option {ε α : Type} {result : Except ε α} {value : α}
    (made : result.toOption = some value) : result = .ok value := by
  cases result with
  | error _ => cases made
  | ok _ => exact congrArg Except.ok (Option.some.inj made)

namespace Document

end Document

/-- One object type of the name is changed, and all other definitions stay where they are. -/
theorem update_object_split {name : String} {change : ObjectType → Except SchemaError ObjectType}
    {definitions updated : List Definition}
    (done : updateObject? name change definitions = some (.ok updated)) :
    ∃ before object changed span after,
      definitions = before ++ .type ⟨.object object, span⟩ :: after ∧
        change object = .ok changed ∧
        updated = before ++ .type ⟨.object changed, span⟩ :: after := by
  induction definitions generalizing updated with
  | nil => cases done
  | cons definition rest ih =>
      have passedOver (later : (updateObject? name change rest).map (Except.map (definition :: ·)) =
          some (.ok updated)) : ∃ before object changed span after,
            definition :: rest = before ++ .type ⟨.object object, span⟩ :: after ∧
              change object = .ok changed ∧
              updated = before ++ .type ⟨.object changed, span⟩ :: after := by
        obtain ⟨result, found, mapped⟩ := Option.map_eq_some_iff.mp later
        cases result with
        | error error => cases mapped
        | ok remaining =>
            cases mapped
            obtain ⟨before, object, changed, span, after, rfl, replaced, rfl⟩ := ih found
            exact ⟨definition :: before, object, changed, span, after, rfl, replaced, rfl⟩
      unfold updateObject? at done
      split at done
      · rename_i object span
        split at done
        · cases changed : change object with
          | error error => simp [changed, Except.map] at done
          | ok replacement =>
              simp only [changed, Except.map, Option.some.injEq, Except.ok.injEq] at done
              exact ⟨[], object, replacement, span, rest, rfl, changed, done.symm⟩
        · exact passedOver done
      · exact passedOver done

namespace Introspection

end Introspection

namespace Schema

/-- A schema that was built from a source. -/
def Accepted (schema : Schema) : Prop :=
  ∃ source queryName mutationName, Schema.ofSource source queryName mutationName = .ok schema

/-- What is known of the last steps of building a schema. -/
theorem of_document_accepted {document : Document} {queryName : String}
    {mutationName : Option String} {schema : Schema}
    (built : ofDocument document queryName mutationName = .ok schema) :
    ∃ (merged : Document) (definitions : List Definition),
      document.mergeExtensions document.extensions = .ok merged ∧
        checkRoots merged queryName mutationName = .ok () ∧
        updateObject? queryName Introspection.addEntries merged.definitions =
          some (.ok definitions) ∧
        schema = ⟨{ merged with definitions := definitions }, queryName, mutationName⟩ := by
  rw [ofDocument] at built
  cases merging : document.mergeExtensions document.extensions with
  | error error => simp [merging, bind, Except.bind] at built
  | ok merged =>
      cases referring : merged.checkReferences with
      | error error => simp [merging, referring, bind, Except.bind] at built
      | ok _ =>
          cases rooting : checkRoots merged queryName mutationName with
          | error error => simp [merging, referring, rooting, bind, Except.bind] at built
          | ok _ =>
              simp only [merging, referring, rooting, bind, Except.bind] at built
              cases updating :
                  updateObject? queryName Introspection.addEntries merged.definitions with
              | none => simp [updating] at built
              | some result =>
                  cases result with
                  | error error => simp [updating] at built
                  | ok definitions =>
                      simp only [updating] at built
                      cases built
                      exact ⟨merged, definitions, rfl, rooting, updating, rfl⟩

/-- What is looked up in the schema of a source, once it is found there. -/
theorem found_in_source {source queryName : String} {mutationName : Option String} {α : Type}
    {look : Schema → Option α}
    (found : ((ofSource source queryName mutationName).toOption.bind look).isSome = true) :
    ∃ schema value, ofSource source queryName mutationName = .ok schema ∧
      look schema = some value := by
  obtain ⟨value, looked⟩ := Option.isSome_iff_exists.mp found
  obtain ⟨schema, read, known⟩ := Option.bind_eq_some_iff.mp looked
  exact ⟨schema, value, ok_of_to_option read, known⟩

/-- What is found in the schema of a source is found in an accepted one. -/
theorem accepted_of_found {source queryName : String} {mutationName : Option String} {α : Type}
    {look : Schema → Option α}
    (found : ((ofSource source queryName mutationName).toOption.bind look).isSome = true) :
    ∃ schema value, schema.Accepted ∧ look schema = some value := by
  obtain ⟨schema, value, read, known⟩ := found_in_source found
  exact ⟨schema, value, ⟨source, queryName, mutationName, read⟩, known⟩

end Schema

end GraphQL
