import GraphQL.Proofs.Inlining
import GraphQL.Proofs.Rewriting

/-!
Neighbouring fields of one response key, merged.

Fields of one response key form one group, of which the first field alone is resolved. What is
selected below the others is only added to what is selected below it. So two fields that stand next
to each other can as well be written as one, whatever name and arguments the second one has.
-/

namespace GraphQL

/-- A field with the selections of another one behind its own. -/
def Field.merging (other field : Field) : Field :=
  { field with
    selections :=
      match field.selections, other.selections with
      | none, none => none
      | _, _ => some (field.selections.getD [] ++ other.selections.getD []) }

/-- Two neighbouring fields of the same response key, without directives, become the first one. -/
inductive MergesNeighbours : List Selection → List Selection → Prop where
  | intro {field other : Located Field} (plain : field.node.directives = none)
      (other_plain : other.node.directives = none)
      (same : field.node.responseKey = other.node.responseKey) :
      MergesNeighbours [.field field, .field other]
        [.field (field.map (Field.merging other.node))]

theorem merged_below (other field : Field) :
    (Field.merging other field).selections.getD [] =
      field.selections.getD [] ++ other.selections.getD [] := by
  rw [Field.merging]
  cases field.selections <;> cases other.selections <;> rfl

/-- Two fields of one response key group like the first one with all that is selected below them. -/
theorem merged_regroups {field other : Located Field}
    (same : field.node.responseKey = other.node.responseKey) :
    Regroups (Rewritten MergesNeighbours) [field, other]
      [field.map (Field.merging other.node)] := by
  have key_kept : (field.map (Field.merging other.node)).node.responseKey =
      field.node.responseKey := rfl
  have both (key : String) : fieldsOf key [field, other] =
      if field.node.responseKey = key then [field, other] else [] := by
    by_cases chosen : field.node.responseKey = key <;> simp [fieldsOf, chosen, ← same]
  refine ⟨fun names => ?_, fun key => ?_, fun key => ?_⟩
  · have known : field.node.responseKey ∈ appendNew names [field.node.responseKey] :=
      (mem_append_new _ _ _).mpr (.inr List.mem_cons_self)
    have again := append_new_append names [field.node.responseKey] [field.node.responseKey]
    rw [append_new_one (appendNew names [field.node.responseKey]), if_pos known] at again
    rw [List.map_cons, List.map_singleton, List.map_singleton, key_kept, ← same]
    exact again
  all_goals
    rw [both, fields_of_single, key_kept]
    split
  · rfl
  · rfl
  · have below : selectedBelow [field.map (Field.merging other.node)] =
        selectedBelow [field, other] := by
      have written := merged_below other.node field.node
      simpa [selectedBelow, Located.map] using written
    rw [below]
    exact .refl _
  · exact .nil

theorem merging_keeps_mentions (schema : Schema) (scope : RequestScope) (objectName : String) :
    KeepsMentions MergesNeighbours schema scope objectName := by
  intro before after step
  cases step with
  | @intro field other plain other_plain same =>
      have kept_plain : (field.map (Field.merging other.node)).node.directives = none :=
        plain
      have included : scope.includes none = true := rfl
      rw [mentions, mentions, mentions, mentions, mentions, mentionsOne, mentionsOne, mentionsOne,
        plain, other_plain, kept_plain, included, if_pos rfl, if_pos rfl, if_pos rfl]
      exact MentionsAlike.run (merged_regroups same)

/--
Merging neighbouring fields of one response key, at any depth of operations and fragments and as
often as one likes, changes nothing about responses. The executions end in the same journal too, so
a context that records the calls of callbacks has the same record.
-/
theorem merging_neighbours_keeps_responses {σ : Type} (executor : Executor σ)
    (nearsighted : executor.Nearsighted) (document other : Document)
    (merged : document.Rewritten MergesNeighbours other) :
    executor.AnswersAlike document other :=
  merged.answers_alike nearsighted fun values =>
    merging_keeps_mentions executor.schema ⟨document, values⟩

/-- A field under the response key of the dogs, which are not what it asks for. -/
def otherDogs : Located Field :=
  .unplaced ⟨some (.unplaced "dogs"), .unplaced "puppies", none, none,
    some [kennelField "__typename" none]⟩

def kennelDogs : Located Field :=
  .unplaced ⟨none, .unplaced "dogs", none, none, some [kennelField "name" none]⟩

/-- A request whose fragment asks for the dogs twice. -/
def dogsTwice : Document where
  definitions :=
    [.operation (kennelTour.map (Operation.selecting
        [kennelField "name" none, kennelSpread "Dogs", kennelSpread "Dogs"])),
      kennelFragment "Dogs" "Kennel" [.field kennelDogs, .field otherDogs]]
  span := .unplaced

/-- The same with the dogs asked for once. -/
def dogsMerged : Document where
  definitions :=
    [.operation (kennelTour.map (Operation.selecting
        [kennelField "name" none, kennelSpread "Dogs", kennelSpread "Dogs"])),
      kennelFragment "Dogs" "Kennel" [.field (kennelDogs.map (Field.merging otherDogs.node))]]
  span := .unplaced

theorem dogs_merge : dogsTwice.Rewritten MergesNeighbours dogsMerged := by
  have step : MergesNeighbours [.field kennelDogs, .field otherDogs]
      [.field (kennelDogs.map (Field.merging otherDogs.node))] := .intro rfl rfl rfl
  exact .cons (.same _) (.cons (.fragment (.run step .nil)) .nil)

/-- Both requests are answered with the names of the dogs, of which one has none. -/
theorem dogs_answered_as_merged :
    dogsTwice.Rewritten MergesNeighbours dogsMerged ∧ kennel.AnswersAlike dogsTwice dogsMerged ∧
      ∃ operation later, dogsMerged.selectOperation none = .ok operation ∧
        kennel.executeOperation (kennel.runWithin 2) dogsMerged operation kennelRoot [] ⟨(), []⟩ =
          some (.ok (.object [("name", .string "Elm"), ("dogs", .null)]), later) :=
  ⟨dogs_merge, merging_neighbours_keeps_responses kennel kennel_nearsighted dogsTwice dogsMerged
    dogs_merge, _, _, rfl, rfl⟩

end GraphQL
