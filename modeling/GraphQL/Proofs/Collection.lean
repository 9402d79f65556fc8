import GraphQL.Execution.Collection
import Mathlib.Data.List.Induction

/-!
Collected groups, seen as one sequence of fields.

The fields that selections ask for can be listed in the order in which they are met, with fragments
expanded in place. Grouping that sequence by response key gives the collected groups. So every group
holds exactly the fields of its key, no key has two groups, and the groups stand in the order in
which their keys appear first.
-/

namespace GraphQL

/-- The fields met so far, and the names of the fragments that were spread. -/
structure Gathered where
  visited : List String
  fields : List (Located Field)

/-- The groups of a sequence of fields. -/
def grouped (fields : List (Located Field)) : List FieldGroup :=
  fields.foldl (fun groups field => addToGroups field groups) []

/-- What has been collected once some fields have been met. -/
def Gathered.collected (gathered : Gathered) : Collected where
  visited := gathered.visited
  groups := grouped gathered.fields

/-- Meets the fields of a spread fragment, unless it was spread before. -/
def gatherSpread (schema : Schema) (scope : RequestScope) (objectName : String)
    (expand : List Selection → Gathered → Gathered) (spread : FragmentSpread)
    (gathered : Gathered) : Gathered :=
  let name := spread.name.node
  if !scope.includes spread.directives || decide (name ∈ gathered.visited) then gathered
  else
    let marked : Gathered := ⟨name :: gathered.visited, gathered.fields⟩
    match scope.document.fragment? name with
    | none => marked
    | some fragment =>
        if scope.includes fragment.node.directives &&
            schema.applies objectName fragment.node.typeCondition.node then
          expand fragment.node.selections marked
        else marked

mutual

/-- Meets the fields of selections in turn, given how named fragments are expanded. -/
def gatherWith (schema : Schema) (scope : RequestScope) (objectName : String)
    (expand : List Selection → Gathered → Gathered) : List Selection → Gathered → Gathered
  | [], gathered => gathered
  | selection :: rest, gathered =>
      gatherWith schema scope objectName expand rest
        (gatherOne schema scope objectName expand selection gathered)

/-- Meets the fields of one selection. -/
def gatherOne (schema : Schema) (scope : RequestScope) (objectName : String)
    (expand : List Selection → Gathered → Gathered) : Selection → Gathered → Gathered
  | .field field, gathered =>
      if scope.includes field.node.directives then
        { gathered with fields := gathered.fields ++ [field] }
      else gathered
  | .spread spread, gathered =>
      gatherSpread schema scope objectName expand spread.node gathered
  | .inline ⟨⟨condition, directives, selections⟩, _⟩, gathered =>
      if scope.includes directives && conditionApplies schema objectName condition then
        gatherWith schema scope objectName expand selections gathered
      else gathered

end

/-- Meets fields with at most so many expansions within each other. -/
def gatherWithin (schema : Schema) (scope : RequestScope) (objectName : String) :
    Nat → List Selection → Gathered → Gathered
  | 0 => gatherWith schema scope objectName fun _ gathered => gathered
  | depth + 1 => gatherWith schema scope objectName (gatherWithin schema scope objectName depth)

/-- The fields that selection sets ask of an object type, in the order in which they are met. -/
def fieldsAsked (schema : Schema) (scope : RequestScope) (objectName : String)
    (selectionSets : List (List Selection)) : List (Located Field) :=
  (selectionSets.foldl
    (fun gathered selections =>
      gatherWithin schema scope objectName scope.document.fragments.length selections gathered)
    ⟨[], []⟩).fields

theorem grouped_append_one (fields : List (Located Field)) (field : Located Field) :
    grouped (fields ++ [field]) = addToGroups field (grouped fields) := by
  simp [grouped, List.foldl_append]

section Grouping

variable {schema : Schema} {scope : RequestScope} {objectName : String}
  {expand : List Selection → Collected → Collected} {meet : List Selection → Gathered → Gathered}

theorem spread_into_collected
    (alike : ∀ selections gathered,
      expand selections gathered.collected = (meet selections gathered).collected)
    (spread : FragmentSpread) (gathered : Gathered) :
    spreadInto schema scope objectName expand spread gathered.collected =
      (gatherSpread schema scope objectName meet spread gathered).collected := by
  rw [spreadInto, gatherSpread]
  have visited : gathered.collected.visited = gathered.visited := rfl
  simp only [visited]
  split
  · rfl
  · cases scope.document.fragment? spread.name.node with
    | none => rfl
    | some fragment =>
        dsimp only
        split
        · exact alike fragment.node.selections
            ⟨spread.name.node :: gathered.visited, gathered.fields⟩
        · rfl

mutual

theorem collect_with_collected
    (alike : ∀ selections gathered,
      expand selections gathered.collected = (meet selections gathered).collected) :
    ∀ (selections : List Selection) (gathered : Gathered),
      collectWith schema scope objectName expand selections gathered.collected =
        (gatherWith schema scope objectName meet selections gathered).collected
  | [], gathered => by rw [collectWith, gatherWith]
  | selection :: rest, gathered => by
      rw [collectWith, gatherWith, collect_one_collected alike selection gathered]
      exact collect_with_collected alike rest _

theorem collect_one_collected
    (alike : ∀ selections gathered,
      expand selections gathered.collected = (meet selections gathered).collected) :
    ∀ (selection : Selection) (gathered : Gathered),
      collectOne schema scope objectName expand selection gathered.collected =
        (gatherOne schema scope objectName meet selection gathered).collected
  | .field field, gathered => by
      rw [collectOne, gatherOne]
      split
      · simp only [Gathered.collected, grouped_append_one]
      · rfl
  | .spread spread, gathered => by
      rw [collectOne, gatherOne]
      exact spread_into_collected alike spread.node gathered
  | .inline ⟨⟨condition, directives, selections⟩, _⟩, gathered => by
      rw [collectOne, gatherOne]
      split
      · exact collect_with_collected alike selections gathered
      · rfl

end

theorem collect_within_collected (depth : Nat) (selections : List Selection) (gathered : Gathered) :
    collectWithin schema scope objectName depth selections gathered.collected =
      (gatherWithin schema scope objectName depth selections gathered).collected := by
  induction depth generalizing selections gathered with
  | zero => exact collect_with_collected (fun _ _ => rfl) selections gathered
  | succ depth ih => exact collect_with_collected ih selections gathered

end Grouping

/-- Collecting is grouping the fields in the order in which they are met. -/
theorem collect_fields_grouped (schema : Schema) (scope : RequestScope) (objectName : String)
    (selectionSets : List (List Selection)) :
    collectFields schema scope objectName selectionSets =
      grouped (fieldsAsked schema scope objectName selectionSets) := by
  have step (sets : List (List Selection)) (gathered : Gathered) :
      sets.foldl (fun collected selections =>
          collectWithin schema scope objectName scope.document.fragments.length selections
            collected)
          gathered.collected =
        (sets.foldl (fun gathered selections =>
          gatherWithin schema scope objectName scope.document.fragments.length selections gathered)
          gathered).collected := by
    induction sets generalizing gathered with
    | nil => rfl
    | cons selections rest ih =>
        simp only [List.foldl_cons]
        rw [collect_within_collected]
        exact ih _
  exact congrArg Collected.groups (step selectionSets ⟨[], []⟩)

theorem append_new_one (names : List String) (name : String) :
    appendNew names [name] = if name ∈ names then names else names ++ [name] := rfl

theorem append_new_append (names more rest : List String) :
    appendNew names (more ++ rest) = appendNew (appendNew names more) rest := by
  simp [appendNew, List.foldl_append]

theorem append_new_nodup {names : List String} (distinct : names.Nodup) (more : List String) :
    (appendNew names more).Nodup := by
  induction more generalizing names with
  | nil => exact distinct
  | cons name rest ih =>
      have one := append_new_append names [name] rest
      rw [List.singleton_append] at one
      rw [one, append_new_one]
      split
      · exact ih distinct
      · rename_i fresh
        have apart : ∀ other ∈ names, other ≠ name := by
          intro other found same
          exact fresh (same ▸ found)
        have longer : (names ++ [name]).Nodup := by
          simpa [List.nodup_append] using ⟨distinct, apart⟩
        exact ih longer

theorem mem_append_new (name : String) (names more : List String) :
    name ∈ appendNew names more ↔ name ∈ names ∨ name ∈ more := by
  induction more generalizing names with
  | nil => simp [appendNew]
  | cons other rest ih =>
      have one := append_new_append names [other] rest
      rw [List.singleton_append] at one
      rw [one, ih, append_new_one]
      split
      · rename_i found
        constructor
        · rintro (inside | inside)
          · exact .inl inside
          · exact .inr (List.mem_cons_of_mem _ inside)
        · rintro (inside | inside)
          · exact .inl inside
          · rcases List.mem_cons.mp inside with rfl | inside
            · exact .inl found
            · exact .inr inside
      · simp [or_assoc]

theorem add_to_groups_keys (field : Located Field) (groups : List FieldGroup) :
    (addToGroups field groups).map (·.key) =
      appendNew (groups.map (·.key)) [field.node.responseKey] := by
  induction groups with
  | nil => rfl
  | cons group rest ih =>
      rw [addToGroups]
      by_cases same : group.key = field.node.responseKey
      · simp [same, append_new_one]
      · simp only [if_neg same, List.map_cons, ih, append_new_one, List.mem_cons,
          Ne.symm same, false_or]
        split <;> simp

/-- The keys of the groups are those of the fields, each where it appears first. -/
theorem grouped_keys (fields : List (Located Field)) :
    (grouped fields).map (·.key) = appendNew [] (fields.map (·.node.responseKey)) := by
  induction fields using List.reverseRecOn with
  | nil => rfl
  | append_singleton fields field ih =>
      rw [grouped_append_one, add_to_groups_keys, ih, List.map_append, append_new_append]
      rfl

theorem grouped_keys_nodup (fields : List (Located Field)) :
    ((grouped fields).map (·.key)).Nodup := by
  rw [grouped_keys]
  exact append_new_nodup List.nodup_nil _

theorem mem_add_to_groups {field : Located Field} {groups : List FieldGroup} {group : FieldGroup}
    (distinct : (groups.map (·.key)).Nodup) (member : group ∈ addToGroups field groups) :
    (group ∈ groups ∧ group.key ≠ field.node.responseKey) ∨
      (∃ old ∈ groups, old.key = field.node.responseKey ∧
        group = { old with others := old.others ++ [field] }) ∨
      (field.node.responseKey ∉ groups.map (·.key) ∧
        group = ⟨field.node.responseKey, field, []⟩) := by
  induction groups with
  | nil => simpa [addToGroups] using member
  | cons head rest ih =>
      rw [addToGroups] at member
      rw [List.map_cons, List.nodup_cons] at distinct
      by_cases same : head.key = field.node.responseKey
      · rw [if_pos same] at member
        rcases List.mem_cons.mp member with rfl | inside
        · exact .inr (.inl ⟨head, by simp, same, rfl⟩)
        · refine .inl ⟨List.mem_cons_of_mem _ inside, fun again => distinct.1 ?_⟩
          rw [same, ← again]
          exact List.mem_map_of_mem inside
      · rw [if_neg same] at member
        rcases List.mem_cons.mp member with rfl | inside
        · exact .inl ⟨by simp, same⟩
        · rcases ih distinct.2 inside with ⟨found, other⟩ | ⟨old, found, merged⟩ | ⟨fresh, new⟩
          · exact .inl ⟨List.mem_cons_of_mem _ found, other⟩
          · exact .inr (.inl ⟨old, List.mem_cons_of_mem _ found, merged⟩)
          · exact .inr (.inr ⟨by simpa using ⟨Ne.symm same, by simpa using fresh⟩, new⟩)

/-- A group holds the fields of its key, in the order in which they were met. -/
theorem grouped_fields {fields : List (Located Field)} {group : FieldGroup}
    (member : group ∈ grouped fields) :
    group.fields = fields.filter fun field => field.node.responseKey = group.key := by
  induction fields using List.reverseRecOn generalizing group with
  | nil => cases member
  | append_singleton fields field ih =>
      rw [grouped_append_one] at member
      rw [List.filter_append]
      rcases mem_add_to_groups (grouped_keys_nodup fields) member with
        ⟨found, other⟩ | ⟨old, found, same, rfl⟩ | ⟨fresh, rfl⟩
      · rw [ih found]
        simp [Ne.symm other]
      · have before := ih found
        simp only [FieldGroup.fields] at before ⊢
        rw [← before, ← List.cons_append]
        simp [same]
      · rw [grouped_keys, mem_append_new] at fresh
        have none_before : fields.filter (fun other =>
            other.node.responseKey = field.node.responseKey) = [] := by
          rw [List.filter_eq_nil_iff]
          intro other found same
          exact fresh (.inr (List.mem_map.mpr ⟨other, found, of_decide_eq_true same⟩))
        simp [FieldGroup.fields, none_before]

theorem grouped_member_met {fields : List (Located Field)} {group : FieldGroup}
    {field : Located Field} (member : group ∈ grouped fields) (inside : field ∈ group.fields) :
    field ∈ fields ∧ field.node.responseKey = group.key := by
  rw [grouped_fields member, List.mem_filter] at inside
  exact ⟨inside.1, of_decide_eq_true inside.2⟩

end GraphQL
