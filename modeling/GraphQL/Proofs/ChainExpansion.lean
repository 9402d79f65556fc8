import GraphQL.Proofs.PossibleTypes
import GraphQL.Proofs.Thinning

/-!
The reference that collecting is measured by.

The reference has no memory of the fragments that were spread. It expands a spread wherever it
counts, except inside the very fragment that it names, so it may expand one fragment many times. It
says in its own words when a selection counts and when a fragment covers an object type. Collecting
marks every fragment it meets, whether that applies or not, and ends up with the same groups.
-/

namespace GraphQL

/-- No skip among directives is true, and no include is false. -/
def RequestScope.Counts (scope : RequestScope) (directives : Directives) : Prop :=
  ∀ directive ∈ directives.getD [],
    (directive.node.name.node = "skip" → scope.condition? directive.node ≠ some true) ∧
      (directive.node.name.node = "include" → scope.condition? directive.node ≠ some false)

/-- An object type belongs to the interfaces it declares and to the unions it is a member of. -/
inductive Schema.BelongsTo (schema : Schema) (objectName abstractName : String) : Prop where
  | interface {object} (defined : .object object ∈ schema.types)
      (named : object.name.node = objectName) (declared : abstractName ∈ object.interfaceNames)
  | union {union} (defined : .union union ∈ schema.types) (named : union.name.node = abstractName)
      (member : objectName ∈ union.members.map (·.node))

/-- A type condition, if there is any, names an object type or what that belongs to. -/
def Schema.Covers (schema : Schema) (objectName : String)
    (condition : Option (Located String)) : Prop :=
  ∀ name ∈ condition, name.node = objectName ∨ schema.BelongsTo objectName name.node

/-- A spread counts, and so does its fragment, which is not within itself. -/
structure Opens (schema : Schema) (scope : RequestScope) (objectName : String)
    (chain : List String) (spread : FragmentSpread) (fragment : Located Fragment) : Prop where
  counts : scope.Counts spread.directives
  fresh : spread.name.node ∉ chain
  found : scope.document.fragment? spread.name.node = some fragment
  inside_counts : scope.Counts fragment.node.directives
  covers : schema.Covers objectName (some fragment.node.typeCondition)

/-- The fields that selections expand to, within a chain of fragments that are being expanded. -/
inductive Expands (schema : Schema) (scope : RequestScope) (objectName : String) :
    List String → List Selection → List (Located Field) → Prop where
  | nil {chain} : Expands schema scope objectName chain [] []
  | field {chain field rest fields} (counts : scope.Counts field.node.directives)
      (others : Expands schema scope objectName chain rest fields) :
      Expands schema scope objectName chain (.field field :: rest) (field :: fields)
  | field_left {chain field rest fields} (left : ¬ scope.Counts field.node.directives)
      (others : Expands schema scope objectName chain rest fields) :
      Expands schema scope objectName chain (.field field :: rest) fields
  | inline {chain condition directives selections span rest inner fields}
      (counts : scope.Counts directives) (covers : schema.Covers objectName condition)
      (inside : Expands schema scope objectName chain selections inner)
      (others : Expands schema scope objectName chain rest fields) :
      Expands schema scope objectName chain
        (.inline ⟨⟨condition, directives, selections⟩, span⟩ :: rest) (inner ++ fields)
  | inline_left {chain condition directives selections span rest fields}
      (left : ¬ (scope.Counts directives ∧ schema.Covers objectName condition))
      (others : Expands schema scope objectName chain rest fields) :
      Expands schema scope objectName chain
        (.inline ⟨⟨condition, directives, selections⟩, span⟩ :: rest) fields
  | spread {chain spread fragment rest inner fields}
      (opens : Opens schema scope objectName chain spread.node fragment)
      (inside : Expands schema scope objectName (spread.node.name.node :: chain)
        fragment.node.selections inner)
      (others : Expands schema scope objectName chain rest fields) :
      Expands schema scope objectName chain (.spread spread :: rest) (inner ++ fields)
  | spread_left {chain spread rest fields}
      (left : ∀ fragment, ¬ Opens schema scope objectName chain spread.node fragment)
      (others : Expands schema scope objectName chain rest fields) :
      Expands schema scope objectName chain (.spread spread :: rest) fields

/--
Groups that hold what selections expand to: the response keys in the order in which they appear
first, each with the first field of that key and with all fields of it.
-/
structure MatchesExpansion (fields : List (Located Field)) (groups : List FieldGroup) : Prop where
  keys : groups.map (·.key) = (fields.map (·.node.responseKey)).eraseDups
  first : ∀ group ∈ groups,
    fields.find? (fun field => field.node.responseKey = group.key) = some group.first
  members : ∀ group ∈ groups, ∀ field,
    field ∈ group.fields ↔ field ∈ fields ∧ field.node.responseKey = group.key

section Conditions

variable (schema : Schema) (scope : RequestScope) (objectName : String)

theorem counts_iff (directives : Directives) :
    scope.includes directives = true ↔ scope.Counts directives := by
  rw [RequestScope.includes, List.all_eq_true, RequestScope.Counts]
  refine forall₂_congr fun directive _ => ?_
  rw [RequestScope.admits]
  by_cases skips : directive.node.name.node = "skip"
  · simp [skips]
  · by_cases includes : directive.node.name.node = "include" <;> simp [skips, includes]

theorem belongs_iff (abstractName : String) :
    schema.isPossibleType abstractName objectName = true ↔
      schema.BelongsTo objectName abstractName := by
  rw [Schema.isPossibleType, Document.isPossibleType, decide_eq_true_iff,
    Document.possible_types_eq, mem_append_new, List.mem_flatMap]
  constructor
  · rintro (none | ⟨type, defined, listed⟩)
    · cases none
    · cases type with
      | object object =>
          rw [Document.possibleIn] at listed
          split at listed
          · rename_i implemented
            exact .interface defined (List.mem_singleton.mp listed).symm
              ((object.implements_iff abstractName).mp implemented)
          · cases listed
      | union union =>
          obtain ⟨named, member⟩ := Document.union_adds listed
          exact .union defined named member
      | _ => cases listed
  · rintro (⟨defined, named, declared⟩ | ⟨defined, named, member⟩)
    · rename_i object
      refine .inr ⟨_, defined, ?_⟩
      rw [Document.possibleIn, if_pos ((object.implements_iff abstractName).mpr declared), named]
      exact List.mem_singleton_self _
    · refine .inr ⟨_, defined, ?_⟩
      rw [Document.possibleIn, if_pos named]
      exact member

theorem covers_iff (condition : Option (Located String)) :
    conditionApplies schema objectName condition = true ↔
      schema.Covers objectName condition := by
  cases condition with
  | none => simp [conditionApplies, Schema.Covers]
  | some condition =>
      have named : condition.node = objectName ∨ schema.BelongsTo objectName condition.node ↔
          schema.applies objectName condition.node = true := by
        rw [Schema.applies, Bool.or_eq_true, beq_iff_eq, belongs_iff, eq_comm]
      simp only [conditionApplies, Schema.Covers, Option.mem_some_iff, forall_eq', named]

end Conditions

section Expanding

variable {schema : Schema} {scope : RequestScope} {objectName : String} {chain : List String}
  {fields : List (Located Field)}

/-- A fragment mentions what its selections do, if it counts and covers the object type. -/
theorem fragment_mentions_covered {name : String} {fragment : Located Fragment}
    (found : scope.document.fragment? name = some fragment)
    (counts : scope.Counts fragment.node.directives)
    (covers : schema.Covers objectName (some fragment.node.typeCondition)) :
    fragmentMentions schema scope objectName name =
      mentions schema scope objectName fragment.node.selections := by
  have applies : schema.applies objectName fragment.node.typeCondition.node = true :=
    (covers_iff schema objectName _).mpr covers
  rw [fragmentMentions, found]
  simp [(counts_iff scope _).mpr counts, applies]

/-- A fragment that does not open outside of itself mentions nothing. -/
theorem fragment_mentions_shut {spread : FragmentSpread} (counts : scope.Counts spread.directives)
    (fresh : spread.name.node ∉ chain)
    (shut : ∀ fragment, ¬ Opens schema scope objectName chain spread fragment) :
    fragmentMentions schema scope objectName spread.name.node = [] := by
  cases found : scope.document.fragment? spread.name.node with
  | none => rw [fragmentMentions, found]
  | some fragment =>
      rw [fragmentMentions, found]
      refine if_neg fun applies => ?_
      obtain ⟨included, applied⟩ := (Bool.and_eq_true_iff ..).mp applies
      exact shut fragment ⟨counts, fresh, found, (counts_iff scope _).mp included,
        (covers_iff schema objectName (some _)).mp applied⟩

/-- What selections expand to is what their mentions unfold to. -/
theorem Expands.unfolds {selections : List Selection}
    (expands : Expands schema scope objectName chain selections fields) :
    Unfolds (fragmentMentions schema scope objectName) chain
      (mentions schema scope objectName selections) fields := by
  induction expands with
  | nil => exact .nil
  | field counts _ ih =>
      rw [mentions, mentionsOne, if_pos ((counts_iff scope _).mpr counts)]
      exact .field ih
  | field_left left _ ih =>
      rw [mentions, mentionsOne, if_neg ((counts_iff scope _).not.mpr left)]
      exact ih
  | inline counts covers _ _ inner others =>
      rw [mentions, mentionsOne, if_pos ((Bool.and_eq_true_iff ..).mpr
        ⟨(counts_iff scope _).mpr counts, (covers_iff schema objectName _).mpr covers⟩)]
      exact inner.append others
  | inline_left left _ ih =>
      rw [mentions, mentionsOne, if_neg]
      · exact ih
      · rw [Bool.and_eq_true_iff, counts_iff, covers_iff]
        exact left
  | spread opens _ _ inner others =>
      rw [mentions, mentionsOne, if_pos ((counts_iff scope _).mpr opens.counts)]
      refine .opened opens.fresh ?_ others
      rw [fragment_mentions_covered opens.found opens.inside_counts opens.covers]
      exact inner
  | spread_left left _ ih =>
      rename_i chain spread rest fields _
      by_cases counts : scope.Counts spread.node.directives
      · rw [mentions, mentionsOne, if_pos ((counts_iff scope _).mpr counts)]
        by_cases expanding : spread.node.name.node ∈ chain
        · exact .blocked expanding ih
        · have inside : Unfolds (fragmentMentions schema scope objectName)
              (spread.node.name.node :: chain)
              (fragmentMentions schema scope objectName spread.node.name.node) [] := by
            rw [fragment_mentions_shut counts expanding left]
            exact .nil
          exact .opened expanding inside ih
      · rw [mentions, mentionsOne, if_neg ((counts_iff scope _).not.mpr counts)]
        exact ih

/-- Selections expand to something if the fragments that they open do. -/
theorem expands_given (given : ∀ spread fragment,
      Opens schema scope objectName chain spread fragment →
        ∃ inner, Expands schema scope objectName (spread.name.node :: chain)
          fragment.node.selections inner) :
    ∀ selections, ∃ fields, Expands schema scope objectName chain selections fields
  | [] => ⟨[], .nil⟩
  | .field field :: rest => by
      obtain ⟨fields, others⟩ := expands_given given rest
      by_cases counts : scope.Counts field.node.directives
      · exact ⟨field :: fields, .field counts others⟩
      · exact ⟨fields, .field_left counts others⟩
  | .inline ⟨⟨condition, directives, selections⟩, span⟩ :: rest => by
      obtain ⟨fields, others⟩ := expands_given given rest
      obtain ⟨inner, inside⟩ := expands_given given selections
      by_cases enters : scope.Counts directives ∧ schema.Covers objectName condition
      · exact ⟨inner ++ fields, .inline enters.1 enters.2 inside others⟩
      · exact ⟨fields, .inline_left enters others⟩
  | .spread spread :: rest => by
      obtain ⟨fields, others⟩ := expands_given given rest
      by_cases enters : ∃ fragment, Opens schema scope objectName chain spread.node fragment
      · obtain ⟨fragment, opens⟩ := enters
        obtain ⟨inner, inside⟩ := given spread.node fragment opens
        exact ⟨inner ++ fields, .spread opens inside others⟩
      · exact ⟨fields, .spread_left (not_exists.mp enters) others⟩

/-- The reference always comes to an end: a chain grows with every fragment, and they run out. -/
theorem expands_total (schema : Schema) (scope : RequestScope) (objectName : String)
    (chain : List String) (selections : List Selection) :
    ∃ fields, Expands schema scope objectName chain selections fields := by
  let names := scope.document.fragmentNames
  induction left : Gathered.unopened names ⟨chain, []⟩ using Nat.strong_induction_on
    generalizing chain selections with
  | _ bound ih =>
      refine expands_given (fun spread fragment opens => ?_) selections
      have fresh : spread.name.node ∉ (⟨chain, []⟩ : Gathered).visited := opens.fresh
      have fewer := Gathered.unopened_mark (Document.mem_fragment_names opens.found) fresh
      exact ih _ (left ▸ fewer) _ _ rfl

end Expanding

/-- Collected groups match what the reference expands to. -/
theorem collected_matches {schema : Schema} {scope : RequestScope} {objectName : String}
    {sets : List (List Selection)} {fields : List (Located Field)}
    (expands : Expands schema scope objectName [] sets.flatten fields) :
    MatchesExpansion fields (collectFields schema scope objectName sets) := by
  have unfolds := expands.unfolds
  have thins : Thins [] fields (fieldsAsked schema scope objectName sets) :=
    fields_asked_thins (.refl sets) (mentions_flatten schema scope objectName sets ▸ unfolds)
  rw [collect_fields_grouped]
  constructor
  · rw [grouped_keys, ← append_new_nothing]
    exact (thins.names _ fun _ absent => by cases absent).symm
  · intro group member
    have held := (thins.filter fun field => field.node.responseKey = group.key).head
    rw [List.head?_filter] at held
    exact held.trans (congrArg List.head? (grouped_fields member)).symm
  · intro group member field
    have met := thins.mem_iff field
    rw [grouped_fields member, List.mem_filter, decide_eq_true_iff]
    simp only [List.not_mem_nil, or_false] at met
    rw [met]

end GraphQL
