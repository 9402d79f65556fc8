import GraphQL.Proofs.Derivation
import GraphQL.Proofs.Walk

/-!
Collecting from selections that follow each other.

The fragments that the first selections open stay closed for the second ones. That hides nothing as
long as no field is asked for by both: whatever the first walk opened was met in full, so a second
walk that starts afresh finds nothing in it. The groups of a concatenation are then those of the
first part followed by those of the second.
-/

namespace GraphQL

/-- A field is mentioned, be it through fragments. -/
inductive Reaches (content : String → List Mention) (field : Located Field) :
    List Mention → Prop where
  | here {list} (member : Mention.field field ∈ list) : Reaches content field list
  | through {list name} (member : Mention.fragment name ∈ list)
      (deeper : Reaches content field (content name)) : Reaches content field list

namespace Reaches

variable {content : String → List Mention} {field : Located Field}

theorem mono {list more : List Mention} (reached : Reaches content field list)
    (contained : ∀ mention ∈ list, mention ∈ more) : Reaches content field more := by
  cases reached with
  | here member => exact .here (contained _ member)
  | through member deeper => exact .through (contained _ member) deeper

/-- What all was closed over holds every field that it reaches. -/
theorem met {gathered : Gathered} (closed : gathered.Closed content []) {list : List Mention}
    (had : ∀ mention ∈ list, gathered.Has mention) (reached : Reaches content field list) :
    field ∈ gathered.fields := by
  induction reached with
  | here member => exact had _ member
  | through member _ ih => exact ih (closed _ (had _ member) List.not_mem_nil)

end Reaches

/--
A walk with something behind it, and one without that. What is behind was opened and met by the
first alone.
-/
structure Alongside (behind onward afresh : Gathered) : Prop where
  visited : ∀ name, name ∈ onward.visited ↔ name ∈ afresh.visited ∨ name ∈ behind.visited
  fields : onward.fields = behind.fields ++ afresh.fields

namespace Alongside

variable {content : String → List Mention} {behind onward afresh : Gathered}

/-- Opening what is behind changes nothing. -/
theorem mark_known (along : Alongside behind onward afresh) {name : String}
    (known : name ∈ behind.visited) :
    Alongside behind onward ⟨name :: afresh.visited, afresh.fields⟩ where
  visited other := by
    rw [along.visited, List.mem_cons]
    constructor
    · rintro (opened | before)
      · exact .inl (.inr opened)
      · exact .inr before
    · rintro ((rfl | opened) | before)
      · exact .inr known
      · exact .inl opened
      · exact .inr before
  fields := along.fields

theorem mark_both (along : Alongside behind onward afresh) (name : String) :
    Alongside behind ⟨name :: onward.visited, onward.fields⟩
      ⟨name :: afresh.visited, afresh.fields⟩ where
  visited other := by
    rw [List.mem_cons, List.mem_cons, along.visited, or_assoc]
  fields := along.fields

theorem meet_both (along : Alongside behind onward afresh) (field : Located Field) :
    Alongside behind { onward with fields := onward.fields ++ [field] }
      { afresh with fields := afresh.fields ++ [field] } where
  visited := along.visited
  fields := by rw [along.fields, List.append_assoc]

/-- No field that is behind is reached again. -/
def Apart (content : String → List Mention) (behind : Gathered) (list : List Mention) : Prop :=
  ∀ field ∈ behind.fields, ¬ Reaches content field list

theorem apart_within {list : List Mention} {name : String} (apart : Apart content behind list)
    (member : Mention.fragment name ∈ list) : Apart content behind (content name) :=
  fun field met reached => apart field met (.through member reached)

theorem apart_rest {mention : Mention} {rest : List Mention}
    (apart : Apart content behind (mention :: rest)) : Apart content behind rest :=
  fun field met reached =>
    apart field met (reached.mono fun _ member => List.mem_cons_of_mem _ member)

/-- Steps along what is behind meet nothing, if nothing is met where they go into fragments. -/
theorem still_steps {expand : String → Gathered → Gathered}
    (enters : ∀ name ∈ behind.visited, Apart content behind (content name) →
      ∀ {afresh}, Alongside behind onward afresh → Alongside behind onward (expand name afresh))
    {list : List Mention} (had : ∀ mention ∈ list, behind.Has mention)
    (apart : Apart content behind list) (along : Alongside behind onward afresh) :
    Alongside behind onward (walkWith expand list afresh) := by
  induction list generalizing afresh with
  | nil => exact along
  | cons mention rest ih =>
      have others : ∀ mention ∈ rest, behind.Has mention :=
        fun other member => had other (List.mem_cons_of_mem _ member)
      apply ih others (apart_rest apart)
      cases mention with
      | field field =>
          have met : field ∈ behind.fields := had _ List.mem_cons_self
          exact absurd (.here List.mem_cons_self) (apart field met)
      | fragment name =>
          have opened : name ∈ behind.visited := had _ List.mem_cons_self
          rw [meet]
          split
          · exact along
          · exact enters name opened (apart_within apart List.mem_cons_self)
              (along.mark_known opened)

/-- A walk along what is already behind meets nothing. -/
theorem still (closed : behind.Closed content []) {depth : Nat} {list : List Mention}
    (had : ∀ mention ∈ list, behind.Has mention) (apart : Apart content behind list)
    (along : Alongside behind onward afresh) :
    Alongside behind onward (walk content depth list afresh) := by
  induction depth generalizing list afresh with
  | zero => exact still_steps (fun _ _ _ {_} along => along) had apart along
  | succ depth ih =>
      refine still_steps (fun name opened apart {_} along => ?_) had apart along
      exact ih (closed name opened List.not_mem_nil) apart along

/-- Steps taken by both walks keep them alongside, if going into fragments does. -/
theorem both_steps {expand : String → Gathered → Gathered}
    (enters : ∀ name, Apart content behind (content name) → ∀ {onward afresh},
      Alongside behind onward afresh →
        Alongside behind (expand name onward) (expand name afresh))
    (passes : ∀ name ∈ behind.visited, Apart content behind (content name) →
      ∀ {onward afresh}, Alongside behind onward afresh →
        Alongside behind onward (expand name afresh))
    {list : List Mention} (apart : Apart content behind list)
    (along : Alongside behind onward afresh) :
    Alongside behind (walkWith expand list onward) (walkWith expand list afresh) := by
  induction list generalizing onward afresh with
  | nil => exact along
  | cons mention rest ih =>
      apply ih (apart_rest apart)
      cases mention with
      | field field => exact along.meet_both field
      | fragment name =>
          have apart_inside := apart_within apart List.mem_cons_self
          rw [meet, meet]
          by_cases opened : name ∈ afresh.visited
          · rw [if_pos opened, if_pos ((along.visited name).mpr (.inl opened))]
            exact along
          · by_cases known : name ∈ behind.visited
            · rw [if_neg opened, if_pos ((along.visited name).mpr (.inr known))]
              exact passes name known apart_inside (along.mark_known known)
            · rw [if_neg opened,
                if_neg fun seen => ((along.visited name).mp seen).elim opened known]
              exact enters name apart_inside (along.mark_both name)

/-- Two walks along the same mentions meet the same fields, whatever is behind the first. -/
theorem both (closed : behind.Closed content []) {depth : Nat} {list : List Mention}
    (apart : Apart content behind list) (along : Alongside behind onward afresh) :
    Alongside behind (walk content depth list onward) (walk content depth list afresh) := by
  induction depth generalizing list onward afresh with
  | zero =>
      exact both_steps (fun _ _ {_ _} along => along) (fun _ _ _ {_ _} along => along) apart along
  | succ depth ih =>
      refine both_steps (fun name apart {_ _} along => ?_) (fun name opened apart {_ _} along => ?_)
        apart along
      · exact ih apart along
      · exact still closed (closed name opened List.not_mem_nil) apart along

end Alongside

section Splitting

variable {schema : Schema} {scope : RequestScope} {objectName : String}

/-- Fields that are asked for one after the other, where the two share no response key. -/
theorem fields_asked_append {first second : List (List Selection)}
    (apart : ∀ field ∈ fieldsAsked schema scope objectName first,
      ∀ other ∈ fieldsAsked schema scope objectName second,
        field.node.responseKey ≠ other.node.responseKey) :
    fieldsAsked schema scope objectName (first ++ second) =
      fieldsAsked schema scope objectName first ++
        fieldsAsked schema scope objectName second := by
  have before := gathered_from_walked schema scope objectName first
  have after := gathered_from_walked schema scope objectName second
  simp only [fields_asked_walk] at apart ⊢
  have unshared : Alongside.Apart (fragmentMentions schema scope objectName)
      (gatheredFrom schema scope objectName first)
      (second.flatMap (mentions schema scope objectName)) :=
    fun field met reached => apart field met field (reached.met after.closed after.has) rfl
  have start : Alongside (gatheredFrom schema scope objectName first)
      (gatheredFrom schema scope objectName first) ⟨[], []⟩ :=
    ⟨fun name => by simp, by simp⟩
  rw [gatheredFrom, List.flatMap_append, walk_append]
  exact (Alongside.both before.closed unshared start).fields

end Splitting

theorem add_to_groups_append {field : Located Field} {groups more : List FieldGroup}
    (fresh : ∀ group ∈ groups, group.key ≠ field.node.responseKey) :
    addToGroups field (groups ++ more) = groups ++ addToGroups field more := by
  induction groups with
  | nil => rfl
  | cons group rest ih =>
      rw [List.cons_append, addToGroups, if_neg (fresh group List.mem_cons_self),
        ih fun other member => fresh other (List.mem_cons_of_mem _ member), List.cons_append]

/-- Fields without a common response key are grouped separately. -/
theorem grouped_append {first second : List (Located Field)}
    (apart : ∀ field ∈ first, ∀ other ∈ second,
      field.node.responseKey ≠ other.node.responseKey) :
    grouped (first ++ second) = grouped first ++ grouped second := by
  induction second using List.reverseRecOn with
  | nil => rw [List.append_nil, grouped, grouped, List.foldl_nil, List.append_nil]
  | append_singleton second field ih =>
      have others := ih fun one member other inside =>
        apart one member other (List.mem_append_left _ inside)
      have fresh : ∀ group ∈ grouped first, group.key ≠ field.node.responseKey := by
        intro group member
        have met := grouped_member_met member List.mem_cons_self
        rw [← met.2]
        exact apart _ met.1 field (by simp)
      rw [← List.append_assoc, grouped_append_one, others, add_to_groups_append fresh,
        ← grouped_append_one]

/-- The groups of a response key that some fields have. -/
theorem key_of_asked {fields : List (Located Field)} {field : Located Field}
    (member : field ∈ fields) : field.node.responseKey ∈ (grouped fields).map (·.key) := by
  rw [grouped_keys, mem_append_new]
  exact .inr (List.mem_map_of_mem member)

/-- The groups of selections in a row, where the two share no response key. -/
theorem Executor.groups_below_append {σ : Type} (executor : Executor σ) (scope : RequestScope)
    (object : ObjectType) {first second : List (List Selection)}
    (apart : ∀ key ∈ (executor.groupsBelow scope object first).map (·.key),
      key ∉ (executor.groupsBelow scope object second).map (·.key)) :
    executor.groupsBelow scope object (first ++ second) =
      executor.groupsBelow scope object first ++ executor.groupsBelow scope object second := by
  simp only [Executor.groupsBelow, collect_fields_grouped] at apart ⊢
  have unshared : ∀ field ∈ fieldsAsked executor.schema scope object.name.node first,
      ∀ other ∈ fieldsAsked executor.schema scope object.name.node second,
        field.node.responseKey ≠ other.node.responseKey := by
    intro field asked other asked' same
    apply apart _ (key_of_asked asked)
    rw [same]
    exact key_of_asked asked'
  rw [fields_asked_append unshared, grouped_append unshared]

/-- Selections in a row mention what two selection sets do. -/
theorem Executor.groups_below_joined {σ : Type} (executor : Executor σ) (scope : RequestScope)
    (object : ObjectType) (first second : List Selection) :
    executor.groupsBelow scope object [first ++ second] =
      executor.groupsBelow scope object ([first] ++ [second]) := by
  simp only [Executor.groupsBelow, collect_fields_grouped, fields_asked_walk, gatheredFrom,
    List.flatMap_cons, List.flatMap_nil, List.flatMap_append, mentions_append, List.append_nil]

end GraphQL
