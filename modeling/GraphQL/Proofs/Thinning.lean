import GraphQL.Proofs.Walk

/-!
Collecting, compared with expanding every spread.

A reference expands a spread wherever it is met, unless that fragment is being expanded already. It
meets a field as often as chains of spreads lead to it. Collecting opens a fragment once, and leaves
out nothing but fields that were met before. So both have the same response keys in the same order,
and the same first field for each of them.
-/

namespace GraphQL

variable {α β : Type}

/-- Entries are left out of a list, but only such as stand in it before or were seen earlier. -/
inductive Thins : List α → List α → List α → Prop where
  | nil {seen} : Thins seen [] []
  | keep {seen entry all kept} (rest : Thins (entry :: seen) all kept) :
      Thins seen (entry :: all) (entry :: kept)
  | drop {seen entry all kept} (repeated : entry ∈ seen) (rest : Thins seen all kept) :
      Thins seen (entry :: all) kept

namespace Thins

variable {seen all kept : List α}

theorem mono (thins : Thins seen all kept) {more : List α}
    (contained : ∀ entry ∈ seen, entry ∈ more) : Thins more all kept := by
  induction thins generalizing more with
  | nil => exact .nil
  | keep _ ih =>
      refine .keep (ih fun entry member => ?_)
      rcases List.mem_cons.mp member with rfl | before
      · exact List.mem_cons_self
      · exact List.mem_cons_of_mem _ (contained _ before)
  | drop repeated _ ih => exact .drop (contained _ repeated) (ih contained)

/-- What was seen in full may be left out. -/
theorem repeated (member : ∀ entry ∈ all, entry ∈ seen) : Thins seen all [] := by
  induction all with
  | nil => exact .nil
  | cons entry rest ih =>
      exact .drop (member _ List.mem_cons_self)
        (ih fun other inside => member other (List.mem_cons_of_mem _ inside))

theorem append (first : Thins seen all kept) {more others : List α}
    (second : Thins (seen ++ kept) more others) : Thins seen (all ++ more) (kept ++ others) := by
  induction first with
  | nil => simpa using second
  | keep _ ih =>
      refine .keep (ih (second.mono fun entry member => ?_))
      simpa [or_left_comm] using member
  | drop repeated _ ih => exact .drop repeated (ih second)

theorem filterMap (thins : Thins seen all kept) (f : α → Option β) :
    Thins (seen.filterMap f) (all.filterMap f) (kept.filterMap f) := by
  induction thins with
  | nil => exact .nil
  | keep _ ih =>
      rename_i seen entry all kept _
      cases found : f entry with
      | none => simpa [found] using ih
      | some value =>
          simp only [List.filterMap_cons, found] at ih ⊢
          exact .keep ih
  | drop repeated _ ih =>
      rename_i seen entry all kept _
      cases found : f entry with
      | none => simpa [found] using ih
      | some value =>
          simp only [List.filterMap_cons, found]
          exact .drop (List.mem_filterMap.mpr ⟨entry, repeated, found⟩) ih

theorem filter (thins : Thins seen all kept) (p : α → Bool) :
    Thins (seen.filter p) (all.filter p) (kept.filter p) := by
  simpa [← List.filterMap_eq_filter] using thins.filterMap (Option.guard p)

/-- Names appear first in the same order. -/
theorem names (thins : Thins seen all kept) (name : α → String) {list : List String}
    (known : ∀ entry ∈ seen, name entry ∈ list) :
    appendNew list (all.map name) = appendNew list (kept.map name) := by
  induction thins generalizing list with
  | nil => rfl
  | keep _ ih =>
      rename_i seen entry all kept _
      have first (rest : List String) :
          appendNew list (name entry :: rest) = appendNew (appendNew list [name entry]) rest :=
        append_new_append list [name entry] rest
      rw [List.map_cons, List.map_cons, first, first]
      apply ih
      intro other member
      apply (mem_append_new (name other) list [name entry]).mpr
      rcases List.mem_cons.mp member with rfl | before
      · exact .inr List.mem_cons_self
      · exact .inl (known other before)
  | drop repeated _ ih =>
      rename_i seen entry all kept _
      have old : appendNew list (name entry :: all.map name) = appendNew list (all.map name) := by
        rw [appendNew, List.foldl_cons, if_pos (known entry repeated), ← appendNew]
      rw [List.map_cons, old]
      exact ih known

theorem refl (all : List α) : Thins seen all all := by
  induction all generalizing seen with
  | nil => exact .nil
  | cons entry rest ih => exact .keep ih

/-- What is left out stays in view. -/
theorem mem_iff (thins : Thins seen all kept) (entry : α) :
    entry ∈ all ∨ entry ∈ seen ↔ entry ∈ kept ∨ entry ∈ seen := by
  induction thins with
  | nil => rfl
  | keep _ ih => simpa [or_left_comm, or_assoc] using ih
  | drop repeated _ ih =>
      rename_i seen other all kept _
      rw [← ih, List.mem_cons, or_assoc]
      refine or_iff_right_of_imp fun same => .inr (same ▸ repeated)

/-- The first entry stays. -/
theorem head (thins : Thins [] all kept) : all.head? = kept.head? := by
  cases thins with
  | nil => rfl
  | keep _ => rfl
  | drop repeated _ => cases repeated

end Thins

/--
The fields that mentions expand to, within a chain of fragments that are being expanded. Spreads of
these expand to nothing.
-/
inductive Unfolds (content : String → List Mention) :
    List String → List Mention → List (Located Field) → Prop where
  | nil {chain} : Unfolds content chain [] []
  | field {chain field rest fields} (others : Unfolds content chain rest fields) :
      Unfolds content chain (.field field :: rest) (field :: fields)
  | opened {chain name rest inner fields} (fresh : name ∉ chain)
      (inside : Unfolds content (name :: chain) (content name) inner)
      (others : Unfolds content chain rest fields) :
      Unfolds content chain (.fragment name :: rest) (inner ++ fields)
  | blocked {chain name rest fields} (expanding : name ∈ chain)
      (others : Unfolds content chain rest fields) :
      Unfolds content chain (.fragment name :: rest) fields

namespace Unfolds

variable {content : String → List Mention} {chain names : List String} {depth : Nat}
  {list : List Mention} {fields : List (Located Field)} {gathered : Gathered}

theorem append {more : List Mention} {others : List (Located Field)}
    (first : Unfolds content chain list fields) (second : Unfolds content chain more others) :
    Unfolds content chain (list ++ more) (fields ++ others) := by
  induction list generalizing fields with
  | nil =>
      cases first
      exact second
  | cons mention rest ih =>
      cases first with
      | field remaining => exact .field (ih remaining)
      | opened fresh inside remaining =>
          rw [List.append_assoc]
          exact .opened fresh inside (ih remaining)
      | blocked expanding remaining => exact .blocked expanding (ih remaining)

theorem split {more : List Mention} (unfolds : Unfolds content chain (list ++ more) fields) :
    ∃ first second, fields = first ++ second ∧ Unfolds content chain list first ∧
      Unfolds content chain more second := by
  induction list generalizing fields with
  | nil => exact ⟨[], fields, rfl, .nil, unfolds⟩
  | cons mention rest ih =>
      cases unfolds with
      | field remaining =>
          obtain ⟨first, second, rfl, left, right⟩ := ih remaining
          exact ⟨_ :: first, second, rfl, .field left, right⟩
      | opened fresh inside remaining =>
          obtain ⟨first, second, rfl, left, right⟩ := ih remaining
          exact ⟨_ ++ first, second, (List.append_assoc _ _ _).symm, .opened fresh inside left,
            right⟩
      | blocked expanding remaining =>
          obtain ⟨first, second, rfl, left, right⟩ := ih remaining
          exact ⟨first, second, rfl, .blocked expanding left, right⟩

/-- What was closed over has met all that it expands to. -/
theorem met {inside : List String} (unfolds : Unfolds content chain list fields)
    (closed : gathered.Closed content inside) (within : ∀ name ∈ inside, name ∈ chain)
    (had : ∀ mention ∈ list, gathered.Has mention) :
    ∀ field ∈ fields, field ∈ gathered.fields := by
  induction unfolds with
  | nil => intro field absent; cases absent
  | field _ ih =>
      intro field member
      rcases List.mem_cons.mp member with rfl | later
      · exact had _ List.mem_cons_self
      · exact ih within (fun mention other => had mention (List.mem_cons_of_mem _ other)) field
          later
  | opened fresh _ _ inner others =>
      intro field member
      have opened := had _ List.mem_cons_self
      have outside := fun expanding => fresh (within _ expanding)
      rcases List.mem_append.mp member with here | later
      · exact inner (fun name expanding => List.mem_cons_of_mem _ (within name expanding))
          (closed _ opened outside) field here
      · exact others within (fun mention other => had mention (List.mem_cons_of_mem _ other)) field
          later
  | blocked _ _ ih =>
      intro field member
      exact ih within (fun mention other => had mention (List.mem_cons_of_mem _ other)) field member

/-- Going into a fragment meets what it expands to, if walking along its mentions does. -/
theorem entered_thins (unknown : ∀ name ∉ names, content name = []) {name : String}
    (inside : Unfolds content (name :: chain) (content name) fields)
    (closed : gathered.Closed content chain) (marked : ∀ name ∈ chain, name ∈ gathered.visited)
    (enough : gathered.unopened names ≤ depth) (unseen : name ∉ gathered.visited)
    (walks : ∀ {gathered : Gathered} {depth : Nat}, gathered.Closed content (name :: chain) →
      (∀ other ∈ name :: chain, other ∈ gathered.visited) → gathered.unopened names ≤ depth →
        ∃ new, (walk content depth (content name) gathered).fields = gathered.fields ++ new ∧
          Thins gathered.fields fields new) :
    ∃ new, (enterWithin content depth name ⟨name :: gathered.visited, gathered.fields⟩).fields =
        gathered.fields ++ new ∧ Thins gathered.fields fields new := by
  by_cases known : name ∈ names
  · have fewer := Gathered.unopened_mark known unseen
    have all_marked : ∀ other ∈ name :: chain, other ∈ name :: gathered.visited := by
      intro other expanding
      rcases List.mem_cons.mp expanding with rfl | before
      · exact List.mem_cons_self
      · exact List.mem_cons_of_mem _ (marked other before)
    cases depth with
    | zero => omega
    | succ depth => exact walks (Walked.mark_closed closed name) all_marked (by omega)
  · have nothing := unknown name known
    rw [nothing] at inside
    cases inside
    rw [enter_nothing content depth nothing]
    exact ⟨[], (List.append_nil _).symm, .nil⟩

/-- A walk meets what its mentions expand to, but for fields that were met before. -/
theorem walk_thins (unknown : ∀ name ∉ names, content name = [])
    (unfolds : Unfolds content chain list fields) (closed : gathered.Closed content chain)
    (marked : ∀ name ∈ chain, name ∈ gathered.visited) (enough : gathered.unopened names ≤ depth) :
    ∃ new, (walk content depth list gathered).fields = gathered.fields ++ new ∧
      Thins gathered.fields fields new := by
  induction unfolds generalizing gathered depth with
  | nil => exact ⟨[], by rw [walk_nil, List.append_nil], .nil⟩
  | field _ ih =>
      rename_i chain field rest fields _
      have first := Walked.of_walk unknown [.field field] closed enough
      obtain ⟨new, met, thins⟩ := ih first.closed
        (fun name expanding => first.grows.visited name (marked name expanding))
        ((first.grows.unopened_le names).trans enough)
      refine ⟨field :: new, ?_, .keep (thins.mono fun other member => ?_)⟩
      · rw [walk_cons]
        exact met.trans (List.append_assoc gathered.fields [field] new)
      · rcases List.mem_append.mp member with before | here
        · exact List.mem_cons_of_mem _ before
        · exact List.mem_singleton.mp here ▸ List.mem_cons_self
  | opened fresh inside _ inner others =>
      rename_i chain name rest found fields _
      have opening := Walked.of_walk unknown [.fragment name] closed enough
      obtain ⟨new, met, thins⟩ := others opening.closed
        (fun other expanding => opening.grows.visited other (marked other expanding))
        ((opening.grows.unopened_le names).trans enough)
      rw [walk_cons]
      rw [walk_cons, walk_nil] at met thins
      by_cases seen : name ∈ gathered.visited
      · -- The fragment is skipped, and all of its fields were met when it was opened.
        rw [meet, if_pos seen] at met thins ⊢
        have all_met := inside.met closed (fun _ => List.mem_cons_of_mem _) (closed name seen fresh)
        exact ⟨new, met, .append (.repeated all_met) (by simpa using thins)⟩
      · obtain ⟨first, met_first, thins_first⟩ := entered_thins unknown inside closed marked enough
          seen inner
        rw [meet, if_neg seen] at met thins ⊢
        rw [met_first] at met thins
        exact ⟨first ++ new, by rw [met, List.append_assoc], thins_first.append thins⟩
  | blocked expanding _ ih =>
      obtain ⟨new, met, thins⟩ := ih closed marked enough
      refine ⟨new, ?_, thins⟩
      rw [walk_cons, meet, if_pos (marked _ expanding)]
      exact met

end Unfolds

/-- So does a walk that starts from several sources, of which some are left out as repeated. -/
theorem Thins.walk_thins {content : String → List Mention} {names : List String}
    (unknown : ∀ name ∉ names, content name = []) {ask : α → List Mention}
    {seen all kept : List α} (thins : Thins seen all kept) {fields : List (Located Field)}
    (unfolds : Unfolds content [] (all.flatMap ask) fields) {gathered : Gathered} {depth : Nat}
    (closed : gathered.Closed content [])
    (had : ∀ source ∈ seen, ∀ mention ∈ ask source, gathered.Has mention)
    (enough : gathered.unopened names ≤ depth) :
    ∃ new, (walk content depth (kept.flatMap ask) gathered).fields = gathered.fields ++ new ∧
      Thins gathered.fields fields new := by
  induction thins generalizing fields gathered with
  | nil =>
      cases unfolds
      exact ⟨[], (List.append_nil _).symm, .nil⟩
  | keep _ ih =>
      rename_i seen source all kept _
      obtain ⟨first, others, rfl, here, there⟩ := Unfolds.split unfolds
      have walked := Walked.of_walk unknown (ask source) closed enough
      obtain ⟨new, met, thinned⟩ := here.walk_thins unknown closed (fun _ absent => by cases absent)
        enough
      have had_all : ∀ other ∈ source :: seen, ∀ mention ∈ ask other,
          (walk content depth (ask source) gathered).Has mention := by
        intro other member mention mentioned
        rcases List.mem_cons.mp member with rfl | before
        · exact walked.has mention mentioned
        · exact walked.grows.has (had other before mention mentioned)
      obtain ⟨more, met', thinned'⟩ := ih there walked.closed had_all
        ((walked.grows.unopened_le names).trans enough)
      refine ⟨new ++ more, ?_, thinned.append (met ▸ thinned')⟩
      rw [List.flatMap_cons, walk_append, met', met, List.append_assoc]
  | drop repeated _ ih =>
      obtain ⟨first, others, rfl, here, there⟩ := Unfolds.split unfolds
      have met_before := here.met closed (fun _ absent => by cases absent) (had _ repeated)
      obtain ⟨new, met, thinned⟩ := ih there closed had enough
      exact ⟨new, met, .append (.repeated met_before) (by simpa using thinned)⟩

section Collecting

variable {schema : Schema} {scope : RequestScope} {objectName : String}

/-- What selection sets ask for is what they expand to, but for repeated fields. -/
theorem fields_asked_thins {all kept : List (List Selection)} (thins : Thins [] all kept)
    {fields : List (Located Field)}
    (unfolds : Unfolds (fragmentMentions schema scope objectName) []
      (all.flatMap (mentions schema scope objectName)) fields) :
    Thins [] fields (fieldsAsked schema scope objectName kept) := by
  obtain ⟨new, met, thinned⟩ := thins.walk_thins (fragment_mentions_unknown schema scope objectName)
    unfolds (nothing_closed _ _) (fun _ absent => by cases absent) (nothing_unopened scope)
  rw [fields_asked_walk, gatheredFrom, met]
  exact thinned

end Collecting

/-- A group that lacks at most repeated fields of another. -/
structure FieldGroup.Thinned (full group : FieldGroup) : Prop where
  key : group.key = full.key
  first : group.first = full.first
  fields : Thins [] full.fields group.fields

theorem groups_by_key {related : FieldGroup → FieldGroup → Prop} {left right : List FieldGroup}
    (keys : left.map (·.key) = right.map (·.key))
    (each : ∀ group ∈ left, ∀ other ∈ right, group.key = other.key → related group other) :
    List.Forall₂ related left right := by
  induction left generalizing right with
  | nil =>
      obtain rfl := List.map_eq_nil_iff.mp keys.symm
      exact .nil
  | cons group rest ih =>
      cases right with
      | nil => cases keys
      | cons other others =>
          obtain ⟨same, remaining⟩ := List.cons.inj keys
          refine .cons (each _ List.mem_cons_self _ List.mem_cons_self same) (ih remaining ?_)
          intro group member other inside
          exact each group (List.mem_cons_of_mem _ member) other (List.mem_cons_of_mem _ inside)

/-- Leaving out repeated fields leaves all groups in place. -/
theorem grouped_thinned {all kept : List (Located Field)} (thins : Thins [] all kept) :
    List.Forall₂ FieldGroup.Thinned (grouped all) (grouped kept) := by
  apply groups_by_key
  · rw [grouped_keys, grouped_keys]
    exact thins.names (·.node.responseKey) fun _ absent => by cases absent
  · intro full member group inside same
    have fields : Thins [] full.fields group.fields := by
      rw [grouped_fields member, grouped_fields inside, same]
      exact thins.filter _
    have heads : some full.first = some group.first := fields.head
    exact ⟨same.symm, (Option.some.inj heads).symm, fields⟩

/-- A group, with a change made to all of its fields. -/
def FieldGroup.map (change : Located Field → Located Field) (group : FieldGroup) : FieldGroup where
  key := group.key
  first := change group.first
  others := group.others.map change

/-- Changes that keep response keys keep the groups. -/
theorem grouped_map {change : Located Field → Located Field}
    (keeps : ∀ field, (change field).node.responseKey = field.node.responseKey)
    (fields : List (Located Field)) :
    grouped (fields.map change) = (grouped fields).map (FieldGroup.map change) := by
  have added (field : Located Field) (groups : List FieldGroup) :
      addToGroups (change field) (groups.map (FieldGroup.map change)) =
        (addToGroups field groups).map (FieldGroup.map change) := by
    induction groups with
    | nil => simp [addToGroups, FieldGroup.map, keeps]
    | cons group rest ih =>
        rw [List.map_cons, addToGroups, addToGroups, keeps]
        by_cases same : group.key = field.node.responseKey
        · simp [FieldGroup.map, same]
        · have apart : (FieldGroup.map change group).key ≠ field.node.responseKey := same
          rw [if_neg apart, if_neg same, List.map_cons, ih]
  induction fields using List.reverseRecOn with
  | nil => rfl
  | append_singleton fields field ih =>
      rw [List.map_append, List.map_singleton, grouped_append_one, grouped_append_one, ih, added]

end GraphQL
