import GraphQL.Proofs.DeepMerges

/-!
Objects as their histories made them.

Whatever is added to an object and removed from it, its keys stand in the order in which they were
first inserted since they were last removed. The same holds of every object inside: it has a history
of its own, which begins where an object is added under its key and goes on with whatever is merged
into it. Every object has such a history, as it comes from collecting its own fields.
-/

namespace GraphQL

/-- A change of an object. -/
inductive Change where
  | add (key : String) (value : Value)
  | remove (key : String)

namespace Change

def apply (object : Object) : Change → Object
  | .add key value => object.add key value
  | .remove key => object.remove key

/-- What is added holds no key twice at any depth. -/
def DistinctKeys : Change → Prop
  | .add _ value => value.DistinctKeys
  | .remove _ => True

/-- The addition of fields one after the other. -/
def additions (fields : List (String × Value)) : List Change :=
  fields.map fun field => .add field.1 field.2

/--
The step at which a key was first inserted since it was last removed: it is not removed later, and
whenever it was added before, it was removed in between.
-/
structure InsertedAt (history : List Change) (key : String) (step : Nat) : Prop where
  added : ∃ value, history[step]? = some (.add key value)
  stays : ∀ later, step < later → history[later]? ≠ some (.remove key)
  first : ∀ earlier value, earlier < step → history[earlier]? = some (.add key value) →
    ∃ between, earlier < between ∧ between < step ∧ history[between]? = some (.remove key)

/-- What a change does to the history of the object under a key, if there is an object. -/
def below (key : String) (before : Option (List Change)) : Change → Option (List Change)
  | .add name (.object fields) =>
      if name = key then some (before.getD [] ++ additions fields) else before
  | .add name _ => if name = key then none else before
  | .remove name => if name = key then none else before

/-- The history of the object under a key. -/
def historyBelow (key : String) (history : List Change) : Option (List Change) :=
  history.foldl (below key) none

/-- The history of the object at the end of a path of keys. -/
def historyAt : List String → List Change → Option (List Change)
  | [], history => some history
  | key :: path, history => (historyBelow key history).bind (historyAt path)

end Change

namespace Object

/-- An object after some changes. -/
def after (object : Object) (changes : List Change) : Object := changes.foldl Change.apply object

/-- The object at the end of a path of keys. -/
def at? : List String → Object → Option Object
  | [], object => some object
  | key :: path, object => ((object.get? key).bind Value.asObject?).bind (at? path)

/-- The keys of an object are those that its history inserted, in the order of the insertions. -/
structure InOrderOf (object : Object) (history : List Change) : Prop where
  keys : ∀ key, key ∈ object.keys ↔ ∃ step, Change.InsertedAt history key step
  order : object.keys.Pairwise fun key other => ∀ step later,
    Change.InsertedAt history key step → Change.InsertedAt history other later → step < later

end Object

open Change

section Steps

variable {history : List Change} {key name : String} {step : Nat}

/-- A step of a longer history is one of the history, or the last one. -/
theorem step_of_longer {change found : Change}
    (there : (history ++ [change])[step]? = some found) :
    history[step]? = some found ∨ step = history.length ∧ change = found := by
  by_cases inside : step < history.length
  · rw [List.getElem?_append_left inside] at there
    exact .inl there
  · have last : step = history.length := by
      have bound := (List.getElem?_eq_some_iff.mp there).1
      rw [List.length_append, List.length_singleton] at bound
      omega
    rw [last, List.getElem?_concat_length] at there
    exact .inr ⟨last, Option.some.inj there⟩

theorem step_inside {found : Change} (there : history[step]? = some found) :
    step < history.length := (List.getElem?_eq_some_iff.mp there).1

theorem step_kept {found : Change} (there : history[step]? = some found) (change : Change) :
    (history ++ [change])[step]? = some found := by
  rw [List.getElem?_append_left (step_inside there), there]

theorem Change.InsertedAt.inside (inserted : InsertedAt history key step) :
    step < history.length := by
  obtain ⟨value, there⟩ := inserted.added
  exact step_inside there

/-- The insertion of a key goes on to count as long as the key is not removed. -/
theorem Change.InsertedAt.longer (inserted : InsertedAt history key step) {change : Change}
    (stays : change ≠ .remove key) : InsertedAt (history ++ [change]) key step := by
  refine ⟨?_, fun later behind there => ?_, fun earlier value before there => ?_⟩
  · obtain ⟨value, there⟩ := inserted.added
    exact ⟨value, step_kept there change⟩
  · rcases step_of_longer there with inside | ⟨-, same⟩
    · exact inserted.stays later behind inside
    · exact stays same
  · rcases step_of_longer there with inside | ⟨last, -⟩
    · obtain ⟨between, after, until_step, removed⟩ := inserted.first earlier value before inside
      exact ⟨between, after, until_step, step_kept removed change⟩
    · exact absurd inserted.inside (by omega)

/-- What counts as an insertion did so before the last change, or is the last change. -/
theorem Change.InsertedAt.shorter {change : Change}
    (inserted : InsertedAt (history ++ [change]) key step) :
    change ≠ .remove key ∧
      (InsertedAt history key step ∨ step = history.length ∧ ∃ value, change = .add key value) := by
  obtain ⟨⟨value, there⟩, stays, first⟩ := inserted
  have bound := step_inside there
  rw [List.length_append, List.length_singleton] at bound
  have behind : change ≠ .remove key := by
    rintro rfl
    rcases step_of_longer there with inside | ⟨-, same⟩
    · exact stays history.length (step_inside inside) List.getElem?_concat_length
    · cases same
  refine ⟨behind, ?_⟩
  rcases step_of_longer there with inside | ⟨last, same⟩
  · refine .inl ⟨⟨value, inside⟩, fun later after removed => ?_, fun earlier value before added => ?_⟩
    · exact stays later after (step_kept removed change)
    · obtain ⟨between, after, until_step, removed⟩ :=
        first earlier value before (step_kept added change)
      rcases step_of_longer removed with removed | ⟨last, -⟩
      · exact ⟨between, after, until_step, removed⟩
      · have bound := step_inside inside
        omega
  · exact .inr ⟨last, value, same⟩

/-- A key that was added and not removed afterwards has been inserted. -/
theorem inserted_of_added {value : Value} (added : history[step]? = some (.add key value))
    (stays : ∀ later, step < later → history[later]? ≠ some (.remove key)) :
    ∃ first, InsertedAt history key first := by
  -- The first such step is the insertion: what was added before it was removed before it.
  induction step using Nat.strong_induction_on generalizing value with
  | _ step ih =>
      by_cases first : ∀ earlier value, earlier < step →
          history[earlier]? = some (.add key value) →
          ∃ between, earlier < between ∧ between < step ∧ history[between]? = some (.remove key)
      · exact ⟨step, ⟨value, added⟩, stays, first⟩
      · push Not at first
        obtain ⟨earlier, value, before, there, kept⟩ := first
        refine ih earlier before there fun later behind removed => ?_
        rcases Nat.lt_trichotomy later step with sooner | rfl | afterwards
        · exact kept later behind sooner removed
        · rw [added] at removed
          cases removed
        · exact stays later afterwards removed

/-- A key that was not there is inserted by being added. -/
theorem inserted_last (absent : ∀ step, ¬ InsertedAt history key step) (value : Value) :
    InsertedAt (history ++ [.add key value]) key history.length := by
  refine ⟨⟨value, List.getElem?_concat_length⟩, fun later behind there => ?_,
    fun earlier other before there => ?_⟩
  · have bound := step_inside there
    rw [List.length_append, List.length_singleton] at bound
    omega
  · rcases step_of_longer there with inside | ⟨last, -⟩
    · by_contra never
      push Not at never
      obtain ⟨step, inserted⟩ := inserted_of_added inside fun later behind removed =>
        never later behind (step_inside removed) (step_kept removed _)
      exact absent step inserted
    · omega

end Steps

namespace Object

variable {object : Object} {history : List Change}

@[simp] theorem after_append (object : Object) (history more : List Change) :
    object.after (history ++ more) = (object.after history).after more := List.foldl_append

theorem after_one (object : Object) (history : List Change) (change : Change) :
    object.after (history ++ [change]) = change.apply (object.after history) := by
  rw [after_append]
  rfl

theorem after_additions (fields : List (String × Value)) (object : Object) :
    object.after (additions fields) = insertAll fields object := by
  induction fields generalizing object with
  | nil => rw [insertAll, additions, List.map_nil, after, List.foldl_nil]
  | cons field rest ih =>
      obtain ⟨key, value⟩ := field
      rw [insertAll, ← ih]
      rfl

/-- An object is merged into what stands there, or into nothing. -/
theorem merged_object {fields : Object} (distinct : fields.keys.Nodup) (before : Option Value) :
    merged (.object fields) before =
      .object (insertAll fields ((before.bind Value.asObject?).getD [])) := by
  have alone : insertAll fields [] = fields := of_list_distinct distinct
  match before with
  | some (.object existing) => rfl
  | none | some .null | some (.bool _) | some (.int _) | some (.float _) | some (.string _)
  | some (.list _) | some (.record _ _ _) => exact congrArg Value.object alone.symm

theorem of_list_after (pairs : List (String × Value)) :
    ofList pairs = after [] (additions pairs) := (after_additions pairs []).symm

/-- The order of the keys goes on to be that of the insertions. -/
theorem InOrderOf.add (ordered : object.InOrderOf history) (key : String) (value : Value) :
    (object.add key value).InOrderOf (history ++ [.add key value]) := by
  obtain ⟨keys, order⟩ := ordered
  have stays (name : String) : Change.add key value ≠ .remove name := by simp
  by_cases known : key ∈ object.keys
  · -- The key was inserted before, so that the last change inserts nothing.
    have same (name : String) (step : Nat) :
        InsertedAt (history ++ [.add key value]) name step ↔ InsertedAt history name step := by
      refine ⟨fun inserted => ?_, fun inserted => inserted.longer (stays name)⟩
      obtain ⟨-, before | ⟨last, other, added⟩⟩ := inserted.shorter
      · exact before
      · cases added
        obtain ⟨earlier, there⟩ := (keys key).mp known
        obtain ⟨found, added⟩ := there.added
        obtain ⟨between, after, until_last, removed⟩ :=
          inserted.first earlier found (last ▸ there.inside) (step_kept added _)
        rcases step_of_longer removed with removed | ⟨-, impossible⟩
        · exact absurd removed (there.stays between after)
        · cases impossible
    have names : (object.add key value).keys = object.keys := by
      rw [add_put, keys_put, append_new_one, if_pos known]
    refine ⟨fun name => ?_, ?_⟩
    · simp only [names, same, keys]
    · simpa only [names, same] using order
  · have names : (object.add key value).keys = object.keys ++ [key] := by
      rw [add_put, keys_put, append_new_one, if_neg known]
    have absent : ∀ step, ¬ InsertedAt history key step := fun step inserted =>
      known ((keys key).mpr ⟨step, inserted⟩)
    have before {name : String} {step : Nat} (differs : name ≠ key)
        (inserted : InsertedAt (history ++ [.add key value]) name step) :
        InsertedAt history name step := by
      obtain ⟨-, before | ⟨-, other, added⟩⟩ := inserted.shorter
      · exact before
      · cases added
        exact absurd rfl differs
    refine ⟨fun name => ?_, ?_⟩
    · rw [names, List.mem_append, List.mem_singleton]
      constructor
      · rintro (there | rfl)
        · obtain ⟨step, inserted⟩ := (keys name).mp there
          exact ⟨step, inserted.longer (stays name)⟩
        · exact ⟨_, inserted_last absent value⟩
      · rintro ⟨step, inserted⟩
        by_cases differs : name = key
        · exact .inr differs
        · exact .inl ((keys name).mpr ⟨step, before differs inserted⟩)
    · have apart {name : String} (there : name ∈ object.keys) : name ≠ key :=
        fun same => known (same ▸ there)
      rw [names, List.pairwise_append]
      refine ⟨order.imp_of_mem fun there others sooner step later inserted after => ?_,
        List.pairwise_singleton _ _, fun name there other last step later inserted after => ?_⟩
      · exact sooner step later (before (apart there) inserted) (before (apart others) after)
      · obtain rfl := List.mem_singleton.mp last
        have bound := (before (apart there) inserted).inside
        obtain ⟨-, old | ⟨here, -⟩⟩ := after.shorter
        · exact absurd old (absent later)
        · omega

theorem InOrderOf.remove (ordered : object.InOrderOf history) (distinct : object.keys.Nodup)
    (key : String) : (object.remove key).InOrderOf (history ++ [.remove key]) := by
  obtain ⟨keys, order⟩ := ordered
  have same {name : String} {step : Nat} (inserted : InsertedAt (history ++ [.remove key]) name step) :
      name ≠ key ∧ InsertedAt history name step := by
    obtain ⟨apart, before | ⟨-, value, impossible⟩⟩ := inserted.shorter
    · exact ⟨fun same => apart (same ▸ rfl), before⟩
    · cases impossible
  refine ⟨fun name => ?_, ?_⟩
  · rw [keys_remove, distinct.mem_erase_iff, keys name]
    constructor
    · rintro ⟨differs, step, inserted⟩
      exact ⟨step, inserted.longer (by simpa using Ne.symm differs)⟩
    · rintro ⟨step, inserted⟩
      exact ⟨(same inserted).1, step, (same inserted).2⟩
  · rw [keys_remove]
    exact (order.sublist List.erase_sublist).imp fun sooner step later inserted after =>
      sooner step later (same inserted).2 (same after).2

section Histories

variable (held : ∀ change ∈ history, change.DistinctKeys)
include held

/-- Whatever is added and removed, no key comes up twice at any depth. -/
theorem after_distinct : (Value.object (after [] history)).DistinctKeys := by
  induction history using List.reverseRecOn with
  | nil => exact .object List.nodup_nil fun _ absent => by cases absent
  | append_singleton history change ih =>
      have before := ih fun other member => held other (List.mem_append_left _ member)
      have last := held change (List.mem_append_right _ List.mem_cons_self)
      rw [after_one]
      cases change with
      | add key value => exact add_distinct before key last
      | remove key => exact remove_distinct before key

theorem after_in_order : (after [] history).InOrderOf history := by
  induction history using List.reverseRecOn with
  | nil =>
      refine ⟨fun key => ⟨fun absent => absurd absent List.not_mem_nil, ?_⟩, .nil⟩
      rintro ⟨step, inserted⟩
      exact absurd inserted.inside (Nat.not_lt_zero step)
  | append_singleton history change ih =>
      have earlier := fun other member => held other (List.mem_append_left _ member)
      rw [after_one]
      cases change with
      | add key value => exact (ih earlier).add key value
      | remove key => exact (ih earlier).remove (after_distinct earlier).fields.1 key

/-- The object under a key is what its own history makes. -/
theorem object_below (key : String) :
    ((after [] history).get? key).bind Value.asObject? =
      (historyBelow key history).map (after []) := by
  induction history using List.reverseRecOn with
  | nil => rfl
  | append_singleton history change ih =>
      have earlier := fun other member => held other (List.mem_append_left _ member)
      have last := held change (List.mem_append_right _ List.mem_cons_self)
      have before := ih earlier
      rw [after_one, historyBelow, List.foldl_append, List.foldl_cons, List.foldl_nil,
        ← historyBelow]
      cases change with
      | add name value =>
          by_cases here : name = key
          · subst here
            rw [apply, add_put, get_put, if_pos rfl, Option.bind_some]
            by_cases plain : ∀ fields, value ≠ .object fields
            · have gone : below name (historyBelow name history) (.add name value) = none := by
                cases value <;> first | exact if_pos rfl | exact absurd rfl (plain _)
              rw [gone, merged_plain fun fields _ same => absurd same (plain fields)]
              cases value <;> first | rfl | exact absurd rfl (plain _)
            · push Not at plain
              obtain ⟨fields, rfl⟩ := plain
              have existing : (((after [] history).get? name).bind Value.asObject?).getD [] =
                  after [] ((historyBelow name history).getD []) := by
                rw [before]
                cases historyBelow name history <;> rfl
              rw [below, if_pos rfl, Option.map_some, after_append, after_additions,
                merged_object (Value.DistinctKeys.fields last).1, existing]
              rfl
          · have differs : key ≠ name := Ne.symm here
            have kept : below key (historyBelow key history) (.add name value) =
                historyBelow key history := by
              cases value <;> exact if_neg here
            rw [apply, add_put, get_put, if_neg differs, before, kept]
      | remove name =>
          rw [apply, get_remove name key (after_distinct earlier).fields.1, below]
          by_cases here : name = key
          · rw [if_pos here, if_pos here.symm]
            rfl
          · rw [if_neg here, if_neg (Ne.symm here), before]

theorem below_distinct {key : String} {own : List Change}
    (there : historyBelow key history = some own) : ∀ change ∈ own, change.DistinctKeys := by
  induction history using List.reverseRecOn generalizing own with
  | nil => cases there
  | append_singleton history change ih =>
      have earlier := fun other member => held other (List.mem_append_left _ member)
      have last := held change (List.mem_append_right _ List.mem_cons_self)
      rw [historyBelow, List.foldl_append, List.foldl_cons, List.foldl_nil, ← historyBelow] at there
      unfold below at there
      split at there
      · rename_i name fields
        split at there
        · cases there
          rw [List.forall_mem_append]
          refine ⟨?_, fun addition member => ?_⟩
          · cases before : historyBelow key history with
            | none => exact fun _ absent => by cases absent
            | some before_own => exact ih earlier before
          · obtain ⟨field, inside, rfl⟩ := List.mem_map.mp member
            exact (Value.DistinctKeys.fields last).2 _ _
              (lookup_of_mem (Value.DistinctKeys.fields last).1 inside)
        · exact ih earlier there
      · split at there
        · cases there
        · exact ih earlier there
      · split at there
        · cases there
        · exact ih earlier there

theorem history_at_distinct {path : List String} {own : List Change}
    (there : historyAt path history = some own) : ∀ change ∈ own, change.DistinctKeys := by
  induction path generalizing history with
  | nil =>
      cases there
      exact held
  | cons key path ih =>
      obtain ⟨nested, found, inside⟩ := Option.bind_eq_some_iff.mp there
      exact ih (below_distinct held found) inside

/-- At the end of every path there is what the history of that place makes. -/
theorem at_history (path : List String) :
    (after [] history).at? path = (historyAt path history).map (after []) := by
  induction path generalizing history with
  | nil => rfl
  | cons key path ih =>
      rw [at?, object_below held, historyAt]
      cases there : historyBelow key history with
      | none => rfl
      | some own => exact ih (below_distinct held there)

end Histories

/-- An object that is an ordered map, with the history that made it. -/
structure OrderedMap (object : Object) (history : List Change) : Prop where
  distinct : (Value.object object).DistinctKeys
  order : ∀ path nested, object.at? path = some nested → ∃ own,
    historyAt path history = some own ∧ nested = after [] own ∧ nested.InOrderOf own
  adds : ∀ key value, value.DistinctKeys → object.Adds key value
  removes : ∀ key other,
    (object.remove key).get? other = if other = key then none else object.get? other
  again : ∀ key fields, object.get? key = some (.object fields) →
    object.add key (.object fields) = object

/--
Whatever is collected, added and removed, the object that comes out of it is an ordered map: its keys
are distinct and in order at every depth, and additions merge or replace what stands under their key
and touch nothing else. Collecting pairs with distinct keys changes nothing about them, so that any
object can be the one to begin with.
-/
theorem objects_are_ordered_maps {pairs : List (String × Value)} {changes : List Change}
    (collected : ∀ pair ∈ pairs, pair.2.DistinctKeys)
    (changed : ∀ change ∈ changes, change.DistinctKeys) :
    ((ofList pairs).after changes).OrderedMap (additions pairs ++ changes) ∧
      ((keys pairs).Nodup → ofList pairs = pairs) := by
  have held : ∀ change ∈ additions pairs ++ changes, change.DistinctKeys := by
    refine List.forall_mem_append.mpr ⟨fun addition member => ?_, changed⟩
    obtain ⟨pair, inside, rfl⟩ := List.mem_map.mp member
    exact collected pair inside
  refine ⟨?_, of_list_distinct⟩
  rw [of_list_after, ← after_append]
  have distinct := after_distinct held
  refine ⟨distinct, fun path nested there => ?_, fun key value given => adds distinct key given,
    fun key other => get_remove key other distinct.fields.1,
    fun key fields stands => add_again distinct stands⟩
  rw [at_history held] at there
  obtain ⟨own, found, rfl⟩ := Option.map_eq_some_iff.mp there
  exact ⟨own, found, rfl, after_in_order (history_at_distinct held found)⟩

/-- A dog that gets its toys in two goes. -/
def dogPairs : List (String × Value) :=
  [("name", .string "Rex"), ("toys", .object [("ball", .int 1)]), ("age", .int 3),
    ("toys", .object [("rope", .int 2), ("ball", .null)])]

def dogChanges : List Change :=
  [.remove "name", .add "age" (.int 4), .add "name" (.string "Rex")]

theorem single_distinct {value : Value} (single : value.asList? = none ∧ value.asObject? = none) :
    value.DistinctKeys := by
  refine .single ?_ ?_
  · rintro items rfl
    cases single.1
  · rintro fields rfl
    cases single.2

/-- The name goes to the end, as it was taken out; the toys stay where they were and are merged. -/
theorem dog_keeps_order :
    (ofList dogPairs).after dogChanges =
        [("toys", .object [("ball", .null), ("rope", .int 2)]), ("age", .int 4),
          ("name", .string "Rex")] ∧
      ((ofList dogPairs).after dogChanges).OrderedMap (additions dogPairs ++ dogChanges) := by
  have toys : ∀ fields ∈ [[("ball", Value.int 1)], [("rope", .int 2), ("ball", .null)]],
      (Value.object fields).DistinctKeys := by
    intro fields member
    refine .object ?_ fun field inside => single_distinct ?_
    · revert fields
      decide
    · rcases List.mem_pair.mp member with rfl | rfl
      · rw [List.mem_singleton.mp inside]
        exact ⟨rfl, rfl⟩
      · rcases List.mem_pair.mp inside with rfl | rfl <;> exact ⟨rfl, rfl⟩
  have collected : ∀ pair ∈ dogPairs, pair.2.DistinctKeys :=
    List.forall_mem_cons.mpr ⟨single_distinct ⟨rfl, rfl⟩, List.forall_mem_cons.mpr
      ⟨toys _ List.mem_cons_self, List.forall_mem_cons.mpr ⟨single_distinct ⟨rfl, rfl⟩,
        List.forall_mem_singleton.mpr (toys _ (List.mem_cons_of_mem _ List.mem_cons_self))⟩⟩⟩
  have changed : ∀ change ∈ dogChanges, change.DistinctKeys :=
    List.forall_mem_cons.mpr ⟨trivial, List.forall_mem_cons.mpr
      ⟨single_distinct ⟨rfl, rfl⟩, List.forall_mem_singleton.mpr (single_distinct ⟨rfl, rfl⟩)⟩⟩
  exact ⟨rfl, (objects_are_ordered_maps collected changed).1⟩

end Object

end GraphQL
