import GraphQL.Proofs.MergedFields

/-!
What an addition makes of an object.

Added under a key, an object is merged into the object that stands there: the old keys keep their
places, new ones follow, and under each key that both hold the later value is added to the earlier
one in the same way. Anything else takes the place of what stood there, or goes to the end. Nothing
happens under the other keys.
-/

namespace GraphQL

/-- All objects in a value hold each key once, at every depth. -/
inductive Value.DistinctKeys : Value → Prop where
  | single {value} (unlisted : ∀ items, value ≠ .list items)
      (unfielded : ∀ fields, value ≠ .object fields) : DistinctKeys value
  | list {items} (each : ∀ item ∈ items, DistinctKeys item) : DistinctKeys (.list items)
  | object {fields} (distinct : (Object.keys fields).Nodup)
      (each : ∀ field ∈ fields, DistinctKeys field.2) : DistinctKeys (.object fields)

/--
What a value comes to where it is added to what stands there, if anything. Objects merge; any other
value replaces what stood there.
-/
inductive Value.MergesTo : Value → Option Value → Value → Prop where
  | replaced {value before}
      (apart : ∀ fields existing, value = .object fields → before ≠ some (.object existing)) :
      MergesTo value before value
  | merged {fields existing object : Object}
      (keys : object.keys = existing.keys ++ fields.keys.filter fun key => key ∉ existing.keys)
      (kept : ∀ key, key ∉ fields.keys → object.get? key = existing.get? key)
      (each : ∀ key value made, fields.get? key = some value → object.get? key = some made →
        MergesTo value (existing.get? key) made) :
      MergesTo (.object fields) (some (.object existing)) (.object object)

/-- What it means to add a value to an object under a key. -/
structure Object.Adds (object : Object) (key : String) (value : Value) : Prop where
  under : ∃ made, (object.add key value).get? key = some made ∧
    ∀ other, value.MergesTo (object.get? key) other ↔ other = made
  inPlace : key ∈ object.keys → ∀ made, value.MergesTo (object.get? key) made →
    object.add key value = object.map fun field => if field.1 = key then (key, made) else field
  atEnd : key ∉ object.keys → object.add key value = object ++ [(key, value)]
  elsewhere : ∀ other, other ≠ key → (object.add key value).get? other = object.get? other
  merges : ∀ fields existing, value = .object fields → object.get? key = some (.object existing) →
    object.replaced? key value = none
  replaces : (∀ fields existing, value = .object fields →
    object.get? key ≠ some (.object existing)) → object.replaced? key value = object.get? key

section Keys

variable {names more : List String}

/-- New names follow in their own order, unless they are there already. -/
theorem append_new_distinct (distinct : more.Nodup) :
    appendNew names more = names ++ more.filter fun name => name ∉ names := by
  induction more generalizing names with
  | nil => exact (List.append_nil names).symm
  | cons name rest ih =>
      obtain ⟨apart, others⟩ := List.nodup_cons.mp distinct
      rw [← List.singleton_append, append_new_append, append_new_one, ih others]
      by_cases known : name ∈ names
      · simp [known]
      · -- No later name is the one that was just put at the end.
        have same : (rest.filter fun other => other ∉ names ++ [name]) =
            rest.filter fun other => other ∉ names := by
          refine List.filter_congr fun other member => ?_
          have differs : other ≠ name := fun same => apart (same ▸ member)
          simp [differs]
        rw [if_neg known, same]
        simp [known]

theorem append_new_known (known : ∀ name ∈ more, name ∈ names) : appendNew names more = names := by
  induction more with
  | nil => rfl
  | cons name rest ih =>
      obtain ⟨first, others⟩ := List.forall_mem_cons.mp known
      rw [← List.singleton_append, append_new_append, append_new_one, if_pos first, ih others]

end Keys

namespace Object

variable {object other : Object} {key : String}

theorem mem_keys {field : String × Value} (member : field ∈ object) : field.1 ∈ object.keys :=
  List.mem_map_of_mem member

theorem get_of_absent (absent : key ∉ object.keys) : object.get? key = none := by
  refine List.lookup_eq_none_iff.mpr fun field member => ?_
  have differs : key ≠ field.1 := fun same => absent (same ▸ mem_keys member)
  simpa using differs

/-- Objects with the same keys in the same order, and the same under each key, are the same. -/
theorem eq_of_lookups (distinct : object.keys.Nodup) (same_keys : other.keys = object.keys)
    (same : ∀ key, other.get? key = object.get? key) : other = object := by
  induction object generalizing other with
  | nil => exact List.map_eq_nil_iff.mp same_keys
  | cons field rest ih =>
      cases other with
      | nil => cases same_keys
      | cons twin more =>
          obtain ⟨apart, others⟩ := List.nodup_cons.mp distinct
          have name : twin.1 = field.1 := (List.cons.inj same_keys).1
          have names : keys more = keys rest := (List.cons.inj same_keys).2
          simp only [get?, lookup_cons_if, name] at same
          have value : some twin.2 = some field.2 := by simpa using same field.1
          refine congrArg₂ List.cons (Prod.ext name (Option.some.inj value)) (ih others names ?_)
          intro key
          by_cases here : key = field.1
          · have gone : key ∉ keys rest := here ▸ apart
            rw [get_of_absent gone, get_of_absent (names ▸ gone)]
          · have found := same key
            rwa [if_neg here, if_neg here] at found

theorem put_known (known : key ∈ object.keys) (distinct : object.keys.Nodup) (value : Value) :
    object.put key value =
      object.map fun field => if field.1 = key then (key, value) else field := by
  induction object with
  | nil => cases known
  | cons field rest ih =>
      have apart : field.1 ∉ keys rest := (List.nodup_cons.mp distinct).1
      rw [put, List.map_cons]
      by_cases here : field.1 = key
      · -- The key does not occur behind its first place.
        have kept : (rest.map fun field => if field.1 = key then (key, value) else field) = rest := by
          refine (List.map_congr_left fun later member => ?_).trans (List.map_id rest)
          have differs : later.1 ≠ key := fun same =>
            apart (here.trans same.symm ▸ mem_keys member)
          exact if_neg differs
        rw [if_pos here, if_pos here, kept]
      · have later : key ∈ keys rest := (List.mem_cons.mp known).resolve_left (Ne.symm here)
        rw [if_neg here, if_neg here, ih later (List.nodup_cons.mp distinct).2]

theorem add_put (object : Object) (key : String) (value : Value) :
    object.add key value = object.put key (merged value (object.get? key)) :=
  insert_put value key object

section Removing

theorem keys_remove (key : String) (object : Object) :
    (object.remove key).keys = object.keys.erase key := by
  induction object with
  | nil => rfl
  | cons field rest ih =>
      rw [remove, keys] at *
      by_cases here : field.1 = key
      · simp [keys, here]
      · simp [keys, here, ih]

theorem get_remove (key other : String) (distinct : object.keys.Nodup) :
    (object.remove key).get? other = if other = key then none else object.get? other := by
  by_cases same : other = key
  · have gone : other ∉ (object.remove key).keys := by
      rw [keys_remove, same]
      exact distinct.not_mem_erase
    rw [if_pos same, get_of_absent gone]
  · rw [if_neg same, remove]
    clear distinct
    induction object with
    | nil => rfl
    | cons field rest ih =>
        by_cases here : field.1 = key
        · simp [get?, lookup_cons_if, here, same]
        · simp only [get?, lookup_cons_if] at ih ⊢
          simp [here, lookup_cons_if, ih]

theorem remove_nodup (key : String) (distinct : object.keys.Nodup) :
    (object.remove key).keys.Nodup := by
  rw [keys_remove]
  exact distinct.erase key

end Removing

end Object

namespace Value

variable {value : Value} {before : Option Value}

theorem DistinctKeys.fields {fields : Object} (held : (Value.object fields).DistinctKeys) :
    fields.keys.Nodup ∧ ∀ key value, fields.get? key = some value → value.DistinctKeys := by
  cases held with
  | single unlisted unfielded => exact absurd rfl (unfielded fields)
  | object distinct each => exact ⟨distinct, fun key value found => each _ (mem_of_lookup found)⟩

theorem DistinctKeys.of_lookups {fields : Object} (distinct : fields.keys.Nodup)
    (each : ∀ key value, fields.get? key = some value → value.DistinctKeys) :
    (Value.object fields).DistinctKeys :=
  .object distinct fun field member => each field.1 field.2 (lookup_of_mem distinct member)

/-- What is added comes to what the rules of merging say. -/
theorem DistinctKeys.merges (held : value.DistinctKeys) (before : Option Value) :
    value.MergesTo before (Object.merged value before) := by
  induction held generalizing before with
  | single unlisted unfielded =>
      rw [Object.merged_plain fun fields _ same => absurd same (unfielded fields)]
      exact .replaced fun fields _ same => absurd same (unfielded fields)
  | list each ih =>
      rw [Object.merged_plain fun _ _ same => by cases same]
      exact .replaced fun _ _ same => by cases same
  | @object fields distinct each ih =>
      unfold Object.merged
      split
      · rename_i content existing same
        cases same
        refine .merged ?_ (fun key absent => ?_) fun key value made found stands => ?_
        · rw [Object.keys_insert_all, append_new_distinct distinct]
        · rw [Object.get_merged distinct, Object.get_of_absent absent]
        · rw [Object.get_merged distinct, found] at stands
          cases stands
          exact ih (key, value) (mem_of_lookup found) _
      · rename_i apart
        exact .replaced fun content existing same there => apart content existing same there

theorem DistinctKeys.merged (held : value.DistinctKeys)
    (stood : ∀ earlier, before = some earlier → earlier.DistinctKeys) :
    (Object.merged value before).DistinctKeys := by
  induction held generalizing before with
  | single unlisted unfielded =>
      rw [Object.merged_plain fun fields _ same => absurd same (unfielded fields)]
      exact .single unlisted unfielded
  | list each ih =>
      rw [Object.merged_plain fun _ _ same => by cases same]
      exact .list each
  | @object fields distinct each ih =>
      unfold Object.merged
      split
      · rename_i content existing same
        cases same
        obtain ⟨distinct_before, held_before⟩ := (stood _ rfl).fields
        refine .of_lookups (Object.merged_nodup fields distinct_before) fun key made found => ?_
        rw [Object.get_merged distinct] at found
        cases here : Object.get? fields key with
        | none =>
            rw [here] at found
            exact held_before key made found
        | some value =>
            rw [here] at found
            cases found
            exact ih (key, value) (mem_of_lookup here) (held_before key)
      · exact .object distinct each

/-- The rules of merging leave no choice. -/
theorem MergesTo.unique {made other : Value} (merges : value.MergesTo before made)
    (held : value.DistinctKeys) (stood : ∀ earlier, before = some earlier → earlier.DistinctKeys)
    (again : value.MergesTo before other) : other = made := by
  induction merges generalizing other with
  | replaced apart =>
      cases again with
      | replaced => rfl
      | merged => exact absurd rfl (apart _ _ rfl)
  | @merged fields existing object keys kept each ih =>
      cases again with
      | replaced apart => exact absurd rfl (apart _ _ rfl)
      | @merged _ _ twin twin_keys twin_kept twin_each =>
          obtain ⟨distinct, inner⟩ := held.fields
          obtain ⟨distinct_before, inner_before⟩ := (stood _ rfl).fields
          have names : object.keys.Nodup := by
            rw [keys, ← append_new_distinct distinct]
            exact append_new_nodup distinct_before _
          refine congrArg Value.object (Object.eq_of_lookups names (twin_keys.trans keys.symm) ?_)
          intro key
          by_cases added : key ∈ fields.keys
          · -- Both hold something under the key, and it is what the added value comes to.
            have known : key ∈ object.keys := by
              rw [keys, ← append_new_distinct distinct, mem_append_new]
              exact .inr added
            obtain ⟨value, found⟩ := lookup_of_key distinct added
            obtain ⟨made, here⟩ := lookup_of_key names known
            obtain ⟨other, there⟩ := lookup_of_key (twin_keys.trans keys.symm ▸ names)
              (twin_keys.trans keys.symm ▸ known)
            have same := ih key value made found here (inner key value found)
              (inner_before key) (twin_each key value other found there)
            exact there.trans ((congrArg some same).trans here.symm)
          · rw [twin_kept key added, kept key added]

/-- A value that is added to itself comes to itself. -/
theorem DistinctKeys.merged_self (held : value.DistinctKeys) :
    Object.merged value (some value) = value := by
  induction held with
  | single unlisted unfielded =>
      exact Object.merged_plain fun fields _ same => absurd same (unfielded fields)
  | list each ih => exact Object.merged_plain fun _ _ same => by cases same
  | @object fields distinct each ih =>
      rw [Object.merged]
      refine congrArg Value.object (Object.eq_of_lookups distinct ?_ fun key => ?_)
      · rw [Object.keys_insert_all, append_new_known fun name known => known]
      · rw [Object.get_merged distinct]
        cases found : Object.get? fields key with
        | none => rfl
        | some value => exact congrArg some (ih (key, value) (mem_of_lookup found))

end Value

namespace Object

variable {object : Object} {key : String} {value : Value}

/-- Additions to an object whose keys are distinct throughout do what they should. -/
theorem adds (held : (Value.object object).DistinctKeys) (key : String)
    (given : value.DistinctKeys) : object.Adds key value := by
  obtain ⟨distinct, inner⟩ := held.fields
  have comes := given.merges (object.get? key)
  have only {other : Value} (again : value.MergesTo (object.get? key) other) :
      other = merged value (object.get? key) := comes.unique given (inner key) again
  constructor
  case under =>
    refine ⟨merged value (object.get? key), ?_, fun other => ⟨only, fun same => same ▸ comes⟩⟩
    rw [add_put, get_put, if_pos rfl]
  case inPlace =>
    intro known made merges
    rw [add_put, ← only merges, put_known known distinct]
  case atEnd => exact fun fresh => insert_fresh fresh value
  case elsewhere =>
    intro other apart
    rw [add_put, get_put, if_neg apart]
  case merges =>
    rintro fields existing rfl stands
    simp only [replaced?, stands]
  case replaces =>
    intro apart
    unfold replaced?
    split
    · rename_i fields existing stands
      exact absurd stands (apart fields existing rfl)
    · rfl

theorem add_distinct (held : (Value.object object).DistinctKeys) (key : String)
    (given : value.DistinctKeys) : (Value.object (object.add key value)).DistinctKeys := by
  obtain ⟨distinct, inner⟩ := held.fields
  rw [add_put]
  refine .of_lookups (put_nodup key _ distinct) fun name made found => ?_
  rw [get_put] at found
  split at found
  · cases found
    exact given.merged (inner key)
  · exact inner name made found

theorem remove_distinct (held : (Value.object object).DistinctKeys) (key : String) :
    (Value.object (object.remove key)).DistinctKeys := by
  obtain ⟨distinct, inner⟩ := held.fields
  refine .of_lookups (remove_nodup key distinct) fun name value found => ?_
  rw [get_remove key name distinct] at found
  split at found
  · cases found
  · exact inner name value found

/-- An object that is merged into itself stays as it is. -/
theorem add_again (held : (Value.object object).DistinctKeys) {fields : Object}
    (stands : object.get? key = some (.object fields)) :
    object.add key (.object fields) = object := by
  obtain ⟨distinct, inner⟩ := held.fields
  have same := (inner key _ stands).merged_self
  rw [add_put, stands, same]
  refine eq_of_lookups distinct ?_ fun other => ?_
  · rw [keys_put, append_new_one, if_pos (mem_keys (mem_of_lookup stands))]
  · rw [get_put]
    split
    · rename_i here
      rw [here, stands]
    · rfl

end Object

end GraphQL
