import GraphQL.Proofs.Collection
import GraphQL.Proofs.JsonRoundTrip

/-!
Fields that are added to an object in turn.

Under a repeated key an object is merged into the object that stands there; any other value takes
the place of what stands there. So in the end there stands what the values of the key add up to. It
differs from the last of them in nothing but order exactly if that one absorbs the others: it is no
object, or there was none before, or it has all fields of that one and absorbs each of them.
-/

namespace GraphQL

variable {α β : Type}

/-- The values of a key among fields, in their order. -/
def valuesOf (key : String) (fields : List (String × α)) : List α :=
  (fields.filter fun field => field.1 = key).map (·.2)

section Fields

theorem values_of_cons (key : String) (field : String × α) (rest : List (String × α)) :
    valuesOf key (field :: rest) =
      if field.1 = key then field.2 :: valuesOf key rest else valuesOf key rest := by
  by_cases same : field.1 = key <;> simp [valuesOf, same]

theorem mem_values_of {key : String} {value : α} {fields : List (String × α)} :
    value ∈ valuesOf key fields ↔ (key, value) ∈ fields := by
  simp [valuesOf]

theorem values_of_map (change : α → β) (key : String) (fields : List (String × α)) :
    valuesOf key (fields.map fun field => (field.1, change field.2)) =
      (valuesOf key fields).map change := by
  simp [valuesOf, List.filter_map, Function.comp_def]

theorem lookup_cons_if (key : String) (field : String × α) (rest : List (String × α)) :
    (field :: rest).lookup key = if key = field.1 then some field.2 else rest.lookup key := by
  by_cases same : key = field.1
  · have here : (key == field.1) = true := beq_iff_eq.mpr same
    rw [List.lookup_cons, here, if_pos same]
  · have apart : (key == field.1) = false := beq_false_of_ne same
    rw [List.lookup_cons, apart, if_neg same]

/-- Of distinct keys each has one value at most, the one that is looked up. -/
theorem lookup_of_mem {key : String} {value : α} {fields : List (String × α)}
    (distinct : (fields.map (·.1)).Nodup) (member : (key, value) ∈ fields) :
    fields.lookup key = some value := by
  induction fields with
  | nil => cases member
  | cons field rest ih =>
      rw [List.map_cons, List.nodup_cons] at distinct
      rw [lookup_cons_if]
      rcases List.mem_cons.mp member with rfl | later
      · exact if_pos rfl
      · have apart : key ≠ field.1 := fun same =>
          distinct.1 (List.mem_map.mpr ⟨_, later, same⟩)
        rw [if_neg apart]
        exact ih distinct.2 later

theorem lookup_of_key {key : String} {fields : List (String × α)}
    (distinct : (fields.map (·.1)).Nodup) (known : key ∈ fields.map (·.1)) :
    ∃ value, fields.lookup key = some value := by
  obtain ⟨⟨_, value⟩, member, rfl⟩ := List.mem_map.mp known
  exact ⟨value, lookup_of_mem distinct member⟩

theorem mem_of_lookup {key : String} {value : α} {fields : List (String × α)}
    (found : fields.lookup key = some value) : (key, value) ∈ fields := by
  induction fields with
  | nil => cases found
  | cons field rest ih =>
      rw [lookup_cons_if] at found
      split at found
      · rename_i same
        cases found
        exact same ▸ List.mem_cons_self
      · exact List.mem_cons_of_mem _ (ih found)

theorem lookup_map (change : α → β) (key : String) (fields : List (String × α)) :
    (fields.map fun field => (field.1, change field.2)).lookup key =
      (fields.lookup key).map change := by
  induction fields with
  | nil => rfl
  | cons field rest ih =>
      rw [List.map_cons, lookup_cons_if, lookup_cons_if, ih]
      split <;> rfl

/-- Of distinct keys each has no more values than are looked up. -/
theorem values_of_distinct {fields : List (String × α)} (distinct : (fields.map (·.1)).Nodup)
    (key : String) : valuesOf key fields = (fields.lookup key).toList := by
  induction fields with
  | nil => rfl
  | cons field rest ih =>
      rw [List.map_cons, List.nodup_cons] at distinct
      rw [values_of_cons, lookup_cons_if, ih distinct.2]
      by_cases same : field.1 = key
      · have absent : rest.lookup key = none := by
          cases found : rest.lookup key with
          | none => rfl
          | some value =>
              exact absurd (same ▸ List.mem_map_of_mem (mem_of_lookup found)) distinct.1
        rw [if_pos same, if_pos same.symm, absent]
        rfl
      · rw [if_neg same, if_neg (Ne.symm same)]

/-- A key that stands among fields has a last value there. -/
theorem key_iff_last {key : String} {fields : List (String × α)} :
    key ∈ fields.map (·.1) ↔ ∃ before last, valuesOf key fields = before ++ [last] := by
  constructor
  · intro known
    obtain ⟨⟨_, value⟩, member, rfl⟩ := List.mem_map.mp known
    have filled := List.ne_nil_of_mem (mem_values_of.mpr member)
    exact ⟨_, _, (List.dropLast_append_getLast filled).symm⟩
  · rintro ⟨before, last, values⟩
    have member : last ∈ valuesOf key fields := values ▸ List.mem_append_right _ (by simp)
    exact List.mem_map_of_mem (mem_values_of.mp member)

/-- The keys of fields are those under which something is looked up. -/
theorem key_iff_lookup {key : String} {fields : List (String × α)}
    (distinct : (fields.map (·.1)).Nodup) :
    key ∈ fields.map (·.1) ↔ ∃ value, fields.lookup key = some value :=
  ⟨lookup_of_key distinct, fun ⟨_, found⟩ => List.mem_map_of_mem (mem_of_lookup found)⟩

end Fields

namespace Object

/-- What stands under a key once a value is added there. -/
def merged : Value → Option Value → Value
  | .object fields, some (.object existing) => .object (insertAll fields existing)
  | value, _ => value

theorem get_put (key other : String) (value : Value) (object : Object) :
    (object.put key value).get? other = if other = key then some value else object.get? other := by
  simp only [get?]
  induction object with
  | nil => exact lookup_cons_if other (key, value) []
  | cons field rest ih =>
      rw [put]
      split
      · rename_i here
        rw [lookup_cons_if, lookup_cons_if, here]
        split <;> rfl
      · rename_i apart
        rw [lookup_cons_if, ih, lookup_cons_if]
        by_cases same : other = key
        · have elsewhere : other ≠ field.1 := fun again => apart (again.symm.trans same)
          rw [if_neg elsewhere, if_pos same, if_pos same]
        · rw [if_neg same, if_neg same]

theorem keys_put (key : String) (value : Value) (object : Object) :
    (object.put key value).keys = appendNew object.keys [key] := by
  induction object with
  | nil => rfl
  | cons field rest ih =>
      rw [put]
      by_cases same : field.1 = key
      · simp [keys, append_new_one, same]
      · have fields : field.1 :: appendNew (keys rest) [key] =
            appendNew (field.1 :: keys rest) [key] := by
          rw [append_new_one, append_new_one]
          by_cases known : key ∈ keys rest
          · rw [if_pos known, if_pos (List.mem_cons_of_mem _ known)]
          · rw [if_neg known, if_neg (by simp [known, Ne.symm same]), List.cons_append]
        rw [if_neg same]
        exact (congrArg (field.1 :: ·) ih).trans fields

theorem put_nodup (key : String) (value : Value) {object : Object}
    (distinct : object.keys.Nodup) : (object.put key value).keys.Nodup := by
  rw [keys_put]
  exact append_new_nodup distinct _

theorem insert_put (value : Value) (key : String) (object : Object) :
    insert value key object = object.put key (merged value (object.get? key)) := by
  cases value with
  | object fields =>
      rw [insert]
      split
      · rename_i existing found
        rw [found, merged]
      · rename_i other
        rw [merged]
        exact fun _ existing _ => other existing
  | _ => rw [insert, merged] <;> simp

theorem keys_insert_all (pairs : List (String × Value)) (object : Object) :
    (insertAll pairs object).keys = appendNew object.keys (keys pairs) := by
  induction pairs generalizing object with
  | nil => rfl
  | cons pair rest ih =>
      obtain ⟨key, value⟩ := pair
      rw [insertAll, ih, insert_put, keys_put, ← append_new_append]
      rfl

theorem of_list_keys_nodup (pairs : List (String × Value)) : (keys (ofList pairs)).Nodup := by
  rw [ofList, keys_insert_all]
  exact append_new_nodup List.nodup_nil _

/-- The values of a key are added to one another in turn. -/
theorem get_insert_all (key : String) (pairs : List (String × Value)) (object : Object) :
    (insertAll pairs object).get? key =
      (valuesOf key pairs).foldl (fun before value => some (merged value before))
        (object.get? key) := by
  induction pairs generalizing object with
  | nil => rfl
  | cons pair rest ih =>
      obtain ⟨name, value⟩ := pair
      rw [insertAll, ih, insert_put, get_put, values_of_cons]
      by_cases same : name = key
      · rw [if_pos same.symm, if_pos same, List.foldl_cons, same]
      · rw [if_neg (Ne.symm same), if_neg same]

/-- What the values of a key add up to. -/
def addedUp (values : List Value) : Option Value :=
  values.foldl (fun before value => some (merged value before)) none

theorem get_of_list (key : String) (pairs : List (String × Value)) :
    (ofList pairs).get? key = addedUp (valuesOf key pairs) := get_insert_all key pairs []

theorem added_up_append (before : List Value) (last : Value) :
    addedUp (before ++ [last]) = some (merged last (addedUp before)) := by
  rw [addedUp, List.foldl_append, List.foldl_cons, List.foldl_nil, addedUp]

theorem merged_plain {value : Value} {before : Option Value}
    (apart : ∀ fields existing, value = .object fields → before ≠ some (.object existing)) :
    merged value before = value := by
  unfold merged
  split
  · exact absurd rfl (apart _ _ rfl)
  · rfl

/-- In a merged object there stands what both add up to. -/
theorem get_merged {fields : Object} (distinct : fields.keys.Nodup) (existing : Object)
    (key : String) :
    (insertAll fields existing).get? key =
      match fields.get? key with
      | none => existing.get? key
      | some value => some (merged value (existing.get? key)) := by
  rw [get_insert_all, values_of_distinct distinct, ← get?]
  cases fields.get? key <;> rfl

theorem mem_merged_keys (fields existing : Object) (key : String) :
    key ∈ (insertAll fields existing).keys ↔ key ∈ existing.keys ∨ key ∈ fields.keys := by
  rw [keys_insert_all, mem_append_new]

theorem merged_nodup (fields : Object) {existing : Object} (distinct : existing.keys.Nodup) :
    (insertAll fields existing).keys.Nodup := by
  rw [keys_insert_all]
  exact append_new_nodup distinct _

end Object

namespace Value

/-- The keys of an object are distinct, and so are those of the objects that are its values. -/
inductive Keyed : Value → Prop where
  | plain {value} (apart : ∀ fields, value ≠ .object fields) : Keyed value
  | object {fields} (distinct : (Object.keys fields).Nodup)
      (each : ∀ field ∈ fields, Keyed field.2) : Keyed (.object fields)

/-- A value that is added behind an earlier one replaces that in full. -/
inductive AbsorbedBy : Value → Value → Prop where
  | replaced {earlier later}
      (apart : ∀ fields existing, later = .object fields → earlier ≠ .object existing) :
      AbsorbedBy earlier later
  | object {existing fields : Object} (known : ∀ key ∈ existing.keys, key ∈ fields.keys)
      (each : ∀ key old value, existing.get? key = some old → fields.get? key = some value →
        AbsorbedBy old value) :
      AbsorbedBy (.object existing) (.object fields)

/-- A value has at least the fields of another one, and so have its fields. -/
inductive Covers : Value → Value → Prop where
  | plain {value other} (apart : ∀ fields, other ≠ .object fields) : Covers value other
  | object {fields others : Object} (known : ∀ key ∈ others.keys, key ∈ fields.keys)
      (each : ∀ key value other, fields.get? key = some value → others.get? key = some other →
        Covers value other) :
      Covers (.object fields) (.object others)

section Lookups

variable {object other : Object}

/-- Objects with the same keys, and alike values under each, differ in the order of fields. -/
theorem reordered_of_lookups (distinct : object.keys.Nodup) (other_distinct : other.keys.Nodup)
    (same : ∀ key, key ∈ object.keys ↔ key ∈ other.keys)
    (each : ∀ key value found, object.get? key = some value → other.get? key = some found →
      value.Reordered found) : (Value.object object).Reordered (.object other) := by
  let partner (field : String × Value) : String × Value :=
    (field.1, (other.get? field.1).getD field.2)
  have fields (some : List (String × Value)) (among : some ⊆ object) :
      ReorderedFields some (some.map partner) := by
    induction some with
    | nil => exact .nil
    | cons field rest ih =>
        obtain ⟨here, later⟩ := List.cons_subset.mp among
        refine .cons ?_ (ih later)
        have found := lookup_of_mem distinct here
        cases there : other.get? field.1 with
        | none => exact .refl _
        | some value => exact each field.1 field.2 value found there
  refine .object (fields object (List.Subset.refl _)) ?_
  have names : (object.map partner).map (·.1) = object.keys := by
    rw [List.map_map]
    rfl
  have left : ((object.map partner).map (·.1)).Nodup := names ▸ distinct
  have right : (other.map (·.1)).Nodup := other_distinct
  rw [List.perm_ext_iff_of_nodup (.of_map _ left) (.of_map _ right)]
  rintro ⟨key, value⟩
  constructor
  · intro member
    obtain ⟨field, inside, paired⟩ := List.mem_map.mp member
    obtain ⟨rfl, chosen⟩ := Prod.mk.inj paired
    obtain ⟨found, there⟩ := lookup_of_key right ((same _).mp (List.mem_map_of_mem inside))
    have chosen : found = value := by simpa [Object.get?, there] using chosen
    exact chosen ▸ mem_of_lookup there
  · intro member
    have there := lookup_of_mem right member
    obtain ⟨old, inside⟩ := lookup_of_key distinct ((same key).mpr (List.mem_map_of_mem member))
    refine List.mem_map.mpr ⟨(key, old), mem_of_lookup inside, ?_⟩
    simp [partner, Object.get?, there]

theorem reordered_partner {fields others : List (String × Value)}
    (each : ReorderedFields fields others) {key : String} {value : Value}
    (member : (key, value) ∈ fields) : ∃ found, (key, found) ∈ others ∧ value.Reordered found := by
  induction fields generalizing others with
  | nil => cases member
  | cons field rest ih =>
      cases each with
      | cons first more =>
          rcases List.mem_cons.mp member with here | later
          · cases here
            exact ⟨_, List.mem_cons_self, first⟩
          · obtain ⟨found, inside, alike⟩ := ih more later
            exact ⟨found, List.mem_cons_of_mem _ inside, alike⟩

theorem reordered_keys_kept {fields others : List (String × Value)}
    (each : ReorderedFields fields others) : others.map (·.1) = fields.map (·.1) := by
  induction fields generalizing others with
  | nil =>
      cases each
      rfl
  | cons field rest ih =>
      cases each with
      | cons first more => rw [List.map_cons, List.map_cons, ih more]

theorem Reordered.of_object {converted : Value}
    (reordered : (Value.object object).Reordered converted) :
    ∃ other, converted = .object other := by
  cases reordered with
  | refl => exact ⟨_, rfl⟩
  | object => exact ⟨_, rfl⟩

/-- What differs from an object in the order of fields is an object with alike fields. -/
theorem Reordered.lookups (distinct : object.keys.Nodup) {converted : Value}
    (reordered : (Value.object object).Reordered converted) :
    ∃ other : Object, converted = .object other ∧ other.keys.Nodup ∧
      (∀ key, key ∈ object.keys ↔ key ∈ other.keys) ∧
      ∀ key value found, object.get? key = some value → other.get? key = some found →
        value.Reordered found := by
  cases reordered with
  | refl =>
      refine ⟨object, rfl, distinct, fun _ => .rfl, fun key value found here there => ?_⟩
      cases here.symm.trans there
      exact .refl _
  | @object _ middle other each perm =>
      have names : (other.map (·.1)).Perm (object.map (·.1)) :=
        (perm.map (·.1)).symm.trans (.of_eq (reordered_keys_kept each))
      have nodup : (other.map (·.1)).Nodup := names.nodup_iff.mpr distinct
      refine ⟨other, rfl, nodup, fun key => names.mem_iff.symm,
        fun key value found here there => ?_⟩
      obtain ⟨partner, inside, alike⟩ := reordered_partner each (mem_of_lookup here)
      have found_there := lookup_of_mem nodup (perm.mem_iff.mp inside)
      cases there.symm.trans found_there
      exact alike

end Lookups

section Merging

variable {later converted : Value}

theorem Keyed.fields {fields : Object} (keyed : (Value.object fields).Keyed) :
    fields.keys.Nodup ∧ ∀ key value, fields.get? key = some value → value.Keyed := by
  cases keyed with
  | plain apart => exact absurd rfl (apart fields)
  | object distinct each => exact ⟨distinct, fun key value found => each _ (mem_of_lookup found)⟩

/-- Adding fields one by one keeps keys distinct. -/
theorem Keyed.insert_all {pairs : List (String × Value)} {existing : Object}
    (each : ∀ pair ∈ pairs, ∀ before, (∀ earlier, before = some earlier → earlier.Keyed) →
      (Object.merged pair.2 before).Keyed)
    (keyed : (Value.object existing).Keyed) :
    (Value.object (Object.insertAll pairs existing)).Keyed := by
  induction pairs generalizing existing with
  | nil => exact keyed
  | cons pair rest ih =>
      obtain ⟨here, others⟩ := List.forall_mem_cons.mp each
      obtain ⟨key, value⟩ := pair
      obtain ⟨distinct, held⟩ := keyed.fields
      rw [Object.insertAll, Object.insert_put]
      have names := Object.put_nodup key (Object.merged value (existing.get? key)) distinct
      refine ih others (.object names fun field member => ?_)
      · have found := lookup_of_mem names member
        rw [← Object.get?, Object.get_put] at found
        split at found
        · rw [← Option.some.inj found]
          exact here _ (held key)
        · exact held _ _ found

theorem Keyed.merged (keyed : later.Keyed) {before : Option Value}
    (stood : ∀ earlier, before = some earlier → earlier.Keyed) :
    (Object.merged later before).Keyed := by
  induction keyed generalizing before with
  | plain apart =>
      rw [Object.merged_plain fun fields _ same => absurd same (apart fields)]
      exact .plain apart
  | @object fields distinct each ih =>
      unfold Object.merged
      split
      · rename_i existing same
        cases same
        exact Keyed.insert_all (fun pair member before stood => ih pair member stood)
          (stood _ rfl)
      · exact .object distinct each

/-- What absorbs an earlier value is left unchanged by it, but for the order of fields. -/
theorem AbsorbedBy.merged_reordered {earlier : Value} (absorbed : earlier.AbsorbedBy later)
    (keyed : later.Keyed) (stood : earlier.Keyed) (reordered : later.Reordered converted) :
    (Object.merged later (some earlier)).Reordered converted := by
  induction absorbed generalizing converted with
  | replaced apart =>
      rw [Object.merged_plain fun fields existing same behind =>
        apart fields existing same (Option.some.inj behind)]
      exact reordered
  | @object existing fields known each ih =>
      obtain ⟨distinct, held⟩ := keyed.fields
      obtain ⟨distinct_before, held_before⟩ := stood.fields
      obtain ⟨others, rfl, distinct_others, same, alike⟩ := Reordered.lookups distinct reordered
      refine reordered_of_lookups (Object.merged_nodup fields distinct_before) distinct_others
        (fun key => ?_) fun key value found stands there => ?_
      · rw [Object.mem_merged_keys, ← same]
        exact or_iff_right_of_imp (known key)
      · rw [Object.get_merged distinct] at stands
        obtain ⟨own, here⟩ := lookup_of_key distinct
          ((same key).mpr (List.mem_map_of_mem (mem_of_lookup there)))
        rw [← Object.get?] at here
        rw [here] at stands
        have inner := alike key own found here there
        rw [← Option.some.inj stands]
        cases before : existing.get? key with
        | none =>
            rw [Object.merged_plain fun _ _ _ absent => by cases absent]
            exact inner
        | some old =>
            exact ih key old own before here (held key own here) (held_before key old before) inner

/-- A value that covers another one still does when it is added to something. -/
theorem Covers.merged (covers : later.Covers converted) (keyed : later.Keyed)
    (before : Option Value) : (Object.merged later before).Covers converted := by
  induction covers generalizing before with
  | plain apart => exact .plain apart
  | @object fields others known each ih =>
      obtain ⟨distinct, held⟩ := keyed.fields
      unfold Object.merged
      split
      · rename_i content existing same
        cases same
        refine .object (fun key there => ?_) fun key value other stands there => ?_
        · rw [Object.mem_merged_keys]
          exact .inr (known key there)
        · obtain ⟨own, here⟩ := lookup_of_key distinct
            (known key (List.mem_map_of_mem (mem_of_lookup there)))
          rw [← Object.get?] at here
          rw [Object.get_merged distinct, here] at stands
          rw [← Option.some.inj stands]
          exact ih key own other here there (held key own here) _
      · exact .object known each

/-- Where a merged object has the fields of another one, each of these is what both add up to. -/
theorem Reordered.of_merged {fields existing others : Object} (distinct : fields.keys.Nodup)
    (distinct_before : existing.keys.Nodup)
    (reordered : (Value.object (Object.insertAll fields existing)).Reordered (.object others)) :
    others.keys.Nodup ∧
      (∀ key, key ∈ existing.keys ∨ key ∈ fields.keys ↔ key ∈ others.keys) ∧
      ∀ key value found, fields.get? key = some value → others.get? key = some found →
        (Object.merged value (existing.get? key)).Reordered found := by
  obtain ⟨found, same, distinct_others, among, alike⟩ :=
    Reordered.lookups (Object.merged_nodup fields distinct_before) reordered
  obtain rfl := Value.object.inj same
  refine ⟨distinct_others, fun key => ?_, fun key value found here there => ?_⟩
  · rw [← Object.mem_merged_keys, among]
  · exact alike key _ found (by rw [Object.get_merged distinct, here]) there

/--
If something is equal to a value once it was added to an earlier one, it is equal to begin with and
absorbs the earlier one. For an addition only brings fields in, and there was none too few.
-/
theorem Covers.absorbs (covers : later.Covers converted) (keyed : later.Keyed) {earlier : Value}
    (stood : earlier.Keyed) (reordered : (Object.merged later (some earlier)).Reordered converted) :
    later.Reordered converted ∧ earlier.AbsorbedBy later := by
  induction covers generalizing earlier with
  | @plain later converted apart =>
      have replaces : ∀ fields existing, later = .object fields → earlier ≠ .object existing := by
        rintro fields existing rfl rfl
        obtain ⟨others, same⟩ := reordered.of_object
        exact apart others same
      rw [Object.merged_plain fun fields existing same behind =>
        replaces fields existing same (Option.some.inj behind)] at reordered
      exact ⟨reordered, .replaced replaces⟩
  | @object fields others known each ih =>
      by_cases plain : ∀ existing, earlier ≠ .object existing
      · rw [Object.merged_plain fun _ existing _ behind =>
          plain existing (Option.some.inj behind)] at reordered
        exact ⟨reordered, .replaced fun _ existing _ => plain existing⟩
      · obtain ⟨existing, same⟩ := not_forall.mp plain
        obtain rfl := not_not.mp same
        obtain ⟨distinct, held⟩ := keyed.fields
        obtain ⟨distinct_before, held_before⟩ := stood.fields
        obtain ⟨distinct_others, among, inner⟩ :=
          Reordered.of_merged distinct distinct_before reordered
        refine ⟨reordered_of_lookups distinct distinct_others
          (fun key => ⟨fun own => (among key).mp (.inr own), known key⟩)
          fun key value found here there => ?_,
          .object (fun key before => known key ((among key).mp (.inl before)))
            fun key old value before here => ?_⟩
        · have own := inner key value found here there
          cases before : Object.get? existing key with
          | none =>
              rw [before, Object.merged_plain fun _ _ _ absent => by cases absent] at own
              exact own
          | some old =>
              rw [before] at own
              exact (ih key value found here there (held key value here)
                (held_before key old before) own).1
        · obtain ⟨found, there⟩ := lookup_of_key distinct_others
            ((among key).mp (.inr (List.mem_map_of_mem (mem_of_lookup here))))
          have own := inner key value found here there
          rw [before] at own
          exact (ih key value found here there (held key value here)
            (held_before key old before) own).2

end Merging

end Value

end GraphQL
