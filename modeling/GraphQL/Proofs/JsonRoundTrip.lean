import GraphQL.Json.Reading
import GraphQL.Proofs.LiteralCoercion
import GraphQL.Proofs.Widening
import GraphQL.Value.Json

/-!
Values come back from JSON as they were.

Written as a tree, a value is read back with its fields in their order: integers stay integers, and
floats stay floats even where they are whole. The tree may go through a text on the way, if floats
are still narrowed to what they were afterwards. Converted to a tree whose keys are sorted, a value
comes back up to the order of its fields.
-/

namespace GraphQL

/-- A value that has a form in JSON: no host records, finite floats, and keys that are distinct. -/
inductive Value.Portable : Value → Prop where
  | null : Portable .null
  | bool (value : Bool) : Portable (.bool value)
  | int (value : Int32) : Portable (.int value)
  | float {value : Single} (finite : value.isFinite = true) : Portable (.float value)
  | string (text : String) : Portable (.string text)
  | list {items} (each : ∀ item ∈ items, Portable item) : Portable (.list items)
  | object {fields} (distinct : (Object.keys fields).Nodup)
      (each : ∀ field ∈ fields, Portable field.2) : Portable (.object fields)

namespace Json

mutual

/-- The tree with all its floats changed. -/
def mapFloats (change : Double → Double) : Json → Json
  | .float value => .float (change value)
  | .array items => .array (mapItemFloats change items)
  | .object fields => .object (mapFieldFloats change fields)
  | other => other

def mapItemFloats (change : Double → Double) : List Json → List Json
  | [] => []
  | item :: rest => item.mapFloats change :: mapItemFloats change rest

def mapFieldFloats (change : Double → Double) : List (String × Json) → List (String × Json)
  | [] => []
  | (key, value) :: rest => (key, value.mapFloats change) :: mapFieldFloats change rest

end

mutual

theorem map_floats_id : ∀ json : Json, json.mapFloats id = json
  | .null | .bool _ | .integer _ | .string _ => by simp only [mapFloats]
  | .float _ => by rw [mapFloats, id_eq]
  | .array items => by rw [mapFloats, map_item_floats_id items]
  | .object fields => by rw [mapFloats, map_field_floats_id fields]

theorem map_item_floats_id : ∀ items : List Json, mapItemFloats id items = items
  | [] => by rw [mapItemFloats]
  | item :: rest => by rw [mapItemFloats, map_floats_id item, map_item_floats_id rest]

theorem map_field_floats_id : ∀ fields : List (String × Json), mapFieldFloats id fields = fields
  | [] => by rw [mapFieldFloats]
  | (key, value) :: rest => by rw [mapFieldFloats, map_floats_id value, map_field_floats_id rest]

end

mutual

/-- Trees that differ in nothing but the order of fields, at any depth. -/
inductive Reordered : Json → Json → Prop where
  | refl (json : Json) : Reordered json json
  | array {items others} (each : ReorderedItems items others) :
      Reordered (.array items) (.array others)
  | object {fields middle others} (each : ReorderedFields fields middle)
      (perm : middle.Perm others) : Reordered (.object fields) (.object others)

inductive ReorderedItems : List Json → List Json → Prop where
  | nil : ReorderedItems [] []
  | cons {item other rest others} (first : Reordered item other)
      (more : ReorderedItems rest others) : ReorderedItems (item :: rest) (other :: others)

inductive ReorderedFields : List (String × Json) → List (String × Json) → Prop where
  | nil : ReorderedFields [] []
  | cons {key value other rest others} (first : Reordered value other)
      (more : ReorderedFields rest others) :
      ReorderedFields ((key, value) :: rest) ((key, other) :: others)

end

/-- The keys of all objects are distinct. -/
inductive DistinctKeys : Json → Prop where
  | null : DistinctKeys .null
  | bool (value : Bool) : DistinctKeys (.bool value)
  | integer (value : Int) : DistinctKeys (.integer value)
  | float (value : Double) : DistinctKeys (.float value)
  | string (text : String) : DistinctKeys (.string text)
  | array {items} (each : ∀ item ∈ items, DistinctKeys item) : DistinctKeys (.array items)
  | object {fields} (distinct : (fields.map (·.1)).Nodup)
      (each : ∀ field ∈ fields, DistinctKeys field.2) : DistinctKeys (.object fields)

section Sorting

theorem set_sorted_fresh {key : String} {fields : List (String × Json)} (value : Json)
    (fresh : key ∉ fields.map (·.1)) :
    (setSorted key value fields).Perm ((key, value) :: fields) := by
  induction fields with
  | nil => exact .refl _
  | cons field rest ih =>
      rw [List.map_cons, List.mem_cons, not_or] at fresh
      rw [setSorted, if_neg fresh.1]
      split
      · exact .refl _
      · exact ((ih fresh.2).cons field).trans (.swap _ _ _)

theorem sorted_items_map (items : List Json) : sortedItems items = items.map sorted := by
  induction items with
  | nil => rfl
  | cons item rest ih => rw [sortedItems, ih, List.map_cons]

/-- Every value of some fields sorted, the fields in their order. -/
def sortedValues (fields : List (String × Json)) : List (String × Json) :=
  fields.map fun field => (field.1, field.2.sorted)

/-- Setting fields of distinct keys in turn brings them into another order. -/
theorem sorted_fields_perm {fields result : List (String × Json)}
    (distinct : ((result ++ fields).map (·.1)).Nodup) :
    (sortedFields fields result).Perm (result ++ sortedValues fields) := by
  induction fields generalizing result with
  | nil =>
      rw [sortedFields, sortedValues, List.map_nil, List.append_nil]
  | cons field rest ih =>
      obtain ⟨key, value⟩ := field
      have moved : (result ++ (key, value) :: rest).Perm ((key, value) :: result ++ rest) :=
        List.perm_middle
      have fresh : key ∉ result.map (·.1) := by
        have front := (moved.map (·.1)).nodup_iff.mp distinct
        rw [List.cons_append, List.map_cons, List.nodup_cons, List.map_append] at front
        exact fun inside => front.1 (List.mem_append_left _ inside)
      have placed := set_sorted_fresh value.sorted fresh
      have others : ((setSorted key value.sorted result ++ rest).map (·.1)).Nodup := by
        refine ((placed.append_right rest).map (·.1)).nodup_iff.mpr ?_
        exact (moved.map (·.1)).nodup_iff.mp distinct
      rw [sortedFields]
      refine (ih others).trans ((placed.append_right _).trans ?_)
      exact List.perm_middle.symm

mutual

/-- Sorting changes nothing but the order of fields. -/
theorem DistinctKeys.reordered : ∀ {json : Json}, json.DistinctKeys → json.Reordered json.sorted
  | .null, _ | .bool _, _ | .integer _, _ | .float _, _ | .string _, _ => by
      simp only [sorted]
      exact .refl _
  | .array items, .array each => by
      rw [sorted]
      exact .array (DistinctKeys.items_reordered items each)
  | .object fields, .object distinct each => by
      rw [sorted]
      exact .object (DistinctKeys.fields_reordered fields each)
        (@sorted_fields_perm fields [] distinct).symm

theorem DistinctKeys.items_reordered : ∀ items : List Json,
    (∀ item ∈ items, item.DistinctKeys) → ReorderedItems items (sortedItems items)
  | [], _ => by
      rw [sortedItems]
      exact .nil
  | item :: rest, each => by
      rw [sortedItems]
      exact .cons (each item List.mem_cons_self).reordered
        (DistinctKeys.items_reordered rest fun other inside =>
          each other (List.mem_cons_of_mem _ inside))

theorem DistinctKeys.fields_reordered : ∀ fields : List (String × Json),
    (∀ field ∈ fields, field.2.DistinctKeys) → ReorderedFields fields (sortedValues fields)
  | [], _ => .nil
  | (key, value) :: rest, each =>
      .cons (each (key, value) List.mem_cons_self).reordered
        (DistinctKeys.fields_reordered rest fun other inside =>
          each other (List.mem_cons_of_mem _ inside))

end

/-- The keys of fields ascend, each field before all others. -/
def Ascending (fields : List (String × Json)) : Prop :=
  (fields.map (·.1)).Pairwise (· < ·)

theorem mem_set_sorted_keys {key other : String} {fields : List (String × Json)} (value : Json)
    (member : other ∈ (setSorted key value fields).map (·.1)) :
    other = key ∨ other ∈ fields.map (·.1) := by
  induction fields with
  | nil => exact .inl (List.mem_singleton.mp member)
  | cons field rest ih =>
      rw [setSorted] at member
      split at member
      · rename_i same
        rw [List.map_cons, same] at member
        exact .inr member
      · split at member
        · exact List.mem_cons.mp member
        · rcases List.mem_cons.mp member with rfl | later
          · exact .inr List.mem_cons_self
          · exact (ih later).imp_right (List.mem_cons_of_mem _)

theorem set_sorted_ascending {key : String} {fields : List (String × Json)} (value : Json)
    (ascending : Ascending fields) : Ascending (setSorted key value fields) := by
  induction fields with
  | nil => exact List.pairwise_singleton _ _
  | cons field rest ih =>
      have parts := ascending
      rw [Ascending, List.map_cons, List.pairwise_cons] at parts
      rw [setSorted]
      split
      · rename_i same
        rw [Ascending, List.map_cons, same]
        exact ascending
      split
      · rename_i less
        rw [Ascending, List.map_cons, List.pairwise_cons]
        refine ⟨fun other inside => ?_, ascending⟩
        rcases List.mem_cons.mp inside with rfl | later
        · exact less
        · exact String.lt_trans less (parts.1 other later)
      · rename_i differs not_less
        have more : field.1 < key := by
          by_contra not_more
          exact differs (String.le_antisymm (String.not_lt.mp not_more) (String.not_lt.mp not_less))
        rw [Ascending, List.map_cons, List.pairwise_cons]
        refine ⟨fun other inside => ?_, ih parts.2⟩
        rcases mem_set_sorted_keys value inside with rfl | later
        · exact more
        · exact parts.1 other later

theorem sorted_fields_ascending {fields result : List (String × Json)}
    (ascending : Ascending result) : Ascending (sortedFields fields result) := by
  induction fields generalizing result with
  | nil => rwa [sortedFields]
  | cons field rest ih =>
      obtain ⟨key, value⟩ := field
      rw [sortedFields]
      exact ih (set_sorted_ascending value.sorted ascending)

theorem set_sorted_last {key : String} {fields : List (String × Json)} (value : Json)
    (last : ∀ other ∈ fields.map (·.1), other < key) :
    setSorted key value fields = fields ++ [(key, value)] := by
  induction fields with
  | nil => rfl
  | cons field rest ih =>
      rw [List.map_cons, List.forall_mem_cons] at last
      have other : key ≠ field.1 := fun same => String.lt_irrefl _ (same ▸ last.1)
      rw [setSorted, if_neg other, if_neg (String.lt_asymm last.1), ih last.2, List.cons_append]

/-- Fields that ascend are set one behind the other. -/
theorem sorted_fields_of_ascending {fields result : List (String × Json)}
    (ascending : Ascending (result ++ fields)) :
    sortedFields fields result = result ++ sortedValues fields := by
  induction fields generalizing result with
  | nil => rw [sortedFields, sortedValues, List.map_nil, List.append_nil]
  | cons field rest ih =>
      obtain ⟨key, value⟩ := field
      have parts := ascending
      rw [Ascending, List.map_append, List.pairwise_append, List.map_cons] at parts
      have last : ∀ other ∈ result.map (·.1), other < key := fun other inside =>
        parts.2.2 other inside key List.mem_cons_self
      have others : Ascending ((result ++ [(key, value.sorted)]) ++ rest) := by
        rw [Ascending, List.map_append, List.map_cons] at ascending
        rw [Ascending, List.append_assoc, List.map_append]
        exact ascending
      rw [sortedFields, set_sorted_last _ last, ih others, List.append_assoc]
      rfl

mutual

/-- A tree that is sorted stays as it is. -/
theorem DistinctKeys.sorted_sorted : ∀ {json : Json}, json.DistinctKeys →
    json.sorted.sorted = json.sorted
  | .null, _ | .bool _, _ | .integer _, _ | .float _, _ | .string _, _ => by simp only [sorted]
  | .array items, .array each => by
      rw [sorted, sorted, DistinctKeys.items_sorted items each]
  | .object fields, .object distinct each => by
      have ascending := @sorted_fields_ascending fields [] .nil
      have perm := @sorted_fields_perm fields [] distinct
      have kept : sortedValues (sortedFields fields []) = sortedFields fields [] := by
        have same : ∀ field ∈ sortedFields fields [], (field.1, field.2.sorted) = field := by
          intro field inside
          exact DistinctKeys.fields_sorted fields each field (perm.mem_iff.mp inside)
        exact (List.map_congr_left same).trans (List.map_id _)
      rw [sorted, sorted, @sorted_fields_of_ascending (sortedFields fields []) [] ascending, kept,
        List.nil_append]

theorem DistinctKeys.items_sorted : ∀ items : List Json,
    (∀ item ∈ items, item.DistinctKeys) → sortedItems (sortedItems items) = sortedItems items
  | [], _ => by rw [sortedItems, sortedItems]
  | item :: rest, each => by
      have others := DistinctKeys.items_sorted rest fun other inside =>
        each other (List.mem_cons_of_mem _ inside)
      rw [sortedItems, sortedItems, (each item List.mem_cons_self).sorted_sorted, others]

theorem DistinctKeys.fields_sorted : ∀ fields : List (String × Json),
    (∀ field ∈ fields, field.2.DistinctKeys) →
      ∀ field ∈ sortedValues fields, (field.1, field.2.sorted) = field
  | [], _, _, inside => by cases inside
  | (key, value) :: rest, each, field, inside => by
      rw [sortedValues, List.map_cons] at inside
      rcases List.mem_cons.mp inside with rfl | later
      · exact Prod.ext rfl (each (key, value) List.mem_cons_self).sorted_sorted
      · exact DistinctKeys.fields_sorted rest
          (fun other there => each other (List.mem_cons_of_mem _ there)) field later

end

end Sorting

end Json

namespace Value

mutual

/-- Values that differ in nothing but the order of fields, at any depth. -/
inductive Reordered : Value → Value → Prop where
  | refl (value : Value) : Reordered value value
  | list {items others} (each : ReorderedItems items others) :
      Reordered (.list items) (.list others)
  | object {fields middle others} (each : ReorderedFields fields middle)
      (perm : middle.Perm others) : Reordered (.object fields) (.object others)

inductive ReorderedItems : List Value → List Value → Prop where
  | nil : ReorderedItems [] []
  | cons {item other rest others} (first : Reordered item other)
      (more : ReorderedItems rest others) : ReorderedItems (item :: rest) (other :: others)

inductive ReorderedFields : List (String × Value) → List (String × Value) → Prop where
  | nil : ReorderedFields [] []
  | cons {key value other rest others} (first : Reordered value other)
      (more : ReorderedFields rest others) :
      ReorderedFields ((key, value) :: rest) ((key, other) :: others)

end

theorem int32_fits (value : Int32) : fitsInt32 value.toInt = true := by
  have least := value.le_toInt
  have greatest := value.toInt_lt
  rw [fitsInt32, leastInt32, greatestInt32, Bool.and_eq_true, decide_eq_true_iff,
    decide_eq_true_iff]
  omega

/-- A way of reading floats again after which a widened single is still narrowed to itself. -/
def KeepsSingles (reread : Double → Double) : Prop :=
  ∀ x : Single, x.isFinite = true → (reread (x.convert .double)).convert .single = x

section Decoding

variable {reread : Double → Double}

mutual

/-- Both ways back give the value again. -/
theorem Portable.decoded (keeps : KeepsSingles reread) : ∀ {value : Value}, value.Portable →
    readJson (value.toJson.mapFloats reread) = value ∧
      ofSortedJson (value.toJson.mapFloats reread) = value
  | .null, _ | .bool _, _ | .string _, _ => by
      simp only [toJson, Json.mapFloats, readJson, ofSortedJson, and_self]
  | .int value, _ => by
      simp only [toJson, Json.mapFloats, readJson, ofSortedJson, ofWhole, ofWholeWide,
        int32_fits, if_true, Int32.ofInt_toInt, and_self]
  | .float value, .float finite => by
      rw [toJson, if_pos finite, Json.mapFloats, readJson, ofSortedJson, keeps value finite]
      exact ⟨rfl, rfl⟩
  | .list items, .list each => by
      obtain ⟨read, converted⟩ := Portable.items_decoded keeps items each
      rw [toJson, Json.mapFloats, readJson, ofSortedJson, read, converted]
      exact ⟨rfl, rfl⟩
  | .object fields, .object distinct each => by
      obtain ⟨read, converted⟩ := Portable.fields_decoded keeps fields each
      rw [toJson, Json.mapFloats, readJson, ofSortedJson, read, converted,
        Object.of_list_distinct distinct]
      exact ⟨rfl, rfl⟩

theorem Portable.items_decoded (keeps : KeepsSingles reread) : ∀ items : List Value,
    (∀ item ∈ items, item.Portable) →
      readItems (Json.mapItemFloats reread (itemsToJson items)) = items ∧
        ofSortedItems (Json.mapItemFloats reread (itemsToJson items)) = items
  | [], _ => by
      rw [itemsToJson, Json.mapItemFloats, readItems, ofSortedItems]
      exact ⟨rfl, rfl⟩
  | item :: rest, each => by
      obtain ⟨read, converted⟩ := (each item List.mem_cons_self).decoded keeps
      have others := Portable.items_decoded keeps rest fun other inside =>
        each other (List.mem_cons_of_mem _ inside)
      rw [itemsToJson, Json.mapItemFloats, readItems, ofSortedItems, read, converted, others.1,
        others.2]
      exact ⟨rfl, rfl⟩

theorem Portable.fields_decoded (keeps : KeepsSingles reread) : ∀ fields : List (String × Value),
    (∀ field ∈ fields, field.2.Portable) →
      readFields (Json.mapFieldFloats reread (fieldsToJson fields)) = fields ∧
        ofSortedFields (Json.mapFieldFloats reread (fieldsToJson fields)) = fields
  | [], _ => by
      rw [fieldsToJson, Json.mapFieldFloats, readFields, ofSortedFields]
      exact ⟨rfl, rfl⟩
  | (key, value) :: rest, each => by
      obtain ⟨read, converted⟩ := (each (key, value) List.mem_cons_self).decoded keeps
      have others := Portable.fields_decoded keeps rest fun other inside =>
        each other (List.mem_cons_of_mem _ inside)
      rw [fieldsToJson, Json.mapFieldFloats, readFields, ofSortedFields, read, converted,
        others.1, others.2]
      exact ⟨rfl, rfl⟩

end

end Decoding

theorem items_to_json_map (items : List Value) : itemsToJson items = items.map toJson := by
  induction items with
  | nil => rfl
  | cons item rest ih => rw [itemsToJson, ih, List.map_cons]

theorem fields_to_json_map (fields : List (String × Value)) :
    fieldsToJson fields = fields.map fun field => (field.1, field.2.toJson) := by
  induction fields with
  | nil => rfl
  | cons field rest ih =>
      obtain ⟨key, value⟩ := field
      rw [fieldsToJson, ih, List.map_cons]

theorem fields_to_json_keys (fields : List (String × Value)) :
    (fieldsToJson fields).map (·.1) = Object.keys fields := by
  rw [fields_to_json_map, List.map_map]
  rfl

mutual

theorem Portable.distinct_keys : ∀ {value : Value}, value.Portable → value.toJson.DistinctKeys
  | .null, _ => by rw [toJson]; exact .null
  | .bool _, _ => by rw [toJson]; exact .bool _
  | .int _, _ => by rw [toJson]; exact .integer _
  | .string _, _ => by rw [toJson]; exact .string _
  | .float _, .float finite => by
      rw [toJson, if_pos finite]
      exact .float _
  | .list items, .list each => by
      rw [toJson]
      exact .array (Portable.items_distinct items each)
  | .object fields, .object distinct each => by
      rw [toJson]
      refine .object ?_ (Portable.fields_distinct fields each)
      rwa [fields_to_json_keys]

theorem Portable.items_distinct : ∀ items : List Value,
    (∀ item ∈ items, item.Portable) → ∀ json ∈ itemsToJson items, json.DistinctKeys
  | [], _, _, inside => by
      rw [itemsToJson] at inside
      cases inside
  | item :: rest, each, json, inside => by
      rw [itemsToJson] at inside
      rcases List.mem_cons.mp inside with rfl | later
      · exact (each item List.mem_cons_self).distinct_keys
      · exact Portable.items_distinct rest
          (fun other there => each other (List.mem_cons_of_mem _ there)) json later

theorem Portable.fields_distinct : ∀ fields : List (String × Value),
    (∀ field ∈ fields, field.2.Portable) →
      ∀ field ∈ fieldsToJson fields, field.2.DistinctKeys
  | [], _, _, inside => by
      rw [fieldsToJson] at inside
      cases inside
  | (key, value) :: rest, each, field, inside => by
      rw [fieldsToJson] at inside
      rcases List.mem_cons.mp inside with rfl | later
      · exact (each (key, value) List.mem_cons_self).distinct_keys
      · exact Portable.fields_distinct rest
          (fun other there => each other (List.mem_cons_of_mem _ there)) field later

end

theorem of_sorted_fields_map (fields : List (String × Json)) :
    ofSortedFields fields = fields.map fun field => (field.1, ofSortedJson field.2) := by
  induction fields with
  | nil => rw [ofSortedFields, List.map_nil]
  | cons field rest ih =>
      obtain ⟨key, value⟩ := field
      rw [ofSortedFields, ih, List.map_cons]

theorem of_sorted_fields_keys (fields : List (String × Json)) :
    Object.keys (ofSortedFields fields) = fields.map (·.1) := by
  rw [of_sorted_fields_map, Object.keys, List.map_map]
  rfl

theorem reordered_keys {fields others : List (String × Json)}
    (each : Json.ReorderedFields fields others) : others.map (·.1) = fields.map (·.1) := by
  induction fields generalizing others with
  | nil =>
      cases each
      rfl
  | cons field rest ih =>
      cases each with
      | cons first more => rw [List.map_cons, List.map_cons, ih more]

mutual

/-- Trees that differ in the order of fields have values that do. -/
theorem converted_reordered : ∀ {json other : Json}, json.Reordered other →
    json.DistinctKeys → (ofSortedJson json).Reordered (ofSortedJson other)
  | _, _, .refl _, _ => .refl _
  | .array _, .array _, .array each, .array distinct => by
      rw [ofSortedJson, ofSortedJson]
      exact .list (converted_items each distinct)
  | .object fields, .object others, .object each perm, .object keys distinct => by
      have keys_others : (others.map (·.1)).Nodup := by
        rw [← (perm.map (·.1)).nodup_iff, reordered_keys each]
        exact keys
      rw [← of_sorted_fields_keys] at keys keys_others
      rw [ofSortedJson, ofSortedJson, Object.of_list_distinct keys,
        Object.of_list_distinct keys_others]
      refine .object (converted_fields each distinct) ?_
      rw [of_sorted_fields_map, of_sorted_fields_map]
      exact perm.map _

theorem converted_items : ∀ {items others : List Json}, Json.ReorderedItems items others →
    (∀ item ∈ items, item.DistinctKeys) →
      ReorderedItems (ofSortedItems items) (ofSortedItems others)
  | [], [], .nil, _ => by
      rw [ofSortedItems]
      exact .nil
  | _ :: _, _ :: _, .cons first more, distinct => by
      rw [ofSortedItems, ofSortedItems]
      exact .cons (converted_reordered first (distinct _ List.mem_cons_self))
        (converted_items more fun item inside => distinct item (List.mem_cons_of_mem _ inside))

theorem converted_fields : ∀ {fields others : List (String × Json)},
    Json.ReorderedFields fields others → (∀ field ∈ fields, field.2.DistinctKeys) →
      ReorderedFields (ofSortedFields fields) (ofSortedFields others)
  | [], [], .nil, _ => by
      rw [ofSortedFields]
      exact .nil
  | (_, _) :: _, (_, _) :: _, .cons first more, distinct => by
      rw [ofSortedFields, ofSortedFields]
      exact .cons (converted_reordered first (distinct _ List.mem_cons_self))
        (converted_fields more fun field inside => distinct field (List.mem_cons_of_mem _ inside))

end

/--
What is written of a value is read back as the value, its fields in their order. This may go through
a text that is read back as the tree but for its floats, where a float that was widened, printed and
read is narrowed to the same. Converted to a tree and back, the value differs in the order of fields
at most, and the tree that is written differs no more from the one that is converted.
-/
theorem values_survive_json {value : Value} (portable : value.Portable) :
    readJson value.toJson = value ∧
      (∀ reread, KeepsSingles reread → readJson (value.toJson.mapFloats reread) = value) ∧
      value.Reordered (ofJson value.toSortedJson) ∧
      value.toJson.Reordered value.toSortedJson := by
  have distinct := portable.distinct_keys
  have exact : KeepsSingles id := fun _ finite => Binary.widened_narrowed finite
  obtain ⟨read, converted⟩ := portable.decoded exact
  rw [Json.map_floats_id] at read converted
  have sorted : ofJson value.toSortedJson = ofSortedJson value.toJson.sorted := by
    rw [ofJson, toSortedJson, distinct.sorted_sorted]
  have same := converted_reordered distinct.reordered distinct
  rw [converted, ← sorted] at same
  exact ⟨read, fun reread keeps => (portable.decoded keeps).1, same, distinct.reordered⟩

/-- Integers at their limits, whole floats, a negative zero, and nothing at all in containers. -/
def limits : Value :=
  .object
    [("numbers", .list [.int (Int32.ofInt leastInt32), .int (Int32.ofInt greatestInt32),
        .float (Binary.ofInt .single 3), .float (Binary.ofRank .single true 0),
        .float (Binary.ofRatio .single false 1 10)]),
      ("empty", .object [("z", .list []), ("a", .object []), ("m", .null)]),
      ("", .string "")]

theorem limits_portable : limits.Portable := by
  refine .object (by decide) ?_
  simp only [List.forall_mem_cons]
  refine ⟨.list ?_, .object (by decide) ?_, .string _, List.forall_mem_nil _⟩
  · simp only [List.forall_mem_cons]
    exact ⟨.int _, .int _, .float (by decide), .float (by decide), .float (by decide),
      List.forall_mem_nil _⟩
  · simp only [List.forall_mem_cons]
    exact ⟨.list (List.forall_mem_nil _), .object .nil (List.forall_mem_nil _), .null,
      List.forall_mem_nil _⟩

/-- All of it comes back; its text is read as the tree that it was written of. -/
theorem limits_survive :
    limits.Portable ∧ readJson limits.toJson = limits ∧
      (Json.ofText? limits.toJson.compact).map Json.compact = some limits.toJson.compact ∧
      readJson (limits.toJson.mapFloats id) = limits ∧
      limits.Reordered (ofJson limits.toSortedJson) ∧
      limits.toJson.Reordered limits.toSortedJson := by
  obtain ⟨read, reread, converted, written⟩ := values_survive_json limits_portable
  exact ⟨limits_portable, read, by decide +kernel,
    reread id fun _ finite => Binary.widened_narrowed finite, converted, written⟩

end Value

end GraphQL
