import GraphQL.Proofs.MergedFields

/-!
Two ways to decode JSON.

Read off a text, a value is added to an object field by field, so an object under a repeated key is
merged into an object that stands there. Converted from a tree whose objects are maps, an object has
the last value of every key. The two differ in nothing but the order of fields exactly if the last
value of a key absorbs what the others add up to, and if whole numbers that do not fit in 32 bits
are rounded to the same float at once and by way of 64 bits, as all are that have up to 53 bits.
-/

namespace GraphQL

namespace Json

theorem set_sorted_lookup (key other : String) (value : Json) (fields : List (String × Json)) :
    (setSorted key value fields).lookup other =
      if other = key then some value else fields.lookup other := by
  induction fields with
  | nil => exact lookup_cons_if other (key, value) []
  | cons field rest ih =>
      rw [setSorted]
      split
      · rename_i here
        rw [lookup_cons_if, lookup_cons_if, here]
        split <;> rfl
      split
      · exact lookup_cons_if other (key, value) (field :: rest)
      · rename_i apart _
        rw [lookup_cons_if, ih, lookup_cons_if]
        by_cases same : other = key
        · rw [if_neg (same ▸ apart), if_pos same, if_pos same]
        · rw [if_neg same, if_neg same]

/-- Of a repeated key the last value stays. -/
theorem sorted_fields_lookup (key : String) (fields result : List (String × Json)) :
    (sortedFields fields result).lookup key =
      ((valuesOf key fields).getLast?.map sorted).or (result.lookup key) := by
  induction fields generalizing result with
  | nil => rfl
  | cons field rest ih =>
      obtain ⟨name, value⟩ := field
      rw [sortedFields, ih, set_sorted_lookup, values_of_cons]
      by_cases same : name = key
      · rw [if_pos same.symm, if_pos same, List.getLast?_cons]
        cases (valuesOf key rest).getLast? <;> rfl
      · rw [if_neg (Ne.symm same), if_neg same]

theorem sorted_fields_nodup (fields : List (String × Json)) :
    ((sortedFields fields []).map (·.1)).Nodup := by
  have ascending : Ascending (sortedFields fields []) := sorted_fields_ascending List.Pairwise.nil
  refine ascending.imp fun {first second} less same => ?_
  rw [same] at less
  exact String.lt_irrefl _ less

end Json

/-- A whole number has 32 bits, or is rounded to the same float directly and by way of 64 bits. -/
def RoundsAlike (n : Int) : Prop :=
  fitsInt32 n = true ∨ Binary.ofInt .single n = (Binary.ofInt .double n).convert .single

/-- A whole number of at most 53 bits is kept by a double. -/
theorem rounds_alike_of_small {n : Int} (small : n.natAbs < 2 ^ 53) : RoundsAlike n := by
  rcases Nat.eq_zero_or_pos n.natAbs with zero | positive
  · exact .inl (by rw [Int.natAbs_eq_zero.mp zero]; rfl)
  · obtain ⟨wide, finite, value⟩ : ∃ rank, rank < Format.double.infinityRank ∧
        Format.double.value rank = n.natAbs * 2 ^ (0 : Int) :=
      Format.value_found positive small (by decide) (by decide) (by decide)
    rw [zpow_zero, mul_one] at value
    have kept : Format.double.nearestRank n.natAbs 1 = wide :=
      Format.nearest_of_value Nat.one_pos finite (by rw [Nat.cast_one, div_one, value])
    have exact := Format.value_eq_ratio .double wide
    have divisor := scaled_ratio_pos Nat.two_pos (Format.double.significand wide)
      (Format.double.exponent wide)
    refine .inr ?_
    rw [Binary.ofInt, Binary.ofInt, Binary.ofRatio, Binary.ofRatio, kept,
      Binary.of_rank_eq _ finite, Binary.convert, Binary.ratio_some finite]
    dsimp only
    rw [Binary.ofRatio]
    generalize scaledRatio 2 (Format.double.significand wide) (Format.double.exponent wide) = ratio
      at exact divisor
    have whole : ratio.1 = n.natAbs * ratio.2 := by
      rw [value, div_eq_iff (by exact_mod_cast divisor.ne')] at exact
      exact_mod_cast exact
    have scaled : Format.single.nearestRank (n.natAbs * ratio.2) (1 * ratio.2) =
        Format.single.nearestRank n.natAbs 1 := Format.single.nearest_scaled Nat.one_pos divisor
    rw [Nat.one_mul, ← whole] at scaled
    rw [scaled]

instance (n : Int) : Decidable (RoundsAlike n) := inferInstanceAs (Decidable (_ ∨ _))

/--
Nothing in a tree is decoded differently: the last value of each key absorbs what the values before
it add up to, and whole numbers are rounded alike. Values that are not the last ones of their keys
do not count otherwise.
-/
inductive Json.DecodesAlike : Json → Prop where
  | null : DecodesAlike .null
  | bool (value : Bool) : DecodesAlike (.bool value)
  | integer {n} (alike : RoundsAlike n) : DecodesAlike (.integer n)
  | float (value : Double) : DecodesAlike (.float value)
  | string (text : String) : DecodesAlike (.string text)
  | array {items} (each : ∀ item ∈ items, DecodesAlike item) : DecodesAlike (.array items)
  | object {fields}
      (kept : ∀ key before last, valuesOf key fields = before ++ [last] → DecodesAlike last)
      (absorbed : ∀ key before last earlier, valuesOf key fields = before ++ [last] →
        Object.addedUp (before.map Value.readJson) = some earlier →
          earlier.AbsorbedBy (Value.readJson last)) :
      DecodesAlike (.object fields)

namespace Value

theorem read_fields_map (fields : List (String × Json)) :
    readFields fields = fields.map fun field => (field.1, readJson field.2) := by
  induction fields with
  | nil => rw [readFields, List.map_nil]
  | cons field rest ih =>
      obtain ⟨key, value⟩ := field
      rw [readFields, ih, List.map_cons]

/-- Converted, an object has the last value of every key. -/
theorem converted_field (fields : List (String × Json)) (key : String) :
    (ofJson (.object fields)).field? key = (valuesOf key fields).getLast?.map ofJson := by
  have distinct := Json.sorted_fields_nodup fields
  rw [← of_sorted_fields_keys] at distinct
  rw [ofJson, Json.sorted, ofSortedJson, Object.of_list_distinct distinct, field?,
    of_sorted_fields_map, Object.get?, lookup_map, Json.sorted_fields_lookup, List.lookup_nil,
    Option.or_none, Option.map_map]
  rfl

/-- Read off a text, an object has under every key what its values add up to. -/
theorem read_field (fields : List (String × Json)) (key : String) :
    (readJson (.object fields)).field? key =
      Object.addedUp ((valuesOf key fields).map readJson) := by
  rw [readJson, field?, Object.get_of_list, read_fields_map, values_of_map]

mutual

/-- The keys of an object that was read are distinct. -/
theorem read_keyed : ∀ json : Json, (readJson json).Keyed
  | .object fields => by
      rw [readJson]
      exact Keyed.insert_all (read_fields_keyed fields) (.object .nil (List.forall_mem_nil _))
  | .integer n => by
      rw [readJson, ofWhole]
      split <;> exact .plain fun _ absent => by cases absent
  | .null | .bool _ | .float _ | .string _ | .array _ => by
      rw [readJson]
      exact .plain fun _ absent => by cases absent

theorem read_fields_keyed : ∀ (fields : List (String × Json)), ∀ pair ∈ readFields fields,
    ∀ before, (∀ earlier, before = some earlier → earlier.Keyed) →
      (Object.merged pair.2 before).Keyed
  | [], pair, member, _, _ => by
      rw [readFields] at member
      cases member
  | (_, value) :: rest, pair, member, before, stood => by
      rw [readFields] at member
      rcases List.mem_cons.mp member with rfl | later
      · exact (read_keyed value).merged stood
      · exact read_fields_keyed rest pair later before stood

end

theorem added_up_keyed {values : List Value} (each : ∀ value ∈ values, value.Keyed)
    {total : Value} (sum : Object.addedUp values = some total) : total.Keyed := by
  induction values using List.reverseRecOn generalizing total with
  | nil => cases sum
  | append_singleton before last ih =>
      obtain ⟨earlier, here⟩ := List.forall_mem_append.mp each
      rw [Object.added_up_append] at sum
      rw [← Option.some.inj sum]
      exact (here last List.mem_cons_self).merged fun _ => ih earlier

/-- Two objects that some fields are decoded to, both with a value for each of their keys. -/
structure DecodedFields (fields : List (String × Json)) (read converted : Object) : Prop where
  distinct : read.keys.Nodup
  converted_distinct : converted.keys.Nodup
  keys : ∀ key, key ∈ read.keys ↔ key ∈ fields.map (·.1)
  converted_keys : ∀ key, key ∈ converted.keys ↔ key ∈ fields.map (·.1)
  each : ∀ key before last, valuesOf key fields = before ++ [last] →
    read.get? key = some (Object.merged (readJson last) (Object.addedUp (before.map readJson))) ∧
      converted.get? key = some (ofJson last)

theorem decoded_fields (fields : List (String × Json)) :
    ∃ read converted, readJson (.object fields) = .object read ∧
      ofJson (.object fields) = .object converted ∧ DecodedFields fields read converted := by
  have distinct := Json.sorted_fields_nodup fields
  rw [← of_sorted_fields_keys] at distinct
  have converted : ofJson (.object fields) =
      .object (ofSortedFields (Json.sortedFields fields [])) := by
    rw [ofJson, Json.sorted, ofSortedJson, Object.of_list_distinct distinct]
  have read : readJson (.object fields) = .object (Object.ofList (readFields fields)) := by
    rw [readJson]
  have read_names : Object.keys (readFields fields) = fields.map (·.1) := by
    rw [read_fields_map, Object.keys, List.map_map]
    rfl
  have looked := converted_field fields
  have added := read_field fields
  rw [converted] at looked
  rw [read] at added
  have last_looked (key : String) {before : List Json} {last : Json}
      (values : valuesOf key fields = before ++ [last]) :
      Object.get? (ofSortedFields (Json.sortedFields fields [])) key = some (ofJson last) := by
    rw [← field?, looked, values, List.getLast?_concat, Option.map_some]
  refine ⟨_, _, read, converted, Object.of_list_keys_nodup _, distinct, fun key => ?_,
    fun key => ?_, fun key before last values => ⟨?_, last_looked key values⟩⟩
  · rw [Object.ofList, Object.keys_insert_all, mem_append_new, read_names]
    exact or_iff_right List.not_mem_nil
  · rw [key_iff_last]
    refine (key_iff_lookup distinct).trans ⟨?_, ?_⟩
    · rintro ⟨value, found⟩
      have there := looked key
      rw [field?, Object.get?, found] at there
      obtain ⟨last, final, -⟩ := Option.map_eq_some_iff.mp there.symm
      obtain ⟨before, values⟩ := List.getLast?_eq_some_iff.mp final
      exact ⟨before, last, values⟩
    · rintro ⟨_, _, values⟩
      exact ⟨_, last_looked key values⟩
  · rw [← field?, added, values, List.map_append, List.map_singleton, Object.added_up_append]

/-- What is looked up under one key was decoded from its values. -/
theorem DecodedFields.from_values {fields : List (String × Json)} {read converted : Object}
    (decoded : DecodedFields fields read converted) {key : String} {value found : Value}
    (here : read.get? key = some value) (there : converted.get? key = some found) :
    ∃ before last, valuesOf key fields = before ++ [last] ∧ found = ofJson last ∧
      value = Object.merged (readJson last) (Object.addedUp (before.map readJson)) := by
  have known := (decoded.keys key).mp (List.mem_map_of_mem (mem_of_lookup here))
  obtain ⟨before, last, values⟩ := key_iff_last.mp known
  obtain ⟨read_here, converted_there⟩ := decoded.each key before last values
  refine ⟨before, last, values, ?_, ?_⟩
  · exact Option.some.inj (there.symm.trans converted_there)
  · exact Option.some.inj (here.symm.trans read_here)

theorem DecodedFields.keys_alike {fields : List (String × Json)} {read converted : Object}
    (decoded : DecodedFields fields read converted) (key : String) :
    key ∈ read.keys ↔ key ∈ converted.keys :=
  (decoded.keys key).trans (decoded.converted_keys key).symm

theorem of_json_integer (n : Int) : ofJson (.integer n) = ofWholeWide n := rfl

theorem of_json_array (items : List Json) :
    ofJson (.array items) = .list (items.map ofJson) := by
  have each (items : List Json) : ofSortedItems (Json.sortedItems items) = items.map ofJson := by
    induction items with
    | nil => rfl
    | cons item rest ih => rw [Json.sortedItems, ofSortedItems, ih, List.map_cons, ofJson]
  rw [ofJson, Json.sorted, ofSortedJson, each]

theorem read_array (items : List Json) :
    readJson (.array items) = .list (items.map readJson) := by
  have each (items : List Json) : readItems items = items.map readJson := by
    induction items with
    | nil => rfl
    | cons item rest ih => rw [readItems, ih, List.map_cons]
  rw [readJson, each]

mutual

/-- What is read off a text has all fields of what is converted. -/
theorem read_covers : ∀ json : Json, (readJson json).Covers (ofJson json)
  | .object fields => by
      obtain ⟨read, converted, same, same', decoded⟩ := decoded_fields fields
      rw [same, same']
      refine .object (fun key there => (decoded.keys_alike key).mpr there)
        fun key value found here there => ?_
      obtain ⟨before, last, values, rfl, rfl⟩ := decoded.from_values here there
      have member : last ∈ valuesOf key fields := values ▸ List.mem_append_right _ (by simp)
      exact (fields_cover fields (key, last) (mem_values_of.mp member)).merged (read_keyed last) _
  | .null | .bool _ | .float _ | .string _ | .array _ => .plain fun _ absent => by cases absent
  | .integer n => .plain fun fields same => by
      rw [of_json_integer, ofWholeWide] at same
      split at same <;> cases same

theorem fields_cover : ∀ (fields : List (String × Json)), ∀ field ∈ fields,
    (readJson field.2).Covers (ofJson field.2)
  | [], _, inside => by cases inside
  | (_, value) :: rest, field, inside => by
      rcases List.mem_cons.mp inside with rfl | later
      · exact read_covers value
      · exact fields_cover rest field later

end

/-- Fields are decoded alike if the last values of all keys are, and absorb the others. -/
theorem object_alike_iff (fields : List (String × Json)) :
    (readJson (.object fields)).Reordered (ofJson (.object fields)) ↔
      ∀ key before last, valuesOf key fields = before ++ [last] →
        (readJson last).Reordered (ofJson last) ∧
          ∀ earlier, Object.addedUp (before.map readJson) = some earlier →
            earlier.AbsorbedBy (readJson last) := by
  obtain ⟨read, converted, same, same', decoded⟩ := decoded_fields fields
  have added {before : List Json} {earlier : Value}
      (sum : Object.addedUp (before.map readJson) = some earlier) : earlier.Keyed :=
    added_up_keyed (List.forall_mem_map.mpr fun json _ => read_keyed json) sum
  rw [same, same']
  constructor
  · intro reordered key before last values
    obtain ⟨_, found, -, -, alike⟩ := Reordered.lookups decoded.distinct reordered
    obtain rfl := Value.object.inj found
    obtain ⟨here, there⟩ := decoded.each key before last values
    have total := alike key _ _ here there
    cases sum : Object.addedUp (before.map readJson) with
    | none =>
        rw [sum, Object.merged_plain fun _ _ _ absent => by cases absent] at total
        exact ⟨total, fun _ absent => by cases absent⟩
    | some earlier =>
        rw [sum] at total
        obtain ⟨same, absorbed⟩ := (read_covers last).absorbs (read_keyed last) (added sum) total
        exact ⟨same, fun _ again => Option.some.inj again ▸ absorbed⟩
  · intro each
    refine reordered_of_lookups decoded.distinct decoded.converted_distinct decoded.keys_alike
      fun key value found here there => ?_
    obtain ⟨before, last, values, rfl, rfl⟩ := decoded.from_values here there
    obtain ⟨alike, absorbed⟩ := each key before last values
    cases sum : Object.addedUp (before.map readJson) with
    | none =>
        rw [Object.merged_plain fun _ _ _ absent => by cases absent]
        exact alike
    | some earlier =>
        exact (absorbed earlier sum).merged_reordered (read_keyed last) (added sum) alike

theorem whole_alike_iff (n : Int) :
    (readJson (.integer n)).Reordered (ofJson (.integer n)) ↔ RoundsAlike n := by
  rw [readJson, of_json_integer, ofWhole, ofWholeWide, RoundsAlike]
  by_cases fits : fitsInt32 n = true
  · rw [if_pos fits, if_pos fits]
    exact ⟨fun _ => .inl fits, fun _ => .refl _⟩
  · rw [if_neg fits, if_neg fits, or_iff_right fits]
    refine ⟨fun reordered => ?_, fun same => same ▸ .refl _⟩
    generalize Binary.ofInt .single n = direct at reordered
    generalize (Binary.ofInt .double n).convert .single = wide at reordered
    cases reordered
    rfl

theorem list_alike_iff {items others : List Value} :
    (Value.list items).Reordered (.list others) ↔ List.Forall₂ Reordered items others := by
  have each {items others : List Value} :
      ReorderedItems items others ↔ List.Forall₂ Reordered items others := by
    refine ⟨fun alike => ?_, fun alike => ?_⟩
    · induction items generalizing others with
      | nil =>
          cases alike
          exact .nil
      | cons item rest ih =>
          cases alike with
          | cons first more => exact .cons first (ih more)
    · induction alike with
      | nil => exact .nil
      | cons first _ more => exact .cons first more
  refine ⟨fun alike => ?_, fun alike => .list (each.mpr alike)⟩
  cases alike with
  | refl => exact List.forall₂_same.mpr fun item _ => .refl item
  | list alike => exact each.mp alike

mutual

/-- The two ways differ in nothing but the order of fields exactly where nothing is in their way. -/
theorem decoded_iff : ∀ json : Json,
    (readJson json).Reordered (ofJson json) ↔ json.DecodesAlike
  | .object fields => by
      have last_alike {key : String} {before : List Json} {last : Json}
          (values : valuesOf key fields = before ++ [last]) :
          (readJson last).Reordered (ofJson last) ↔ last.DecodesAlike := by
        have member : last ∈ valuesOf key fields := values ▸ List.mem_append_right _ (by simp)
        exact fields_decoded_iff fields (key, last) (mem_values_of.mp member)
      rw [object_alike_iff]
      constructor
      · intro each
        exact .object (fun key before last values =>
            (last_alike values).mp (each key before last values).1)
          fun key before last earlier values => (each key before last values).2 earlier
      · rintro (_ | _ | _ | _ | _ | _ | ⟨kept, absorbed⟩) key before last values
        exact ⟨(last_alike values).mpr (kept key before last values),
          fun earlier => absorbed key before last earlier values⟩
  | .array items => by
      rw [read_array, of_json_array, list_alike_iff, List.forall₂_map_left_iff,
        List.forall₂_map_right_iff, List.forall₂_same]
      constructor
      · exact fun each => .array fun item member =>
          (items_decoded_iff items item member).mp (each item member)
      · rintro (_ | _ | _ | _ | _ | each) item member
        exact (items_decoded_iff items item member).mpr (each item member)
  | .integer n => by
      rw [whole_alike_iff]
      exact ⟨.integer, fun alike => by cases alike; assumption⟩
  | .null => ⟨fun _ => .null, fun _ => .refl _⟩
  | .bool value => ⟨fun _ => .bool value, fun _ => .refl _⟩
  | .float value => ⟨fun _ => .float value, fun _ => .refl _⟩
  | .string text => ⟨fun _ => .string text, fun _ => .refl _⟩

theorem items_decoded_iff : ∀ (items : List Json), ∀ item ∈ items,
    ((readJson item).Reordered (ofJson item) ↔ item.DecodesAlike)
  | [], _, inside => by cases inside
  | first :: rest, item, inside => by
      rcases List.mem_cons.mp inside with here | later
      · rw [here]
        exact decoded_iff first
      · exact items_decoded_iff rest item later

theorem fields_decoded_iff : ∀ (fields : List (String × Json)), ∀ field ∈ fields,
    ((readJson field.2).Reordered (ofJson field.2) ↔ field.2.DecodesAlike)
  | [], _, inside => by cases inside
  | (_, value) :: rest, field, inside => by
      rcases List.mem_cons.mp inside with here | later
      · rw [here]
        exact decoded_iff value
      · exact fields_decoded_iff rest field later

end

/-- Without a repeated key in an object, all depends on its values. -/
theorem object_alike_of_distinct {fields : List (String × Json)}
    (distinct : (fields.map (·.1)).Nodup) (each : ∀ field ∈ fields, field.2.DecodesAlike) :
    (Json.object fields).DecodesAlike := by
  have alone {key : String} {before : List Json} {last : Json}
      (values : valuesOf key fields = before ++ [last]) : before = [] ∧ (key, last) ∈ fields := by
    refine ⟨?_, mem_values_of.mp (values ▸ List.mem_append_right _ List.mem_cons_self)⟩
    rw [values_of_distinct distinct] at values
    have few := Option.length_toList_le (o := fields.lookup key)
    rw [values, List.length_append, List.length_singleton] at few
    exact List.length_eq_zero_iff.mp (by omega)
  refine .object (fun key before last values => each (key, last) (alone values).2)
    fun key before last earlier values sum => ?_
  rw [(alone values).1] at sum
  cases sum

/--
The two ways to decode a text give equal values, field order aside, exactly if nothing in it is
decoded differently. Under a key there stands what its values add up to, one after the other, or the
last of them; and only whole numbers of more than 53 bits can be rounded differently.
-/
theorem decoders_agree :
    (∀ json : Json, (readJson json).Reordered (ofJson json) ↔ json.DecodesAlike) ∧
      (∀ n : Int, n.natAbs < 2 ^ 53 → RoundsAlike n) ∧
      ∀ (fields : List (String × Json)) (key : String),
        (readJson (.object fields)).field? key =
            Object.addedUp ((valuesOf key fields).map readJson) ∧
          (ofJson (.object fields)).field? key = (valuesOf key fields).getLast?.map ofJson :=
  ⟨decoded_iff, fun _ => rounds_alike_of_small,
    fun fields key => ⟨read_field fields key, converted_field fields key⟩⟩

/-- A text with a key of three values: a number settles what the first object left. -/
def settledKey : Json :=
  .object [("a", .object [("x", .integer 1)]), ("b", .array [.integer 9007199254740991, .null]),
    ("a", .integer 3), ("a", .object [("y", .bool true)])]

theorem settled_key_agrees :
    RoundsAlike 9007199254740991 ∧ (readJson settledKey).Reordered (ofJson settledKey) := by
  have number : RoundsAlike 9007199254740991 := decoders_agree.2.1 _ (by decide)
  refine ⟨number, (decoders_agree.1 settledKey).mpr ?_⟩
  have lasts {key : String} {before : List Json} {last : Json}
      (values : valuesOf key [("a", Json.object [("x", .integer 1)]),
        ("b", .array [.integer 9007199254740991, .null]), ("a", .integer 3),
        ("a", .object [("y", .bool true)])] = before ++ [last]) :
      before = [.object [("x", .integer 1)], .integer 3] ∧ last = .object [("y", .bool true)] ∨
        before = [] ∧ last = .array [.integer 9007199254740991, .null] := by
    have known := key_iff_last.mpr ⟨before, last, values⟩
    simp only [List.map_cons, List.map_nil, List.mem_cons, List.not_mem_nil, or_false] at known
    obtain rfl | rfl : key = "a" ∨ key = "b" := by tauto
    · have whole : before ++ [last] =
          [.object [("x", .integer 1)], .integer 3] ++ [.object [("y", .bool true)]] := values.symm
      exact .inl ((List.append_inj' whole rfl).imp_right List.singleton_inj.mp)
    · have whole : before ++ [last] = [] ++ [.array [.integer 9007199254740991, .null]] :=
        values.symm
      exact .inr ((List.append_inj' whole rfl).imp_right List.singleton_inj.mp)
  refine .object (fun key before last values => ?_) fun key before last earlier values sum => ?_
  · obtain ⟨-, rfl⟩ | ⟨-, rfl⟩ := lasts values
    · exact object_alike_of_distinct (by decide) (List.forall_mem_singleton.mpr (.bool true))
    · exact .array (List.forall_mem_cons.mpr
        ⟨.integer number, List.forall_mem_singleton.mpr .null⟩)
  · obtain ⟨rfl, rfl⟩ | ⟨rfl, -⟩ := lasts values
    · obtain rfl : ofWhole 3 = earlier := Option.some.inj sum
      exact .replaced fun _ _ _ stood => by cases stood
    · cases sum

/-- Objects that differ in the order of fields have as many fields. -/
theorem Reordered.length_eq {fields others : Object}
    (reordered : (Value.object fields).Reordered (.object others)) :
    fields.length = others.length := by
  have alike {some more : List (String × Value)} (each : ReorderedFields some more) :
      some.length = more.length := by
    induction some generalizing more with
    | nil =>
        cases each
        rfl
    | cons field rest ih =>
        cases each with
        | cons first later => exact congrArg Nat.succ (ih later)
  cases reordered with
  | refl => rfl
  | object each perm => exact (alike each).trans perm.length_eq

/-- Objects of a single field that differ in order only have values there that do. -/
theorem Reordered.single {key name : String} {value other : Value}
    (reordered : (Value.object [(key, value)]).Reordered (.object [(name, other)])) :
    value.Reordered other := by
  cases reordered with
  | refl => exact .refl _
  | object each perm =>
      obtain rfl := List.perm_singleton.mp perm
      cases each with
      | cons first more => exact first

/-- A text in which two objects stand under one key. -/
def repeatedKey : Json :=
  .object [("a", .object [("x", .integer 1)]), ("a", .object [("y", .integer 2)])]

/--
Read off that text, the objects are merged; converted, the second one stays alone. A whole number
just above the middle between two singles is on the middle once it is a double.
-/
theorem repeated_key_disagrees :
    (Json.ofText? "\x7b\"a\":\x7b\"x\":1\x7d,\"a\":\x7b\"y\":2\x7d\x7d").map Json.compact =
        some repeatedKey.compact ∧
      ¬ (readJson repeatedKey).Reordered (ofJson repeatedKey) ∧
      ¬ RoundsAlike 4611686293305294849 := by
  refine ⟨by decide +kernel, fun reordered => ?_, by decide +kernel⟩
  have read : readJson repeatedKey =
      .object [("a", .object [("x", ofWhole 1), ("y", ofWhole 2)])] := rfl
  have converted : ofJson repeatedKey = .object [("a", .object [("y", ofWholeWide 2)])] := rfl
  rw [read, converted] at reordered
  cases reordered.single.length_eq

end Value

end GraphQL
