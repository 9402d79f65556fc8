import GraphQL.Proofs.ConstantArguments
import GraphQL.Proofs.InputTypes
import GraphQL.Proofs.PrintedScalars
import GraphQL.Proofs.RepeatedNames
import GraphQL.Proofs.SchemaInputs

/-!
Empty strings in inputs, under the policy that takes them for absent.

A value from outside is looked at wherever it stands, so an empty string in it becomes null. What a
literal comes to is looked at only where it is an argument or a field of an input object; an empty
string that a literal writes as an element of a list is kept. Here it is told, from a literal or a
value and its type alone, whether an empty string will be kept in what it comes to.
-/

namespace GraphQL

variable {σ ε : Type} {executor : Executor σ}

/-- An empty string is an element of some list in a value. -/
inductive Value.KeepsEmpty : Value → Prop where
  | here {items} (member : .string "" ∈ items) : KeepsEmpty (.list items)
  | item {items item} (member : item ∈ items) (inside : KeepsEmpty item) : KeepsEmpty (.list items)
  | field {fields : Object} {entry} (member : entry ∈ fields) (inside : KeepsEmpty entry.2) :
      KeepsEmpty (.object fields)

/-- No object in a value has a field that counts as absent. -/
inductive Value.Tidy : Value → Prop where
  | single {value} (unlisted : ∀ items, value ≠ .list items)
      (unfielded : ∀ fields, value ≠ .object fields) : Tidy value
  | list {items} (each : ∀ item ∈ items, Tidy item) : Tidy (.list items)
  | object {fields : Object} (present : ∀ entry ∈ fields, isNullOrEmpty entry.2 = false)
      (each : ∀ entry ∈ fields, Tidy entry.2) : Tidy (.object fields)

/-- A value that is not null and made of no other ones. -/
def Value.IsSingle : Value → Prop
  | .null | .list _ | .object _ => False
  | _ => True

/-- Below its non-null wrappers a type is one of those that leave strings as they are. -/
def TypeRef.HoldsText (type : TypeRef) : Prop :=
  type.fullyNullable = .named "String" ∨ type.fullyNullable = .named "ID"

/-- A type and those of the fields in it have no scalars but built-in ones. -/
def Schema.BuiltinOnly (schema : Schema) (type : TypeRef) : Prop :=
  ∀ name, schema.Leads type.innermost name → ∀ scalar, schema.type? name = some (.scalar scalar) →
    (BuiltinScalar.ofName? name).isSome = true

namespace Literal

/-- A literal comes to the empty string at a type. -/
def EmptyAt (values : Object) (type : TypeRef) (literal : Literal) : Prop :=
  literal.toValue values = .string "" ∧ type.HoldsText

/-- What a literal comes to at a type counts as absent. -/
def AbsentAt (values : Object) (type : TypeRef) (literal : Literal) : Prop :=
  literal.toValue values = .null ∨ literal.EmptyAt values type

/-- A literal that stands for a list of its own at list types. -/
def IsSingle : Literal → Prop
  | .null | .variable _ | .list _ => False
  | _ => True

/-- An empty string is kept in what a literal comes to at a type. -/
inductive KeepsEmpty (schema : Schema) (values : Object) : TypeRef → Literal → Prop where
  | bound {type name} (kept : (variableValue values name).KeepsEmpty) :
      KeepsEmpty schema values type (.variable name)
  | required {inner literal} (inside : KeepsEmpty schema values inner literal) :
      KeepsEmpty schema values (.nonNull inner) literal
  /-- An element of a list is not looked at. -/
  | here {element items item} (member : item ∈ items) (empty : item.node.EmptyAt values element) :
      KeepsEmpty schema values (.list element) (.list items)
  | item {element items item} (member : item ∈ items)
      (inside : KeepsEmpty schema values element item.node) :
      KeepsEmpty schema values (.list element) (.list items)
  /-- Neither is what stands for the only one. -/
  | onlyHere {element literal} (single : literal.IsSingle)
      (empty : literal.EmptyAt values element) : KeepsEmpty schema values (.list element) literal
  | only {element literal} (single : literal.IsSingle)
      (inside : KeepsEmpty schema values element literal) :
      KeepsEmpty schema values (.list element) literal
  | field {typeName input fields definition given}
      (declared : schema.type? typeName = some (.inputObject input))
      (member : definition ∈ input.fields)
      (written : (Literal.object fields).field? definition.node.name.node = some given)
      (inside : KeepsEmpty schema values definition.node.type.node.nullable given.node) :
      KeepsEmpty schema values (.named typeName) (.object fields)
  | default {typeName input fields definition default}
      (declared : schema.type? typeName = some (.inputObject input))
      (member : definition ∈ input.fields)
      (absent : ∀ given ∈ (Literal.object fields).field? definition.node.name.node,
        given.node.AbsentAt values definition.node.type.node.nullable)
      (written : definition.node.default = some default)
      (inside : KeepsEmpty schema values definition.node.type.node.nullable default.node) :
      KeepsEmpty schema values (.named typeName) (.object fields)

end Literal

/-- An empty string is kept in what a value from outside comes to at a type; a default wrote it. -/
inductive Value.KeepsEmptyAt (schema : Schema) (values : Object) : TypeRef → Value → Prop where
  | required {inner value} (inside : KeepsEmptyAt schema values inner value) :
      KeepsEmptyAt schema values (.nonNull inner) value
  | item {element items item} (member : item ∈ items)
      (inside : KeepsEmptyAt schema values element item) :
      KeepsEmptyAt schema values (.list element) (.list items)
  | only {element value} (unlisted : ∀ items, value ≠ .list items)
      (inside : KeepsEmptyAt schema values element value) :
      KeepsEmptyAt schema values (.list element) value
  | field {typeName input definition given} {fields : Object}
      (declared : schema.type? typeName = some (.inputObject input))
      (member : definition ∈ input.fields)
      (provided : fields.get? definition.node.name.node = some given)
      (inside : KeepsEmptyAt schema values definition.node.type.node.nullable given) :
      KeepsEmptyAt schema values (.named typeName) (.object fields)
  | default {typeName input definition default} {fields : Object}
      (declared : schema.type? typeName = some (.inputObject input))
      (member : definition ∈ input.fields)
      (absent : ∀ given ∈ fields.get? definition.node.name.node, isNullOrEmpty given = true)
      (written : definition.node.default = some default)
      (inside : default.node.KeepsEmpty schema values definition.node.type.node.nullable) :
      KeepsEmptyAt schema values (.named typeName) (.object fields)

/-- What is known of a value: whether it is empty, counts as absent or keeps an empty string. -/
structure Tells (empty absent keeps : Prop) (value : Value) : Prop where
  empty : value = .string "" ↔ empty
  absent : isNullOrEmpty value = true ↔ absent
  keeps : value.KeepsEmpty ↔ keeps
  tidy : value.Tidy

/-- A value is what a literal says of it. -/
abbrev Literal.Told (schema : Schema) (values : Object) (literal : Literal) (type : TypeRef) :
    Value → Prop :=
  Tells (literal.EmptyAt values type) (literal.AbsentAt values type)
    (literal.KeepsEmpty schema values type)

/-- A value is what the value from outside says of it; it is not empty. -/
abbrev Value.Told (schema : Schema) (values : Object) (input : Value) (type : TypeRef) :
    Value → Prop :=
  Tells False (isNullOrEmpty input = true) (input.KeepsEmptyAt schema values type)

section Values

variable {value : Value}

theorem null_or_empty_iff : isNullOrEmpty value = true ↔ value = .null ∨ value = .string "" := by
  cases value <;> simp [isNullOrEmpty, Value.isNull, Value.asString?]

/-- What counts as absent keeps nothing. -/
theorem Value.KeepsEmpty.present (keeps : value.KeepsEmpty) : isNullOrEmpty value = false := by
  cases keeps <;> rfl

theorem tells_of_single (single : value.IsSingle) {empty : Prop}
    (same : value = .string "" ↔ empty) : Tells empty empty False value where
  empty := same
  absent := by
    rw [null_or_empty_iff, ← same]
    cases value <;> simp [Value.IsSingle] at single ⊢
  keeps := by
    refine iff_false_intro fun keeps => ?_
    cases keeps <;> exact single
  tidy := by
    refine .single ?_ ?_ <;> rintro _ rfl <;> exact single

theorem keeps_empty_list {items : List Value} :
    (Value.list items).KeepsEmpty ↔ ∃ item ∈ items, item = .string "" ∨ item.KeepsEmpty := by
  constructor
  · intro keeps
    cases keeps with
    | here member => exact ⟨_, member, .inl rfl⟩
    | item member inside => exact ⟨_, member, .inr inside⟩
  · rintro ⟨item, member, rfl | inside⟩
    · exact .here member
    · exact .item member inside

/-- Whether a list keeps an empty string is told by its elements. -/
theorem list_tells {α : Type} {empty absent keeps : α → Prop} {items : List α} {found : List Value}
    (each : List.Forall₂ (fun item => Tells (empty item) (absent item) (keeps item)) items found) :
    Tells False False (∃ item ∈ items, empty item ∨ keeps item) (.list found) where
  empty := by simp
  absent := iff_false_intro (by simp [null_or_empty_iff])
  keeps := by
    rw [keeps_empty_list]
    induction each with
    | nil => simp
    | cons first _ ih =>
        rw [List.exists_mem_cons_iff, List.exists_mem_cons_iff, first.empty, first.keeps, ih]
  tidy := by
    refine .list ?_
    induction each with
    | nil => exact List.forall_mem_nil _
    | cons first _ ih => exact List.forall_mem_cons.mpr ⟨first.tidy, ih⟩

theorem keeps_empty_object {fields : Object} :
    (Value.object fields).KeepsEmpty ↔ ∃ entry ∈ fields, entry.2.KeepsEmpty := by
  constructor
  · intro keeps
    cases keeps with
    | field member inside => exact ⟨_, member, inside⟩
  · rintro ⟨entry, member, inside⟩
    exact .field member inside

theorem Value.Tidy.of_fields {fields : Object} (tidy : (Value.object fields).Tidy) :
    ∀ entry ∈ fields, isNullOrEmpty entry.2 = false ∧ entry.2.Tidy := by
  cases tidy with
  | single _ unfielded => exact absurd rfl (unfielded fields)
  | object present each => exact fun entry member => ⟨present entry member, each entry member⟩

theorem Value.Tidy.of_object {fields : Object}
    (each : ∀ entry ∈ fields, isNullOrEmpty entry.2 = false ∧ entry.2.Tidy) :
    (Value.object fields).Tidy :=
  .object (fun entry member => (each entry member).1) fun entry member => (each entry member).2

end Values

section Texts

theorem digits_filled (n : Nat) : Nat.toDigits 10 n ≠ [] :=
  List.ne_nil_of_length_pos Nat.length_toDigits_pos

theorem place_digits_filled {digits : List Char} (filled : digits ≠ []) (exponent : Int) :
    placeDigits "" digits exponent ≠ "" := by
  intro empty
  have letters := congrArg String.toList empty
  unfold placeDigits at letters
  split at letters
  · simp [filled] at letters
  · split at letters <;> simp at letters

/-- Written numbers are no empty texts. -/
theorem plain_write_filled (x : Single) : DecimalStyle.plain.write x ≠ "" := by
  intro empty
  have letters := congrArg String.toList empty
  unfold DecimalStyle.write at letters
  split at letters
  · cases letters
  · rw [String.toList_append, String.toList_empty, List.append_eq_nil_iff] at letters
    obtain ⟨-, magnitude⟩ := letters
    split at magnitude
    · cases magnitude
    · unfold DecimalStyle.magnitude at magnitude
      split at magnitude
      · cases magnitude
      · exact place_digits_filled (digits_filled _) _ (String.toList_inj.mp magnitude)

theorem to_text_empty {value : Value} (empty : value.toText? = some "") : value = .string "" := by
  cases value with
  | string text => exact congrArg Value.string (Option.some.inj empty)
  | int value =>
      have letters := (int_text value.toInt).symm.trans
        (congrArg String.toList (Option.some.inj empty))
      split at letters
      · cases letters
      · exact absurd letters (digits_filled _)
  | float value => exact absurd (Option.some.inj empty) (plain_write_filled value)
  | bool value => cases value <;> simp [Value.toText?] at empty
  | _ => cases empty

end Texts

section Leaves

variable {schema : Schema}

/-- No enum has an empty name among its values. -/
def Schema.EnumsNamed (schema : Schema) : Prop :=
  ∀ name enum, schema.type? name = some (.enum enum) → enum.hasValue "" = false

theorem Schema.accepted_enums_named (accepted : schema.Accepted) : schema.EnumsNamed := by
  intro name enum found
  obtain ⟨text, document, span, read, inside⟩ := schema.accepted_type_read accepted found (by simp)
  have formed := Document.of_source_well_formed
    (show Document.ofSource (String.ofList text) = .ok document by
      rw [Document.ofSource, String.toList_ofList]
      exact read)
  have named : (TypeDefinition.enum enum).WellFormed := formed.each _ inside
  cases named with
  | enum each =>
      rw [EnumType.hasValue, List.any_eq_false]
      intro value member same
      have allowed := each.allowed value member
      rw [beq_iff_eq.mp same] at allowed
      exact absurd allowed.1 (by decide)

/-- A scalar makes the empty text of itself only, if at all. -/
theorem BuiltinScalar.coerce_empty_iff {scalar : BuiltinScalar} {value coerced : Value}
    (made : scalar.coerce value = some coerced) :
    coerced = .string "" ↔ value = .string "" ∧ (scalar = .string ∨ scalar = .id) := by
  have text (converted : value.toText?.map Value.string = some coerced) :
      coerced = .string "" ↔ value = .string "" := by
    obtain ⟨text, found, rfl⟩ := Option.map_eq_some_iff.mp converted
    constructor
    · intro same
      cases same
      exact to_text_empty found
    · rintro rfl
      cases found
      rfl
  cases scalar with
  | string | id => simpa using text made
  | _ =>
      obtain ⟨_, -, rfl⟩ := Option.map_eq_some_iff.mp made
      simp

theorem BuiltinScalar.coerce_single {scalar : BuiltinScalar} {value coerced : Value}
    (made : scalar.coerce value = some coerced) : value.IsSingle ∧ coerced.IsSingle := by
  constructor
  · cases value <;> first | trivial | cases scalar <;> cases made
  · cases scalar <;> obtain ⟨_, -, rfl⟩ := Option.map_eq_some_iff.mp made <;> trivial

theorem BuiltinScalar.name_holds_text {scalar : BuiltinScalar} {name : String}
    (named : BuiltinScalar.ofName? name = some scalar) :
    (TypeRef.named name).HoldsText ↔ scalar = .string ∨ scalar = .id := by
  have same : scalar.name = name := by simpa using List.find?_some named
  rw [← same]
  cases scalar <;> simp [TypeRef.HoldsText, TypeRef.fullyNullable, BuiltinScalar.name]

/-- What a scalar or an enum leaves of a value is empty only if the value was. -/
theorem coerce_leaf_tells (enums : executor.schema.EnumsNamed) {name : String}
    {value coerced : Value} (done : executor.coerceLeaf name value = .ok coerced) :
    value.IsSingle ∧
      Tells (value = .string "" ∧ (TypeRef.named name).HoldsText)
        (value = .string "" ∧ (TypeRef.named name).HoldsText) False coerced := by
  unfold Executor.coerceLeaf at done
  split at done
  · cases found : (BuiltinScalar.ofName? name).bind (·.coerce value) with
    | none => simp [found] at done
    | some written =>
        simp only [found, Except.ok.injEq] at done
        subst done
        obtain ⟨builtin, named, made⟩ := Option.bind_eq_some_iff.mp found
        obtain ⟨before, after⟩ := builtin.coerce_single made
        refine ⟨before, tells_of_single after ?_⟩
        rw [BuiltinScalar.coerce_empty_iff made, BuiltinScalar.name_holds_text named]
  · rename_i enum declared
    split at done
    · cases done
    · rename_i text read
      split at done
      · rename_i known
        cases done
        have filled : text ≠ "" := by
          rintro rfl
          rw [enums name enum declared] at known
          cases known
        have before : value.IsSingle := by cases value <;> trivial
        refine ⟨before, @tells_of_single (.string text) trivial _ ?_⟩
        constructor
        · intro empty
          exact absurd (Value.string.inj empty) filled
        · rintro ⟨rfl, -⟩
          exact absurd (Option.some.inj read).symm filled
      · cases done
  · cases done
  · cases done

end Leaves

section Literals

variable {schema : Schema} {values : Object} {literal : Literal}

namespace Literal

theorem EmptyAt.not_listed {element : TypeRef} : ¬literal.EmptyAt values (.list element) := by
  rintro ⟨-, named | named⟩ <;> cases named

theorem Told.required {inner : TypeRef} {value : Value}
    (told : literal.Told schema values inner value) :
    literal.Told schema values (.nonNull inner) value := by
  refine { told with keeps := told.keeps.trans ⟨.required, fun keeps => ?_⟩ }
  cases keeps with
  | bound kept => exact .bound kept
  | required inside => exact inside

/-- Nothing is absent where a literal is neither null nor an empty string. -/
theorem told_of_present {type : TypeRef} {value : Value} (found : isNullOrEmpty value = false)
    (written : isNullOrEmpty (literal.toValue values) = false)
    (keeps : value.KeepsEmpty ↔ literal.KeepsEmpty schema values type) (tidy : value.Tidy) :
    literal.Told schema values type value where
  empty := by
    refine iff_of_false ?_ ?_
    · rintro rfl
      cases found
    · rintro ⟨empty, -⟩
      rw [empty] at written
      cases written
  absent := by
    refine iff_of_false (by simp [found]) ?_
    rintro (null | ⟨empty, -⟩)
    · rw [null] at written
      cases written
    · rw [empty] at written
      cases written
  keeps := keeps
  tidy := tidy

/-- A variable comes to its value at all types. -/
theorem variable_told {name : String} (filled : variableValue values name ≠ .string "")
    (tidy : (variableValue values name).Tidy) (type : TypeRef) (optional : type.isNonNull = false) :
    (Literal.variable name).Told schema values type (variableValue values name) where
  empty := iff_of_false filled fun empty => filled empty.1
  absent := by
    rw [null_or_empty_iff]
    exact or_congr_right (iff_of_false filled fun empty => filled empty.1)
  keeps := by
    refine ⟨.bound, fun keeps => ?_⟩
    cases keeps with
    | bound kept => exact kept
    | required => cases optional
    | onlyHere single | only single => exact single.elim
  tidy := tidy

theorem null_told (type : TypeRef) (optional : type.isNonNull = false) :
    Literal.null.Told schema values type .null where
  empty := iff_of_false (by simp) fun empty => by cases empty.1
  absent := iff_of_true rfl (.inl rfl)
  keeps := by
    refine iff_of_false (fun kept => by cases kept) fun keeps => ?_
    cases keeps with
    | required => cases optional
    | onlyHere single | only single => exact single
  tidy := .single (by simp) (by simp)

/-- What stands for the only element of a list is not looked at. -/
theorem Told.only (single : literal.IsSingle) {element : TypeRef} {value : Value}
    (told : literal.Told schema values element value) :
    literal.Told schema values (.list element) (.list [value]) := by
  have listed := list_tells (.cons told .nil)
  refine ⟨listed.empty.trans (iff_of_false id EmptyAt.not_listed), listed.absent.trans ?_,
    listed.keeps.trans ?_, listed.tidy⟩
  · refine (iff_false_intro ?_).symm
    rintro (null | empty)
    · cases literal <;> first | exact single | cases null
    · exact EmptyAt.not_listed empty
  · constructor
    · rintro ⟨_, only, empty | inside⟩
      · exact .onlyHere single (List.mem_singleton.mp only ▸ empty)
      · exact .only single (List.mem_singleton.mp only ▸ inside)
    · intro keeps
      cases keeps with
      | onlyHere _ empty => exact ⟨_, List.mem_cons_self, .inl empty⟩
      | only _ inside => exact ⟨_, List.mem_cons_self, .inr inside⟩
      | bound | here | item => exact single.elim

theorem list_told {items : List (Located Literal)} {found : List Value} {element : TypeRef}
    (each : List.Forall₂ (fun item value => item.node.Told schema values element value) items
      found) : (Literal.list items).Told schema values (.list element) (.list found) := by
  have listed := list_tells each
  refine told_of_present rfl (by rw [toValue]; rfl) (listed.keeps.trans ?_) listed.tidy
  constructor
  · rintro ⟨item, member, empty | inside⟩
    · exact .here member empty
    · exact .item member inside
  · intro keeps
    cases keeps with
    | here member empty => exact ⟨_, member, .inl empty⟩
    | item member inside => exact ⟨_, member, .inr inside⟩
    | onlyHere single | only single => exact single.elim

end Literal

/-- What a leaf makes of a literal is what the literal tells. -/
theorem literal_leaf_told (enums : executor.schema.EnumsNamed)
    (written : ∀ name, literal ≠ .variable name) {name : String} {coerced : Value}
    (done : executor.coerceLeaf name (literal.toValue values) = .ok coerced) :
    literal.Told executor.schema values (.named name) coerced := by
  obtain ⟨single, tells⟩ := coerce_leaf_tells enums done
  refine ⟨tells.empty, tells.absent.trans ?_, tells.keeps.trans ?_, tells.tidy⟩
  · refine (or_iff_right fun null => ?_).symm
    rw [null] at single
    exact single
  · refine (iff_false_intro fun keeps => ?_).symm
    cases keeps with
    | bound => exact written _ rfl
    | field | default =>
        rw [Literal.toValue] at single
        exact single

end Literals

section Inputs

variable {schema : Schema} {values : Object} {input : Value}

namespace Value

theorem KeepsEmptyAt.present {type : TypeRef} (keeps : input.KeepsEmptyAt schema values type) :
    isNullOrEmpty input = false := by
  induction keeps with
  | required _ ih | only _ _ ih => exact ih
  | item | field | default => rfl

theorem Told.required {inner : TypeRef} {value : Value}
    (told : input.Told schema values inner value) :
    input.Told schema values (.nonNull inner) value := by
  refine { told with keeps := told.keeps.trans ⟨.required, fun keeps => ?_⟩ }
  cases keeps with
  | required inside => exact inside

/-- Wherever an input counts as absent, it becomes null. -/
theorem absent_told (absent : isNullOrEmpty input = true) (type : TypeRef) :
    input.Told schema values type .null where
  empty := by simp
  absent := iff_of_true rfl absent
  keeps := by
    refine iff_of_false (fun kept => by cases kept) fun keeps => ?_
    rw [keeps.present] at absent
    cases absent
  tidy := .single (by simp) (by simp)

theorem Told.only (present : isNullOrEmpty input = false) (unlisted : ∀ items, input ≠ .list items)
    {element : TypeRef} {value : Value} (told : input.Told schema values element value) :
    input.Told schema values (.list element) (.list [value]) := by
  have each : List.Forall₂ (fun item => Value.Told schema values item element) [input] [value] :=
    .cons told .nil
  have listed := list_tells each
  refine ⟨listed.empty, listed.absent.trans (by simp [present]), listed.keeps.trans ?_, listed.tidy⟩
  constructor
  · rintro ⟨_, only, never | inside⟩
    · exact never.elim
    · exact .only unlisted (List.mem_singleton.mp only ▸ inside)
  · intro keeps
    cases keeps with
    | only _ inside => exact ⟨_, List.mem_cons_self, .inr inside⟩
    | item => exact absurd rfl (unlisted _)

theorem list_told {items found : List Value} {element : TypeRef}
    (each : List.Forall₂ (fun item value => item.Told schema values element value) items found) :
    (Value.list items).Told schema values (.list element) (.list found) := by
  have listed := list_tells each
  refine ⟨listed.empty, Iff.rfl, listed.keeps.trans ?_, listed.tidy⟩
  constructor
  · rintro ⟨item, member, never | inside⟩
    · exact never.elim
    · exact .item member inside
  · intro keeps
    cases keeps with
    | item member inside => exact ⟨_, member, .inr inside⟩
    | only unlisted => exact absurd rfl (unlisted items)

end Value

/-- What a leaf makes of a value that is there is not empty. -/
theorem input_leaf_told (enums : executor.schema.EnumsNamed) (present : isNullOrEmpty input = false)
    {name : String} {coerced : Value} (done : executor.coerceLeaf name input = .ok coerced) :
    input.Told executor.schema values (.named name) coerced := by
  obtain ⟨single, tells⟩ := coerce_leaf_tells enums done
  have filled : ¬(input = .string "" ∧ (TypeRef.named name).HoldsText) := by
    rintro ⟨rfl, -⟩
    cases present
  refine ⟨tells.empty.trans (iff_false_intro filled), tells.absent.trans ?_, tells.keeps.trans ?_,
    tells.tidy⟩
  · exact iff_of_false filled (by simp [present])
  · refine (iff_false_intro fun keeps => ?_).symm
    cases keeps with
    | field | default => exact single

end Inputs

end GraphQL
