import GraphQL.Proofs.ReportedFields

/-!
References to types, as they are reported and as they are told back.

A reference is reported wrapper by wrapper. Selection sets that go as deep ask at each level for the
kind, the name and what is within, in any order and by fragments or not; of a wrapper they may also
ask for the parts that named types have. The records in answer are a chain from which the reference
is recovered without the schema.
-/

namespace GraphQL

/-- A reference is another one under a wrapper of a kind. -/
inductive TypeRef.Wraps : TypeKind → TypeRef → TypeRef → Prop where
  | list {element} : Wraps .list element (.list element)
  | nonNull {inner} : Wraps .nonNull inner (.nonNull inner)

namespace Introspection

/-- The parts of which types may consist. -/
def partNames : List String :=
  ["fields", "interfaces", "possibleTypes", "enumValues", "inputFields"]

section Asking

/-- At least the kind and the name are asked for, all fields under their own names. -/
structure AsksNamed (groups : List FieldGroup) : Prop where
  named : ∀ group ∈ groups, group.key = group.first.node.name.node
  kind : "kind" ∈ groups.map (·.key)
  name : "name" ∈ groups.map (·.key)

/-- A part is asked for, with or without what is deprecated. -/
def AsksPart (group : FieldGroup) : Prop :=
  group.key ∈ partNames ∧ ∃ flag : Option Bool, group.first.node.arguments =
    flag.map fun flag => .unplaced [deprecatedArgument flag]

/-- Of a wrapper it is asked what is within, and maybe for parts. -/
structure AsksWrapper (groups : List FieldGroup) (deeper : List (List Selection) → Prop) : Prop
    extends AsksNamed groups where
  within : "ofType" ∈ groups.map (·.key)
  each : ∀ group ∈ groups, group.key ∈ ["kind", "name"] ∨
    (group.key = "ofType" ∧ deeper group.selectionSets) ∨ AsksPart group

variable (schema : Schema) (scope : RequestScope)

/-- The fields that selection sets ask for of a type, grouped by key. -/
def asked (sets : List (List Selection)) : List FieldGroup :=
  collectFields schema (scope.seen undescribed) "__Type" sets

/-- Selection sets ask for a reference at least as deep as it has wrappers. -/
def AsksForRef : TypeRef → List (List Selection) → Prop
  | .named _, sets => AsksNamed (asked schema scope sets) ∧
      ∀ group ∈ asked schema scope sets, group.key ∈ ["kind", "name", "ofType"]
  | .list element, sets => AsksWrapper (asked schema scope sets) (AsksForRef element)
  | .nonNull inner, sets => AsksWrapper (asked schema scope sets) (AsksForRef inner)

/-- What the record of a named type has under a key. -/
def namedEntry (name key : String) : Value :=
  if key = "kind" then ((schema.type? name).map fun type => .string type.kind.text).getD .null
  else if key = "name" then .string name
  else .null

/-- What the record of a wrapper has under a key. -/
def wrapperEntry (kind : TypeKind) (within : Value) (key : String) : Value :=
  if key = "kind" then .string kind.text
  else if key = "ofType" then within
  else .null

/-- The record of a reference, in answer to selection sets. -/
def refRecord : TypeRef → List (List Selection) → Object
  | .named name, sets => (asked schema scope sets).map fun group =>
      (group.key, namedEntry schema name group.key)
  | .list element, sets => (asked schema scope sets).map fun group =>
      (group.key, wrapperEntry .list (.object (refRecord element group.selectionSets)) group.key)
  | .nonNull inner, sets => (asked schema scope sets).map fun group =>
      (group.key, wrapperEntry .nonNull (.object (refRecord inner group.selectionSets)) group.key)

end Asking

section Telling

/--
A record tells of a reference, in a chain that ends at a named type. Wrappers have a kind and no
name, and of the parts that were asked of them they have none.
-/
inductive Tells (schema : Schema) : TypeRef → Object → Prop where
  | named {name type record} (found : schema.type? name = some type)
      (kind : record.get? "kind" = some (.string type.kind.text))
      (named : record.get? "name" = some (.string name)) : Tells schema (.named name) record
  | wrapper {kind inner ref within record} (wraps : TypeRef.Wraps kind inner ref)
      (kinded : record.get? "kind" = some (.string kind.text))
      (unnamed : record.get? "name" = some .null)
      (parts : ∀ entry ∈ record, entry.1 ∈ partNames → entry.2 = .null)
      (wrapped : record.get? "ofType" = some (.object within))
      (deeper : Tells schema inner within) : Tells schema ref record

/-- What a kind, a name and a reference within tell. -/
def toldRef? (kind name : Option Value) (within : Option TypeRef) : Option TypeRef :=
  match kind with
  | some (.string "LIST") => within.map .list
  | some (.string "NON_NULL") => within.map .nonNull
  | _ => (name.bind Value.asString?).map .named

mutual

/-- The reference that a value tells of. -/
def refTold? : Value → Option TypeRef
  | .object record => toldRef? (record.lookup "kind") (record.lookup "name") (refWithin? record)
  | _ => none

/-- The reference that a record tells of as being within. -/
def refWithin? : List (String × Value) → Option TypeRef
  | [] => none
  | (key, value) :: rest => if key = "ofType" then refTold? value else refWithin? rest

end

variable {schema : Schema} {scope : RequestScope} {ref : TypeRef} {record : Object}

theorem ref_within_found : refWithin? record = (record.get? "ofType").bind refTold? := by
  rw [Object.get?]
  induction record with
  | nil => rfl
  | cons entry rest ih =>
      obtain ⟨key, value⟩ := entry
      rw [refWithin?, List.lookup_cons]
      by_cases same : key = "ofType"
      · simp [same]
      · have other : ("ofType" == key) = false := beq_eq_false_iff_ne.mpr (Ne.symm same)
        simp [same, other, ih]

/-- A record from which a reference is told recovers the reference. -/
theorem Tells.recovered (tells : Tells schema ref record) : refTold? (.object record) = some ref := by
  induction tells with
  | @named name type record found kind named =>
      rw [refTold?, show record.lookup "kind" = _ from kind, show record.lookup "name" = _ from named]
      cases type <;> rfl
  | @wrapper kind inner ref within record wraps kinded unnamed parts wrapped deeper ih =>
      rw [refTold?, ref_within_found, wrapped, Option.bind_some, ih,
        show record.lookup "kind" = _ from kinded]
      cases wraps <;> rfl

/-- Under a key that was asked for a record has the entry of a group of that key. -/
theorem entry_found {groups : List FieldGroup} {entry : FieldGroup → Value} {key : String}
    (there : key ∈ groups.map (·.key)) : ∃ group ∈ groups, group.key = key ∧
      Object.get? (groups.map fun group => (group.key, entry group)) key = some (entry group) := by
  induction groups with
  | nil => cases there
  | cons group rest ih =>
      by_cases same : group.key = key
      · exact ⟨group, List.mem_cons_self, same, by simp [Object.get?, same]⟩
      · have later : key ∈ rest.map (·.key) := by
          simpa [Ne.symm same] using there
        obtain ⟨other, member, keyed, found⟩ := ih later
        have passed : (key == group.key) = false := beq_eq_false_iff_ne.mpr (Ne.symm same)
        refine ⟨other, List.mem_cons_of_mem _ member, keyed, ?_⟩
        rw [← found]
        simp [Object.get?, List.lookup_cons, passed]

/-- The record of a wrapper tells of it if the record within does so. -/
theorem wrapper_tells {kind : TypeKind} {inner : TypeRef} (wraps : TypeRef.Wraps kind inner ref)
    {groups : List FieldGroup} {deeper : List (List Selection) → Prop}
    {within : List (List Selection) → Object} (asks : AsksWrapper groups deeper)
    (tells : ∀ sets, deeper sets → Tells schema inner (within sets)) :
    Tells schema ref (groups.map fun group =>
      (group.key, wrapperEntry kind (.object (within group.selectionSets)) group.key)) := by
  let entry (group : FieldGroup) := wrapperEntry kind (.object (within group.selectionSets)) group.key
  have entries {key : String} (there : key ∈ groups.map (·.key)) :=
    @entry_found groups entry key there
  obtain ⟨_, -, kinded, kind_found⟩ := entries asks.kind
  obtain ⟨_, -, named, name_found⟩ := entries asks.name
  obtain ⟨group, member, wrapped, within_found⟩ := entries asks.within
  have deep : deeper group.selectionSets := by
    rcases asks.each group member with own | ⟨-, deep⟩ | part
    · simp [wrapped] at own
    · exact deep
    · simp [AsksPart, wrapped, partNames] at part
  refine .wrapper wraps (kind_found.trans ?_) (name_found.trans ?_)
    (List.forall_mem_map.mpr fun other _ part => ?_) (within_found.trans ?_) (tells _ deep)
  · simp [entry, wrapperEntry, kinded]
  · simp [entry, wrapperEntry, named]
  · simp only [partNames, List.mem_cons, List.not_mem_nil, or_false] at part
    rcases part with key | key | key | key | key <;> simp [wrapperEntry, key]
  · simp [entry, wrapperEntry, wrapped]

/-- Where selection sets ask for a reference, the record in answer tells of it. -/
theorem ref_record_tells (known : (schema.type? ref.innermost).isSome = true)
    {sets : List (List Selection)} (asks : AsksForRef schema scope ref sets) :
    Tells schema ref (refRecord schema scope ref sets) := by
  induction ref generalizing sets with
  | named name =>
      obtain ⟨type, found⟩ := Option.isSome_iff_exists.mp known
      have found : schema.type? name = some type := found
      obtain ⟨_, -, kinded, kind_found⟩ := @entry_found _ (namedEntry schema name ·.key) _ asks.1.kind
      obtain ⟨_, -, named, name_found⟩ := @entry_found _ (namedEntry schema name ·.key) _ asks.1.name
      refine .named found (kind_found.trans ?_) (name_found.trans ?_)
      · simp [namedEntry, kinded, found]
      · simp [namedEntry, named]
  | list element ih => exact wrapper_tells .list asks fun _ => ih known
  | nonNull inner ih => exact wrapper_tells .nonNull asks fun _ => ih known

end Telling

end Introspection

section Wrappers

variable {σ : Type} {context : FieldContext σ} {kind : TypeKind} {inner : Value}

/-- No type is found for a wrapper, as it has no name. -/
theorem wrapper_nameless (source : context.source = Introspection.wrapperValue kind inner) :
    Introspection.sourceType? context = none := by
  rw [Introspection.sourceType?, source]
  rfl

end Wrappers

namespace Executor.Introspects

variable {σ : Type} {executor : Executor σ} (introspects : executor.Introspects)
  {scope : RequestScope} {depth : Nat} {type : ObjectType} {group : FieldGroup}
  (stands : type.Stands Introspection.typeObject executor.schema)

include introspects stands

/-- All parts of a wrapper are null, whichever is asked for. -/
theorem gives_no_part {kind : TypeKind} {inner : Value}
    (named : group.key = group.first.node.name.node) (asks : Introspection.AsksPart group) :
    executor.Gives scope depth type (Introspection.wrapperValue kind inner) group .null := by
  have listed : Introspection.typeObject ∈ Introspection.objects := by
    simp [Introspection.objects]
  obtain ⟨part, flag, written⟩ := asks
  rw [named] at part
  simp only [Introspection.partNames, List.mem_cons, List.not_mem_nil, or_false] at part
  rcases part with fields | interfaces | possible | values | inputs
  · refine introspects.gives_computed listed stands fields (List.mem_of_getElem? (i := 7) rfl) rfl
      (by decide) (introspects.supplies_flag flag written)
      (fun context _ source _ => ?_) (introspects.shows_null rfl)
    rw [Introspection.fields, wrapper_nameless source]
  · refine introspects.gives_computed listed stands interfaces (List.mem_of_getElem? (i := 8) rfl)
      rfl (by decide) supplies_nothing (fun context _ source _ => ?_) (introspects.shows_null rfl)
    rw [Introspection.interfaces, wrapper_nameless source]
  · refine introspects.gives_computed listed stands possible (List.mem_of_getElem? (i := 9) rfl)
      rfl (by decide) supplies_nothing (fun context _ source _ => ?_) (introspects.shows_null rfl)
    rw [Introspection.possibleTypes, wrapper_nameless source]
  · refine introspects.gives_computed listed stands values (List.mem_of_getElem? (i := 10) rfl) rfl
      (by decide) (introspects.supplies_flag flag written)
      (fun context _ source _ => ?_) (introspects.shows_null rfl)
    rw [Introspection.enumValues, wrapper_nameless source]
  · refine introspects.gives_computed listed stands inputs (List.mem_of_getElem? (i := 11) rfl) rfl
      (by decide) supplies_nothing (fun context _ source _ => ?_) (introspects.shows_null rfl)
    rw [Introspection.inputFields, wrapper_nameless source]

theorem gives_kind {source : Value} {kind : TypeKind} (keyed : group.first.node.name.node = "kind")
    (kinded : source.field? "kind" = some (.string kind.text)) :
    executor.Gives scope depth type source group (.string kind.text) := by
  have listed : Introspection.typeObject ∈ Introspection.objects := by
    simp [Introspection.objects]
  exact introspects.gives_kept listed stands keyed rfl (by decide) (congrArg (·.getD .null) kinded)
    (introspects.shows_kind kind)

theorem gives_name {source name : Value} (keyed : group.first.node.name.node = "name")
    (named : (source.field? "name").getD .null = name)
    (text : executor.Shows scope depth (.named "String") name group.selectionSets name) :
    executor.Gives scope depth type source group name := by
  have listed : Introspection.typeObject ∈ Introspection.objects := by
    simp [Introspection.objects]
  exact introspects.gives_kept listed stands keyed rfl (by decide) named text

theorem gives_within {source inner answer : Value} (keyed : group.first.node.name.node = "ofType")
    (within : (source.field? "ofType").getD .null = inner)
    (shows : executor.Shows scope depth (.named "__Type") inner group.selectionSets answer) :
    executor.Gives scope depth type source group answer := by
  have listed : Introspection.typeObject ∈ Introspection.objects := by
    simp [Introspection.objects]
  exact introspects.gives_kept listed stands keyed rfl (by decide) within shows

omit introspects in
/-- Groups of a type that is reported are answered by the entries that each of them is given. -/
theorem groups_answered {sets : List (List Selection)} {source : Value} {entry : FieldGroup → Value}
    (gives : ∀ group ∈ Introspection.asked executor.schema scope sets,
      executor.Gives scope depth type source group (entry group)) :
    executor.AnswersBy scope (depth + 1) type source sets
      ((Introspection.asked executor.schema scope sets).map fun group => (group.key, entry group)) := by
  refine @Executor.AnswersBy.grouped _ undescribed _ _ _ _ _ _ _ _ ?_
    (List.forall₂_map_right_iff.mpr (List.forall₂_same.mpr fun group member =>
      ⟨rfl, gives group member⟩))
  rw [stands.named]
  rfl

/-- A wrapper is answered by its record if what is within is answered by the one within. -/
theorem wrapper_answered {kind : TypeKind} {inner : Value} {sets : List (List Selection)}
    {deeper : List (List Selection) → Prop} {within : List (List Selection) → Object}
    (asks : Introspection.AsksWrapper (Introspection.asked executor.schema scope sets) deeper)
    (shows : ∀ sets, deeper sets →
      executor.Shows scope depth (.named "__Type") inner sets (.object (within sets))) :
    executor.AnswersBy scope (depth + 1) type (Introspection.wrapperValue kind inner) sets
      ((Introspection.asked executor.schema scope sets).map fun group => (group.key,
        Introspection.wrapperEntry kind (.object (within group.selectionSets)) group.key)) := by
  refine groups_answered stands fun group member => ?_
  have named := asks.named group member
  rcases asks.each group member with own | ⟨wrapped, deep⟩ | part
  · simp only [List.mem_cons, List.not_mem_nil, or_false] at own
    rcases own with kinded | unnamed
    · rw [show Introspection.wrapperEntry kind _ group.key = .string kind.text by
        simp [Introspection.wrapperEntry, kinded]]
      exact introspects.gives_kind stands (named.symm.trans kinded) rfl
    · rw [show Introspection.wrapperEntry kind _ group.key = .null by
        simp [Introspection.wrapperEntry, unnamed]]
      exact introspects.gives_name stands (named.symm.trans unnamed) rfl (introspects.shows_null rfl)
  · rw [show Introspection.wrapperEntry kind _ group.key = .object (within group.selectionSets) by
      simp [Introspection.wrapperEntry, wrapped]]
    exact introspects.gives_within stands (named.symm.trans wrapped) rfl (shows _ deep)
  · have absent (within : Value) : Introspection.wrapperEntry kind within group.key = .null := by
      have key := part.1
      simp only [Introspection.partNames, List.mem_cons, List.not_mem_nil, or_false] at key
      rcases key with key | key | key | key | key <;> simp [Introspection.wrapperEntry, key]
    rw [absent]
    exact introspects.gives_no_part stands named part

/-- A named type is answered by its record. -/
theorem named_answered {definition : TypeDefinition} {name : String}
    (found : executor.schema.type? name = some definition) {sets : List (List Selection)}
    (asks : Introspection.AsksForRef executor.schema scope (.named name) sets) :
    executor.AnswersBy scope (depth + 1) type (Introspection.typeValue definition) sets
      (Introspection.refRecord executor.schema scope (.named name) sets) := by
  have same := ((Document.type_found_iff introspects.distinct).mp found).2
  refine groups_answered stands fun group member => ?_
  have named := asks.1.named group member
  have own := asks.2 group member
  simp only [List.mem_cons, List.not_mem_nil, or_false] at own
  rcases own with kinded | text | wrapped
  · rw [show Introspection.namedEntry executor.schema name group.key = .string definition.kind.text by
      simp [Introspection.namedEntry, kinded, found]]
    exact introspects.gives_kind stands (named.symm.trans kinded) rfl
  · rw [show Introspection.namedEntry executor.schema name group.key = .string name by
      simp [Introspection.namedEntry, text]]
    exact introspects.gives_name stands (named.symm.trans text) (same ▸ rfl)
      (introspects.shows_string name)
  · rw [show Introspection.namedEntry executor.schema name group.key = .null by
      simp [Introspection.namedEntry, wrapped]]
    exact introspects.gives_within stands (named.symm.trans wrapped) rfl (introspects.shows_null rfl)

/-- A reference is answered by its record, where it is followed as deep as it has wrappers. -/
theorem ref_answered {ref : TypeRef} (known : (executor.schema.type? ref.innermost).isSome = true)
    {sets : List (List Selection)} (asks : Introspection.AsksForRef executor.schema scope ref sets)
    (deep : ref.wrappers ≤ depth) :
    (Introspection.typeRefValue executor.schema ref).isNull = false ∧
      executor.AnswersBy scope (depth + 1) type (Introspection.typeRefValue executor.schema ref) sets
        (Introspection.refRecord executor.schema scope ref sets) := by
  -- What is within a wrapper is answered by the hypothesis, one level further down.
  have wrapper {inner : TypeRef} {kind : TypeKind} {sets : List (List Selection)} {depth : Nat}
      (ih : ∀ {sets depth}, Introspection.AsksForRef executor.schema scope inner sets →
        inner.wrappers ≤ depth →
          (Introspection.typeRefValue executor.schema inner).isNull = false ∧
            executor.AnswersBy scope (depth + 1) type
              (Introspection.typeRefValue executor.schema inner) sets
              (Introspection.refRecord executor.schema scope inner sets))
      (asks : Introspection.AsksWrapper (Introspection.asked executor.schema scope sets)
        (Introspection.AsksForRef executor.schema scope inner)) (deep : inner.wrappers + 1 ≤ depth) :
      executor.AnswersBy scope (depth + 1) type
        (Introspection.wrapperValue kind (Introspection.typeRefValue executor.schema inner)) sets
        ((Introspection.asked executor.schema scope sets).map fun group =>
          (group.key, Introspection.wrapperEntry kind (.object
            (Introspection.refRecord executor.schema scope inner group.selectionSets))
            group.key)) := by
    obtain ⟨left, rfl⟩ := Nat.exists_eq_add_one.mpr (Nat.zero_lt_of_lt deep)
    refine introspects.wrapper_answered stands asks fun sets deeper => ?_
    obtain ⟨there, answers⟩ := ih deeper (Nat.le_of_succ_le_succ deep)
    exact .object stands.typed (introspects.present there) answers
  induction ref generalizing sets depth with
  | named name =>
      obtain ⟨definition, found⟩ := Option.isSome_iff_exists.mp known
      have found : executor.schema.type? name = some definition := found
      rw [Introspection.typeRefValue, Introspection.namedValue, found]
      exact ⟨rfl, introspects.named_answered stands found asks⟩
  | list element ih => exact ⟨rfl, wrapper (ih known) asks deep⟩
  | nonNull inner ih => exact ⟨rfl, wrapper (ih known) asks deep⟩

end Executor.Introspects

end GraphQL
