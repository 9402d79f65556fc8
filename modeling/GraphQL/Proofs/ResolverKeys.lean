import GraphQL.Proofs.AppendedTypes
import GraphQL.Proofs.Coverage
import GraphQL.Proofs.DocumentNodes
import GraphQL.Proofs.IntrospectionRequest
import GraphQL.Proofs.OwnResolvers
import GraphQL.Proofs.RepeatedNames
import GraphQL.Proofs.SpelledTexts

/-!
Keys of resolvers hold names of the languages.

The check of keys knows no tokens, and the scanner knows no keys. Still the two go together: a text
is a valid name exactly if it is scanned as one token that stands for that name, and these are the
names that types and fields can have in a source. Whatever is around a name, or in it, ends both.
-/

namespace GraphQL

/-- A text is scanned as a token that stands for it as a name, and as nothing else. -/
def ScannedAsName (text : String) : Prop :=
  ∃ token ending : Located Token, TokenStream.ofSource text = ⟨[token, ending], none⟩ ∧
    token.node.asName? = some text ∧ ending.node = .endOfFile

section Scanning

variable {text : String}

/-- A word alone makes up a source. -/
theorem stream_word (valid : Name.isValid text = true) :
    (TokenStream.ofSource text).tokens.map (·.node) = [.ofWord text, .endOfFile] ∧
      (TokenStream.ofSource text).fault = none := by
  have alone : Written Separator [Token.ofWord text] text.toList := by
    have written : Written Separator [Token.ofWord text] (Token.ofWord text).text.toList := .last
    rwa [Token.of_word_text] at written
  exact stream_written alone (List.forall_mem_singleton.mpr (word_scans_back valid))

theorem scanned_as_name_iff : ScannedAsName text ↔ Name.isValid text = true := by
  constructor
  · rintro ⟨token, ending, scanned, named, -⟩
    have member : token ∈ (TokenStream.ofSource text).tokens := by
      rw [scanned]
      exact List.mem_cons_self
    exact (scan_from_words _ _ _ token member text named).2
  · intro valid
    obtain ⟨tokens, sound⟩ := stream_word valid
    obtain ⟨token, rest, split, word, behind⟩ := List.map_eq_cons_iff.mp tokens
    obtain ⟨ending, rfl, ended⟩ := List.map_eq_singleton_iff.mp behind
    refine ⟨token, ending, ?_, word ▸ Token.of_word_name text, ended⟩
    rw [← split, ← sound]

end Scanning

/-- A field is written in a type of a schema source. -/
def SchemaDefines (typeName fieldName : String) : Prop :=
  ∃ source document, Document.ofSource source = .ok document ∧
    ∃ type ∈ document.types, type.name = typeName ∧
      ∃ fields, type.fields? = some fields ∧
        ∃ field ∈ fields, field.node.name.node = fieldName

/-- An inline fragment occurs in selections, at any depth; spread fragments are not looked into. -/
inductive InlinedIn (fragment : Located InlineFragment) : List Selection → Prop where
  | here {selections} (member : Selection.inline fragment ∈ selections) :
      InlinedIn fragment selections
  | nested {selections parent inner} (member : Selection.field parent ∈ selections)
      (has : parent.node.selections = some inner) (deeper : InlinedIn fragment inner) :
      InlinedIn fragment selections
  | inline {selections outer} (member : Selection.inline outer ∈ selections)
      (deeper : InlinedIn fragment outer.node.selections) : InlinedIn fragment selections

/-- A field is selected in a request, at any depth below the condition that the type is this one. -/
def RequestSelects (typeName fieldName : String) : Prop :=
  ∃ source document, Document.ofSource source = .ok document ∧
    ∃ definition ∈ document.definitions, ∃ fragment, InlinedIn fragment definition.selections ∧
      fragment.node.typeCondition.map (·.node) = some typeName ∧
        ∃ field, Selects field fragment.node.selections ∧ field.node.name.node = fieldName

section Names

variable {typeName fieldName : String}

abbrev AllWellFormed (selections : List Selection) : Prop :=
  ∀ selection ∈ selections, selection.WellFormed

theorem Selection.WellFormed.nested {field : Located Field} {inner : List Selection}
    (formed : (Selection.field field).WellFormed) (has : field.node.selections = some inner) :
    AllWellFormed inner := by
  cases formed with
  | field _ _ _ _ _ each => exact each inner has

theorem Selection.WellFormed.inside {fragment : Located InlineFragment}
    (formed : (Selection.inline fragment).WellFormed) :
    (∀ name ∈ fragment.node.typeCondition, name.Valid) ∧
      AllWellFormed fragment.node.selections := by
  cases formed with
  | inline condition _ _ each => exact ⟨condition, each⟩

/-- Fields that are selected in well-formed selections have valid names. -/
theorem Selects.valid {field : Located Field} {selections : List Selection}
    (selected : GraphQL.Selects field selections) (formed : AllWellFormed selections) :
    field.node.name.Valid := by
  induction selected with
  | here member =>
      cases formed _ member with
      | field _ name => exact name
  | nested member has _ ih => exact ih ((formed _ member).nested has)
  | inline member _ ih => exact ih (formed _ member).inside.2

theorem InlinedIn.formed {fragment : Located InlineFragment} {selections : List Selection}
    (inlined : InlinedIn fragment selections) (formed : AllWellFormed selections) :
    (Selection.inline fragment).WellFormed := by
  induction inlined with
  | here member => exact formed _ member
  | nested member has _ ih => exact ih ((formed _ member).nested has)
  | inline member _ ih => exact ih (formed _ member).inside.2

theorem Definition.WellFormed.selections {definition : Definition}
    (formed : definition.WellFormed) : AllWellFormed definition.selections := by
  cases definition with
  | operation => exact (Operation.WellFormed.selections formed).each
  | fragment => exact (Fragment.WellFormed.selections formed).each
  | type | extension => exact List.forall_mem_nil _

/-- What a request selects has names. -/
theorem RequestSelects.named (selects : RequestSelects typeName fieldName) :
    Name.isValid typeName = true ∧ Name.isValid fieldName = true := by
  obtain ⟨source, document, read, definition, member, fragment, inlined, condition, field,
    selected, rfl⟩ := selects
  have formed := (Document.of_source_well_formed read).each definition member
  obtain ⟨conditions, inside⟩ := (inlined.formed formed.selections).inside
  obtain ⟨name, present, rfl⟩ := Option.map_eq_some_iff.mp condition
  exact ⟨conditions name present, selected.valid inside⟩

theorem TypeDefinition.WellFormed.named {type : TypeDefinition} (formed : type.WellFormed) :
    Name.isValid type.name = true := by
  cases formed with
  | scalar name | interface name | union name | inputObject name => exact name
  | object each => exact each.name
  | enum each => exact each.name

theorem TypeDefinition.WellFormed.fields {type : TypeDefinition} (formed : type.WellFormed)
    {fields : List (Located FieldDefinition)} (has : type.fields? = some fields) :
    FieldsWellFormed fields := by
  cases formed with
  | object each =>
      cases has
      exact each.fields
  | interface _ fields =>
      cases has
      exact fields
  | _ => cases has

/-- What a schema defines has names. -/
theorem SchemaDefines.named (defines : SchemaDefines typeName fieldName) :
    Name.isValid typeName = true ∧ Name.isValid fieldName = true := by
  obtain ⟨source, document, read, type, member, rfl, fields, has, field, inside, rfl⟩ := defines
  obtain ⟨definition, there, same⟩ := List.mem_filterMap.mp member
  have formed := (Document.of_source_well_formed read).each definition there
  match definition, same with
  | .type located, same =>
      cases same
      exact ⟨formed.named,
        (formed.fields has).keyed.names.different.valid _ (List.mem_map_of_mem inside)⟩

/-- A single definition is written and read back, places aside. -/
theorem lone_definition_read (definition : Definition) (writable : definition.Writable)
    (distinct : (declaredNames [definition]).Nodup) (other : definition.isUnion = false) :
    ∃ source document found, Document.ofSource source = .ok document ∧
      document.definitions = [found] ∧ found.placeless = definition.placeless := by
  have each : ∀ one ∈ [definition], one.Writable := List.forall_mem_singleton.mpr writable
  have closed : ¬ EndsWithUnion [definition] := by
    rintro ⟨last, ends, union⟩
    cases ends
    exact absurd (other.symm.trans union) Bool.false_ne_true
  obtain ⟨text, printed⟩ := definitions_printed each
  obtain ⟨document, read, same⟩ :=
    definitions_read_back (List.cons_ne_nil _ _) each distinct closed printed
  obtain ⟨found, alone, alike⟩ := List.map_eq_singleton_iff.mp same
  refine ⟨String.ofList text, document, found, ?_, alone, alike⟩
  rwa [Document.ofSource, String.toList_ofList]

/-- The names of a type and of its fields do not depend on places. -/
theorem TypeDefinition.placeless_names (type : TypeDefinition) :
    type.placeless.name = type.name ∧
      type.placeless.fields?.map (List.map fun field => field.node.name.node) =
        type.fields?.map (List.map fun field => field.node.name.node) := by
  cases type with
  | object | interface => exact ⟨rfl, congrArg some (List.map_map ..)⟩
  | _ => exact ⟨rfl, rfl⟩

/-- Any two names are those of a type and its field in some schema source. -/
theorem schema_defines (type : Name.isValid typeName = true)
    (field : Name.isValid fieldName = true) : SchemaDefines typeName fieldName := by
  have fields : ∀ field ∈ [Introspection.plainField fieldName (.named "Int")],
      field.node.Writable :=
    List.forall_mem_singleton.mpr
      (Introspection.plain_field_writable (show Name.isValid "Int" = true by decide))
  have writable := Introspection.object_of_writable type (List.cons_ne_nil _ _)
    (List.forall_mem_singleton.mpr field) (List.nodup_singleton _) fields
  obtain ⟨source, document, found, read, alone, same⟩ :=
    lone_definition_read (.type (.unplaced (.object _))) writable
      (List.nodup_singleton _) rfl
  match found, same with
  | .type located, same =>
      have alike : located.node.placeless = _ := congrArg Located.node (Definition.type.inj same)
      obtain ⟨named, listed⟩ := located.node.placeless_names
      rw [alike] at named listed
      obtain ⟨fields, has, names⟩ := Option.map_eq_some_iff.mp listed.symm
      have there : fieldName ∈ fields.map (·.node.name.node) := names ▸ List.mem_singleton_self _
      refine ⟨source, document, read, located.node, ?_, named.symm, fields, has,
        List.mem_map.mp there⟩
      rw [Document.types, alone]
      exact List.mem_singleton_self _

/-- A query for one field of the objects of one type. -/
def queryOn (typeName fieldName : String) : Operation where
  kind := .query
  name := none
  variableDefinitions := none
  directives := none
  selections := [.inline (.unplaced ⟨some (.unplaced typeName), none,
    [.field (.unplaced (Introspection.leaf fieldName))]⟩)]

theorem query_on_writable (type : Name.isValid typeName = true)
    (field : Name.isValid fieldName = true) : (queryOn typeName fieldName).Writable where
  name := nofun
  filled := nofun
  variableNames := nofun
  definitions := nofun
  directives := no_directives_writable
  selects := List.cons_ne_nil _ _
  selections := by
    have condition : ∀ name ∈ some (Located.unplaced typeName), name.Valid := by
      rintro name ⟨⟩
      exact type
    exact ⟨⟨condition, no_directives_writable, List.cons_ne_nil _ _,
      Introspection.leaf_writable field, trivial⟩, trivial⟩

/-- A selection that is a field without places is a field of the same name. -/
theorem field_of_placeless {selection : Selection} {other : Located Field}
    (same : selection.placeless = .field other) :
    ∃ field, selection = .field field ∧ field.node.name.node = other.node.name.node := by
  match selection, same with
  | .field ⟨⟨_, _, _, _, none⟩, _⟩, same =>
      cases same
      exact ⟨_, rfl, rfl⟩
  | .field ⟨⟨_, _, _, _, some _⟩, _⟩, same =>
      cases same
      exact ⟨_, rfl, rfl⟩
  | .inline ⟨⟨_, _, _⟩, _⟩, same => cases same

/-- A selection that is an inline fragment without places is one with the same condition. -/
theorem inline_of_placeless {selection : Selection} {other : Located InlineFragment}
    (same : selection.placeless = .inline other) :
    ∃ fragment, selection = .inline fragment ∧
      fragment.node.typeCondition.map (·.node) = other.node.typeCondition.map (·.node) ∧
      fragment.node.selections.map Selection.placeless = other.node.selections := by
  match selection, same with
  | .inline ⟨⟨condition, _, inner⟩, _⟩, same =>
      cases same
      exact ⟨_, rfl, by cases condition <;> rfl, (placeless_selections inner).symm⟩
  | .field ⟨⟨_, _, _, _, none⟩, _⟩, same => cases same
  | .field ⟨⟨_, _, _, _, some _⟩, _⟩, same => cases same

/-- Any two names are those of a type and a field that some request selects there. -/
theorem request_selects (type : Name.isValid typeName = true)
    (field : Name.isValid fieldName = true) : RequestSelects typeName fieldName := by
  obtain ⟨source, document, found, read, alone, same⟩ :=
    lone_definition_read (.operation (.unplaced (queryOn typeName fieldName)))
      (query_on_writable type field) List.nodup_nil rfl
  match found, same with
  | .operation located, same =>
      have alike : located.node.placeless = (queryOn typeName fieldName).placeless :=
        congrArg Located.node (Definition.operation.inj same)
      refine ⟨source, document, read, _, alone ▸ List.mem_singleton_self _, ?_⟩
      have selections := congrArg Operation.selections alike
      change placelessSelections located.node.selections = [Selection.placeless _] at selections
      rw [placeless_selections] at selections
      obtain ⟨selection, only, alike⟩ := List.map_eq_singleton_iff.mp selections
      obtain ⟨fragment, rfl, condition, below⟩ := inline_of_placeless alike
      obtain ⟨inner, one, alike⟩ := List.map_eq_singleton_iff.mp below
      obtain ⟨field, rfl, named⟩ := field_of_placeless alike
      have inlined : Selection.inline fragment ∈ located.node.selections :=
        only ▸ List.mem_singleton_self _
      have selected : Selection.field field ∈ fragment.node.selections :=
        one ▸ List.mem_singleton_self _
      exact ⟨fragment, .here inlined, condition, field, .here selected, named⟩

end Names

/-- A key is cut at its first slash. -/
structure CutAtSlash (key typeName fieldName : String) : Prop where
  whole : key.toList = typeName.toList ++ '/' :: fieldName.toList
  first : '/' ∉ typeName.toList

/-- A key stands for a field that a schema could define, or that a request could select. -/
def NamesField (key : String) : Prop :=
  ∃ typeName fieldName, CutAtSlash key typeName fieldName ∧
    (SchemaDefines typeName fieldName ∨ RequestSelects typeName fieldName)

section Keys

variable {key typeName fieldName : String} {σ : Type}

theorem split_key_iff :
    splitKey? key = some (typeName, fieldName) ↔ CutAtSlash key typeName fieldName := by
  constructor
  · intro split
    by_cases slash : '/' ∈ key.toList
    · obtain ⟨front, back, same, free⟩ := List.eq_append_cons_of_mem slash
      rw [← String.ofList_toList (s := key), same, split_key_first free] at split
      cases split
      exact ⟨by simpa using same, by simpa using free⟩
    · have passed : ∀ c ∈ key.toList, (c != '/') = true := fun c there =>
        bne_iff_ne.mpr fun same => slash (same ▸ there)
      rw [splitKey?, List.dropWhile_eq_nil_iff.mpr passed] at split
      cases split
  · rintro ⟨whole, first⟩
    rw [← String.ofList_toList (s := key), whole, split_key_first first, String.ofList_toList,
      String.ofList_toList]

theorem resolver_key_iff : resolverKey? key = some (typeName, fieldName) ↔
    CutAtSlash key typeName fieldName ∧
      Name.isValid typeName = true ∧ Name.isValid fieldName = true := by
  rw [← split_key_iff, resolverKey?]
  cases splitKey? key with
  | none => simp
  | some parts =>
      obtain ⟨front, back⟩ := parts
      simp only [Option.ite_none_right_eq_some, Bool.and_eq_true, Option.some.injEq, Prod.mk.injEq]
      constructor
      · rintro ⟨valid, rfl, rfl⟩
        exact ⟨⟨rfl, rfl⟩, valid⟩
      · rintro ⟨⟨rfl, rfl⟩, valid⟩
        exact ⟨valid, rfl, rfl⟩

/-- The keys that are let through are those that stand for a field. -/
theorem names_field_iff : (resolverKey? key).isSome = true ↔ NamesField key := by
  constructor
  · intro found
    obtain ⟨⟨typeName, fieldName⟩, keyed⟩ := Option.isSome_iff_exists.mp found
    obtain ⟨cut, type, field⟩ := resolver_key_iff.mp keyed
    exact ⟨typeName, fieldName, cut, .inl (schema_defines type field)⟩
  · rintro ⟨typeName, fieldName, cut, written⟩
    have named : Name.isValid typeName = true ∧ Name.isValid fieldName = true :=
      written.elim SchemaDefines.named RequestSelects.named
    exact Option.isSome_of_eq_some (resolver_key_iff.mpr ⟨cut, named⟩)

/-- A key is the first one in some resolvers that stands for no field. -/
def FirstUnnamed (key : String) (given : Resolvers σ) : Prop :=
  ∃ before resolver after, given = before ++ (key, resolver) :: after ∧
    (∀ earlier ∈ before, NamesField earlier.1) ∧ ¬ NamesField key

theorem first_unnamed_cons {first : String} {resolver : Resolver σ} {rest : Resolvers σ} :
    FirstUnnamed key ((first, resolver) :: rest) ↔
      (first = key ∧ ¬ NamesField key) ∨ (NamesField first ∧ FirstUnnamed key rest) := by
  constructor
  · rintro ⟨before, own, after, same, named, unnamed⟩
    rcases List.cons_eq_append_iff.mp same with ⟨rfl, here⟩ | ⟨others, rfl, there⟩
    · cases here
      exact .inl ⟨rfl, unnamed⟩
    · obtain ⟨front, behind⟩ := List.forall_mem_cons.mp named
      exact .inr ⟨front, others, own, after, there, behind, unnamed⟩
  · rintro (⟨rfl, unnamed⟩ | ⟨named, before, own, after, rfl, others, unnamed⟩)
    · exact ⟨[], resolver, rest, rfl, List.forall_mem_nil _, unnamed⟩
    · exact ⟨(first, resolver) :: before, own, after, rfl,
        List.forall_mem_cons.mpr ⟨named, others⟩, unnamed⟩

theorem first_unnamed_behind {before more : Resolvers σ}
    (named : ∀ earlier ∈ before, NamesField earlier.1) :
    FirstUnnamed key (before ++ more) ↔ FirstUnnamed key more := by
  induction before with
  | nil => rfl
  | cons earlier rest ih =>
      obtain ⟨first, others⟩ := List.forall_mem_cons.mp named
      rw [List.cons_append, first_unnamed_cons, ih others]
      refine ⟨?_, fun later => .inr ⟨first, later⟩⟩
      rintro (⟨rfl, unnamed⟩ | ⟨-, later⟩)
      · exact absurd first unnamed
      · exact later

/-- Resolvers are added only if each key stands for a field. -/
theorem add_resolvers_named {entries result : List (ResolverEntry σ)} {more : Resolvers σ}
    (added : addResolvers entries more = .ok result) : ∀ given ∈ more, NamesField given.1 := by
  induction more generalizing entries with
  | nil => exact List.forall_mem_nil _
  | cons given rest ih =>
      obtain ⟨key, resolver⟩ := given
      rw [addResolvers] at added
      cases keyed : resolverKey? key with
      | none => simp [keyed] at added
      | some parts =>
          simp only [keyed] at added
          exact List.forall_mem_cons.mpr
            ⟨names_field_iff.mp (Option.isSome_of_eq_some keyed), ih added⟩

/-- Adding resolvers fails at the first key without a field. -/
theorem add_resolvers_refused (entries : List (ResolverEntry σ)) {more : Resolvers σ} :
    addResolvers entries more = .error (.invalidResolverKey key) ↔ FirstUnnamed key more := by
  induction more generalizing entries with
  | nil =>
      refine ⟨nofun, ?_⟩
      rintro ⟨before, _, _, same, -⟩
      simp at same
  | cons given rest ih =>
      obtain ⟨first, resolver⟩ := given
      rw [addResolvers, first_unnamed_cons, ← names_field_iff, ← names_field_iff]
      cases keyed : resolverKey? first with
      | none =>
          have unnamed (same : first = key) : (resolverKey? key).isSome ≠ true := by
            simp [← same, keyed]
          simpa using unnamed
      | some parts =>
          have named (same : first = key) : (resolverKey? key).isSome = true := by
            simp [← same, keyed]
          simp only [Option.isSome_some, true_and, ih]
          exact ⟨.inr, fun either => either.resolve_left fun here => here.2 (named here.1)⟩

end Keys

section Executors

variable {σ : Type} {source queryName : String} {mutationName : Option String} {schema : Schema}
  {given : Resolvers σ}

/-- Executors of an accepted schema are refused for a key of the application, if at all. -/
theorem executor_refused_iff
    (accepted : Schema.ofSource source queryName mutationName = .ok schema) (key : String) :
    Executor.ofSource source queryName mutationName given =
        .error (.schema (.invalidResolverKey key)) ↔ FirstUnnamed key given := by
  have own : ∀ resolver ∈ (Introspection.resolvers schema : Resolvers σ),
      NamesField resolver.1 := fun resolver there =>
    names_field_iff.mp (introspection_keys_named accepted resolver there)
  rw [← first_unnamed_behind own, ← add_resolvers_refused [], Executor.ofSource]
  simp only [accepted]
  cases addResolvers [] (Introspection.resolvers schema ++ given) <;> simp

/-- Executors of an accepted schema are built where each key stands for a field. -/
theorem executor_built_iff :
    (∃ executor, Executor.ofSource source queryName mutationName given = .ok executor) ↔
      (∃ schema, Schema.ofSource source queryName mutationName = .ok schema) ∧
        ∀ resolver ∈ given, NamesField resolver.1 := by
  constructor
  · rintro ⟨executor, built⟩
    have made := of_source_built built [] (fun _ => none) fun error _ => error.render
    refine ⟨⟨_, made.accepted⟩, fun resolver there => ?_⟩
    exact add_resolvers_named made.added resolver (List.mem_append_right _ there)
  · rintro ⟨⟨schema, accepted⟩, named⟩
    obtain ⟨executor, built, -⟩ := executor_of_accepted accepted fun resolver there =>
      names_field_iff.mpr (named resolver there)
    exact ⟨executor, built⟩

/--
The texts that are valid as names are those that are scanned as names, and pairs of them are the
types and fields that schemas can define and requests can select. So an executor takes exactly the
keys that stand for such a field behind the cut at their first slash, and names the first other one.
-/
theorem resolver_keys_hold_names :
    (∀ text, Name.isValid text = true ↔ ScannedAsName text) ∧
      (∀ typeName fieldName,
        (ScannedAsName typeName ∧ ScannedAsName fieldName ↔ SchemaDefines typeName fieldName) ∧
          (ScannedAsName typeName ∧ ScannedAsName fieldName ↔
            RequestSelects typeName fieldName)) ∧
      ∀ (source queryName : String) (mutationName : Option String) (given : Resolvers σ),
        ((∃ executor, Executor.ofSource source queryName mutationName given = .ok executor) ↔
          (∃ schema, Schema.ofSource source queryName mutationName = .ok schema) ∧
            ∀ resolver ∈ given, NamesField resolver.1) ∧
        ∀ schema, Schema.ofSource source queryName mutationName = .ok schema → ∀ key,
          (Executor.ofSource source queryName mutationName given =
            .error (.schema (.invalidResolverKey key)) ↔ FirstUnnamed key given) := by
  refine ⟨fun _ => scanned_as_name_iff.symm, fun typeName fieldName => ?_,
    fun source queryName mutationName given =>
      ⟨executor_built_iff, fun _ accepted key => executor_refused_iff accepted key⟩⟩
  rw [scanned_as_name_iff, scanned_as_name_iff]
  exact ⟨⟨fun ⟨type, field⟩ => schema_defines type field, SchemaDefines.named⟩,
    ⟨fun ⟨type, field⟩ => request_selects type field, RequestSelects.named⟩⟩

def nullFieldSource : String := "type Q{null:Int}"

theorem null_field_accepted : (Schema.ofSource nullFieldSource "Q" none).toOption.isSome = true := by
  rw [Schema.of_source_spelled nullFieldSource String.toList_ofList]
  decide +kernel

/-- A word of the language is a name in keys too; with a blank in front of it, a text is none. -/
theorem blank_in_key_refused :
    (ScannedAsName "null" ∧ ¬ ScannedAsName " a") ∧
      ∃ schema, Schema.ofSource nullFieldSource "Q" none = .ok schema ∧
        Executor.ofSource nullFieldSource "Q" none
            [("Q/null", .ofFunction fun _ : FieldContext Unit => .null),
              ("Q/ a", .ofFunction fun _ => .null)] =
          .error (.schema (.invalidResolverKey "Q/ a")) := by
  obtain ⟨names, -, executors⟩ := @resolver_keys_hold_names Unit
  have named : NamesField "Q/null" := names_field_iff.mp (by decide)
  have unnamed : ¬ NamesField "Q/ a" := fun named =>
    absurd (names_field_iff.mpr named) (by decide)
  obtain ⟨schema, found⟩ := Option.isSome_iff_exists.mp null_field_accepted
  have accepted := ok_of_to_option found
  refine ⟨⟨(names "null").mp (by decide), fun scanned => ?_⟩, schema, accepted, ?_⟩
  · exact absurd ((names " a").mpr scanned) (by decide)
  · refine ((executors _ "Q" none _).2 schema accepted "Q/ a").mpr ?_
    exact ⟨[_], _, [], rfl, List.forall_mem_singleton.mpr named, unnamed⟩

end Executors

end GraphQL
