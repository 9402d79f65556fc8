import GraphQL.Document.Index
import GraphQL.Proofs.InlineExtensions

/-!
Names lead to the definitions that have them.

The definitions of a document are refused as soon as one of them has a name that is taken. Otherwise
each look-up finds the one definition of its name and kind, through positions as well as by search.
An index stays right where definitions are changed in place and keep their names, as they do when
extensions are merged into their types and the query root gains the fields of introspection.
-/

namespace GraphQL

/-- The names under which definitions are found, in order. -/
def definitionKeys (definitions : List Definition) : List (NameKind × String) :=
  definitions.filterMap Definition.key?

/-- Two definitions have the same name in the same name space. -/
def RepeatsKey (definitions : List Definition) : Prop :=
  ∃ (first second : Nat) (key : NameKind × String), first < second ∧ definitions[first]?.bind Definition.key? = some key ∧
    definitions[second]?.bind Definition.key? = some key

/-- The error that tells of the first definition whose name is taken. -/
def FirstTaken (definitions : List Definition) (error : Located ParseError) : Prop :=
  ∃ front again rest kind name, definitions = front ++ again :: rest ∧
    again.declared? = some (kind, name) ∧ (kind, name.node) ∈ definitionKeys front ∧
    (definitionKeys front).Nodup ∧ error = ⟨.duplicate kind name.node, name.span⟩

/-- Each look-up finds the definition of its name and kind, where there is one. -/
structure LookUps.Exact (lookUps : LookUps) (definitions : List Definition) : Prop where
  operation : ∀ name found, lookUps.operation? name = some found ↔
    .operation found ∈ definitions ∧ found.node.name.map (·.node) = some name
  fragment : ∀ name found, lookUps.fragment? name = some found ↔
    .fragment found ∈ definitions ∧ found.node.name.node = name
  type : ∀ name found, lookUps.type? name = some found ↔
    (∃ span, .type ⟨found, span⟩ ∈ definitions) ∧ found.name = name
  kind : ∀ kind name found, lookUps.typeOfKind? kind name = some found ↔
    (∃ span, .type ⟨found, span⟩ ∈ definitions) ∧ found.name = name ∧ found.kind = kind

/-- What is looked up depends on the definitions alone. -/
theorem LookUps.Exact.unique {first second : LookUps} {definitions : List Definition}
    (left : first.Exact definitions) (right : second.Exact definitions) : first = second := by
  obtain ⟨operation, fragment, type⟩ := first
  obtain ⟨operation', fragment', type'⟩ := second
  congr
  · funext name
    exact Option.ext fun found => (left.operation name found).trans (right.operation name found).symm
  · funext name
    exact Option.ext fun found => (left.fragment name found).trans (right.fragment name found).symm
  · funext name
    exact Option.ext fun found => (left.type name found).trans (right.type name found).symm

section Keys

variable {definition : Definition}

theorem key_of_declared {kind : NameKind} {located : Located String}
    (declared : definition.declared? = some (kind, located)) :
    definition.key? = some (kind, located.node) := by
  rw [Definition.key?, declared, Option.map_some]

/-- A name space holds what a view of definitions finds, under the names that are asked for. -/
def Holds {α : Type} (kind : NameKind) (view? : Definition → Option α) (asked : String → α → Bool) :
    Prop :=
  ∀ definition name, definition.key? = some (kind, name) ↔
    ∃ found, view? definition = some found ∧ asked name found = true

theorem operations_held :
    Holds .operation Definition.operation? fun name operation =>
      operation.node.name.map (·.node) == some name := by
  intro definition name
  cases definition with
  | operation located =>
      cases named : located.node.name <;>
        simp [Definition.key?, Definition.declared?, Definition.operation?, named]
  | _ => simp [Definition.key?, Definition.declared?, Definition.operation?]

theorem fragments_held :
    Holds .fragment Definition.fragment? fun name fragment => fragment.node.name.node == name := by
  intro definition name
  cases definition with
  | operation located =>
      cases named : located.node.name <;>
        simp [Definition.key?, Definition.declared?, Definition.fragment?, named]
  | _ => simp [Definition.key?, Definition.declared?, Definition.fragment?]

theorem types_held : Holds .type Definition.type? fun name type => type.name == name := by
  intro definition name
  cases definition with
  | operation located =>
      cases named : located.node.name <;>
        simp [Definition.key?, Definition.declared?, Definition.type?, named]
  | _ => simp [Definition.key?, Definition.declared?, Definition.type?, TypeDefinition.name]

end Keys

section Taken

variable {definition : Definition} {definitions front rest : List Definition}
  {seen : List (NameKind × String)} {kind : NameKind} {name : Located String}

theorem definition_keys_none (unnamed : definition.declared? = none) :
    definitionKeys (definition :: rest) = definitionKeys rest := by
  rw [definitionKeys, List.filterMap_cons, Definition.key?, unnamed]
  rfl

theorem definition_keys_some (declared : definition.declared? = some (kind, name)) :
    definitionKeys (definition :: rest) = (kind, name.node) :: definitionKeys rest := by
  rw [definitionKeys, List.filterMap_cons, key_of_declared declared]
  rfl

/-- What is declared again has a name that was seen, or that comes before it. -/
theorem first_redeclared_split
    (found : Document.firstRedeclared? seen (definitions.filterMap Definition.declared?) =
      some (kind, name)) :
    ∃ front again rest, definitions = front ++ again :: rest ∧
      again.declared? = some (kind, name) ∧
      ((kind, name.node) ∈ seen ∨ (kind, name.node) ∈ definitionKeys front) ∧
      (definitionKeys front).Nodup ∧ ∀ key ∈ definitionKeys front, key ∉ seen := by
  induction definitions generalizing seen with
  | nil => cases found
  | cons definition rest ih =>
      cases declared : definition.declared? with
      | none =>
          rw [List.filterMap_cons, declared] at found
          obtain ⟨front, again, after, rfl, same, taken, distinct, fresh⟩ := ih found
          refine ⟨definition :: front, again, after, rfl, same, ?_⟩
          rw [definition_keys_none declared]
          exact ⟨taken, distinct, fresh⟩
      | some own =>
          obtain ⟨ownKind, own⟩ := own
          rw [List.filterMap_cons, declared] at found
          simp only [Document.firstRedeclared?] at found
          by_cases repeated : (ownKind, own.node) ∈ seen
          · rw [if_pos repeated] at found
            cases found
            exact ⟨[], definition, rest, rfl, declared, .inl repeated, List.nodup_nil,
              List.forall_mem_nil _⟩
          · rw [if_neg repeated] at found
            obtain ⟨front, again, after, rfl, same, taken, distinct, fresh⟩ := ih found
            refine ⟨definition :: front, again, after, rfl, same, ?_⟩
            rw [definition_keys_some declared]
            refine ⟨?_, List.nodup_cons.mpr ⟨fun among => fresh _ among List.mem_cons_self, distinct⟩,
              List.forall_mem_cons.mpr ⟨repeated, fun key among before =>
                fresh key among (List.mem_cons_of_mem _ before)⟩⟩
            rw [List.mem_cons] at taken ⊢
            tauto

/-- Where names differ up to a definition whose name is taken, it is the one declared again. -/
theorem first_redeclared_behind {again : Definition}
    (declared : again.declared? = some (kind, name))
    (taken : (kind, name.node) ∈ seen ∨ (kind, name.node) ∈ definitionKeys front)
    (distinct : (definitionKeys front).Nodup) (fresh : ∀ key ∈ definitionKeys front, key ∉ seen) :
    Document.firstRedeclared? seen ((front ++ again :: rest).filterMap Definition.declared?) =
      some (kind, name) := by
  induction front generalizing seen with
  | nil =>
      have before : (kind, name.node) ∈ seen := by simpa [definitionKeys] using taken
      rw [List.nil_append, List.filterMap_cons, declared]
      simp only [Document.firstRedeclared?]
      rw [if_pos before]
  | cons definition front ih =>
      rw [List.cons_append, List.filterMap_cons]
      cases own : definition.declared? with
      | none =>
          rw [definition_keys_none own] at taken distinct fresh
          exact ih taken distinct fresh
      | some other =>
          obtain ⟨otherKind, other⟩ := other
          rw [definition_keys_some own] at taken distinct fresh
          obtain ⟨absent, distinct⟩ := List.nodup_cons.mp distinct
          obtain ⟨unseen, fresh⟩ := List.forall_mem_cons.mp fresh
          simp only [Document.firstRedeclared?]
          rw [if_neg unseen]
          refine ih ?_ distinct fun key among => ?_
          · rw [List.mem_cons] at taken ⊢
            tauto
          · rw [List.mem_cons, not_or]
            exact ⟨fun same => absent (same ▸ among), fresh key among⟩

/-- Definitions are refused for the first of them whose name is taken, where that stands. -/
theorem refused_iff_first_taken {span : Span} {error : Located ParseError} :
    Document.ofDefinitions definitions span = .error error ↔ FirstTaken definitions error := by
  rw [Document.ofDefinitions]
  constructor
  · intro refused
    split at refused
    · rename_i kind name found
      cases refused
      obtain ⟨front, again, rest, same, declared, taken, distinct, -⟩ := first_redeclared_split found
      exact ⟨front, again, rest, kind, name, same, declared, taken.resolve_left (List.not_mem_nil),
        distinct, rfl⟩
    · cases refused
  · rintro ⟨front, again, rest, kind, name, rfl, declared, taken, distinct, rfl⟩
    rw [first_redeclared_behind declared (.inr taken) distinct fun _ _ => List.not_mem_nil]

end Taken

/-- An index holds exactly the positions of the definitions that have names. -/
def NameIndex.Files (index : NameIndex) (definitions : List Definition) : Prop :=
  ∀ key position, index.lookup key = some position ↔
    definitions[position]?.bind Definition.key? = some key

section Files

variable {index filled : NameIndex} {definition : Definition}
  {definitions front rest : List Definition} {kind : NameKind} {name : Located String}

/-- The name at a position, where one more definition stands at the end. -/
theorem key_behind (front : List Definition) (definition : Definition) (position : Nat) :
    (front ++ [definition])[position]?.bind Definition.key? =
      if position = front.length then definition.key?
      else front[position]?.bind Definition.key? := by
  split
  · rename_i here
    rw [here, List.getElem?_concat_length, Option.bind_some]
  · rename_i elsewhere
    rcases Nat.lt_or_gt_of_ne elsewhere with before | behind
    · rw [List.getElem?_append_left before]
    · have beyond : (front ++ [definition]).length ≤ position := by
        rw [List.length_append, List.length_singleton]
        exact behind
      rw [List.getElem?_eq_none beyond, List.getElem?_eq_none (Nat.le_of_lt behind)]

theorem NameIndex.files_nothing : NameIndex.Files [] [] := by simp [NameIndex.Files]

/-- Definitions without a name need not be filed. -/
theorem NameIndex.Files.skip (files : index.Files front) (unnamed : definition.declared? = none) :
    index.Files (front ++ [definition]) := by
  intro key position
  rw [files key position, key_behind]
  split
  · rename_i here
    rw [here, List.getElem?_eq_none (Nat.le_refl _), Definition.key?, unnamed]
    rfl
  · rfl

/-- A name that is free is filed with the position at the end. -/
theorem NameIndex.Files.add (files : index.Files front)
    (declared : definition.declared? = some (kind, name))
    (fresh : index.lookup (kind, name.node) = none) :
    NameIndex.Files (((kind, name.node), front.length) :: index) (front ++ [definition]) := by
  intro key position
  rw [key_behind, key_of_declared declared, List.lookup_cons]
  by_cases own : key = (kind, name.node)
  · subst own
    rw [beq_self_eq_true]
    dsimp only
    by_cases here : position = front.length
    · simp [here]
    · rw [if_neg here, ← files, fresh]
      simp [Ne.symm here]
  · rw [beq_false_of_ne own]
    dsimp only
    rw [files]
    by_cases here : position = front.length
    · rw [if_pos here, here, List.getElem?_eq_none (Nat.le_refl _)]
      simp [Ne.symm own]
    · rw [if_neg here]

/-- Filling goes through all definitions, unless it stops at a name. -/
theorem NameIndex.Files.fill (files : index.Files front)
    (done : index.fill front.length rest = .ok filled) : filled.Files (front ++ rest) := by
  induction rest generalizing index front with
  | nil =>
      cases done
      rwa [List.append_nil]
  | cons definition rest ih =>
      have next : (front ++ [definition]).length = front.length + 1 := by simp
      rw [List.append_cons]
      rw [NameIndex.fill] at done
      cases declared : definition.declared? with
      | none =>
          simp only [declared] at done
          exact ih (files.skip declared) (next ▸ done)
      | some own =>
          obtain ⟨kind, name⟩ := own
          simp only [declared] at done
          cases taken : index.lookup (kind, name.node) with
          | some position => simp [taken] at done
          | none =>
              simp only [taken] at done
              exact ih (files.add declared taken) (next ▸ done)

/-- An index is filled up to the first name that was declared before. -/
theorem NameIndex.fill_refused_iff {seen : List (NameKind × String)} {position : Nat}
    {error : Located ParseError}
    (known : ∀ key, key ∈ seen ↔ (index.lookup key).isSome = true) :
    index.fill position definitions = .error error ↔
      ∃ kind name, Document.firstRedeclared? seen (definitions.filterMap Definition.declared?) =
          some (kind, name) ∧ error = ⟨.duplicate kind name.node, name.span⟩ := by
  induction definitions generalizing index seen position with
  | nil => simp [NameIndex.fill, Document.firstRedeclared?]
  | cons definition rest ih =>
      rw [NameIndex.fill, List.filterMap_cons]
      cases declared : definition.declared? with
      | none => exact ih known
      | some own =>
          obtain ⟨kind, name⟩ := own
          simp only [Document.firstRedeclared?]
          cases taken : index.lookup (kind, name.node) with
          | some place =>
              rw [if_pos ((known _).mpr (by rw [taken]; rfl))]
              simp [eq_comm]
          | none =>
              have absent : (kind, name.node) ∉ seen := fun there => by
                have impossible := (known _).mp there
                rw [taken] at impossible
                cases impossible
              rw [if_neg absent]
              refine ih fun key => ?_
              rw [List.mem_cons, List.lookup_cons, known]
              by_cases own : key = (kind, name.node)
              · simp [own]
              · simp [own, beq_false_of_ne own]

/-- An index is refused for the same name as a document. -/
theorem NameIndex.refused_iff {span : Span} {error : Located ParseError} :
    NameIndex.ofDefinitions definitions = .error error ↔
      Document.ofDefinitions definitions span = .error error := by
  have nothing (key : NameKind × String) :
      key ∈ ([] : List (NameKind × String)) ↔ (([] : NameIndex).lookup key).isSome = true := by simp
  rw [NameIndex.ofDefinitions, NameIndex.fill_refused_iff nothing, Document.ofDefinitions]
  cases Document.firstRedeclared? [] (definitions.filterMap Definition.declared?) with
  | none => simp
  | some own =>
      obtain ⟨kind, name⟩ := own
      simp [eq_comm]

end Files

section Exact

variable {index : NameIndex} {definitions : List Definition}

namespace NameIndex.Files

variable (files : index.Files definitions)

include files

/-- What is found through an index is a definition of that name, and each of these is found. -/
theorem definition_iff {kind : NameKind} {name : String} {found : Definition} :
    index.definition? definitions kind name = some found ↔
      found ∈ definitions ∧ found.key? = some (kind, name) := by
  rw [definition?, Option.bind_eq_some_iff]
  constructor
  · rintro ⟨position, filed, here⟩
    have key := (files _ _).mp filed
    rw [here, Option.bind_some] at key
    exact ⟨List.mem_of_getElem? here, key⟩
  · rintro ⟨among, key⟩
    obtain ⟨position, here⟩ := List.mem_iff_getElem?.mp among
    exact ⟨position, (files _ _).mpr (by rw [here, Option.bind_some, key]), here⟩

/-- There is only one definition of a name in its name space. -/
theorem sole {first second : Definition} (among : first ∈ definitions)
    (among' : second ∈ definitions) {key : NameKind × String} (named : first.key? = some key)
    (named' : second.key? = some key) : first = second := by
  have found := files.definition_iff.mpr ⟨among, named⟩
  rw [files.definition_iff.mpr ⟨among', named'⟩] at found
  exact (Option.some.inj found).symm

variable {α : Type} {kind : NameKind} {view? : Definition → Option α} {asked : String → α → Bool}
  (held : Holds kind view? asked)

include held

/-- The index leads to the one definition of its space that has the name. -/
theorem through_index {name : String} {found : α} :
    (index.definition? definitions kind name).bind view? = some found ↔
      (∃ definition ∈ definitions, view? definition = some found) ∧ asked name found = true := by
  simp only [Option.bind_eq_some_iff, files.definition_iff, held _ _]
  constructor
  · rintro ⟨definition, ⟨among, own, viewed, named⟩, same⟩
    obtain rfl : own = found := Option.some.inj (viewed.symm.trans same)
    exact ⟨⟨definition, among, viewed⟩, named⟩
  · rintro ⟨⟨definition, among, viewed⟩, named⟩
    exact ⟨definition, ⟨among, found, viewed, named⟩, viewed⟩

/-- So does a search, as no other definition of the space has the name. -/
theorem by_search {name : String} {found : α} :
    (definitions.filterMap view?).find? (asked name) = some found ↔
      (∃ definition ∈ definitions, view? definition = some found) ∧ asked name found = true := by
  constructor
  · intro searched
    exact ⟨List.mem_filterMap.mp (List.mem_of_find?_eq_some searched), List.find?_some searched⟩
  · rintro ⟨⟨definition, among, viewed⟩, named⟩
    have there := List.mem_filterMap.mpr ⟨definition, among, viewed⟩
    cases searched : (definitions.filterMap view?).find? (asked name) with
    | none => exact absurd named (List.find?_eq_none.mp searched found there)
    | some other =>
        obtain ⟨own, among', viewed'⟩ := List.mem_filterMap.mp (List.mem_of_find?_eq_some searched)
        obtain rfl := files.sole among among' ((held _ name).mpr ⟨_, viewed, named⟩)
          ((held _ name).mpr ⟨_, viewed', List.find?_some searched⟩)
        exact viewed'.symm.trans viewed

end NameIndex.Files

/-- Look-ups are exact that find what has the name in each name space. -/
theorem LookUps.exact_of_held {lookUps : LookUps}
    (operation : ∀ name found, lookUps.operation? name = some found ↔
      (∃ definition ∈ definitions, definition.operation? = some found) ∧
        (found.node.name.map (·.node) == some name) = true)
    (fragment : ∀ name found, lookUps.fragment? name = some found ↔
      (∃ definition ∈ definitions, definition.fragment? = some found) ∧
        (found.node.name.node == name) = true)
    (type : ∀ name found, lookUps.type? name = some found ↔
      (∃ definition ∈ definitions, definition.type? = some found) ∧
        (found.name == name) = true) :
    lookUps.Exact definitions := by
  have operations (found : Located Operation) :
      (∃ definition ∈ definitions, definition.operation? = some found) ↔
        .operation found ∈ definitions := by
    refine ⟨fun ⟨definition, among, viewed⟩ => ?_, fun among => ⟨_, among, rfl⟩⟩
    cases definition <;> cases viewed
    exact among
  have fragments (found : Located Fragment) :
      (∃ definition ∈ definitions, definition.fragment? = some found) ↔
        .fragment found ∈ definitions := by
    refine ⟨fun ⟨definition, among, viewed⟩ => ?_, fun among => ⟨_, among, rfl⟩⟩
    cases definition <;> cases viewed
    exact among
  have types (found : TypeDefinition) :
      (∃ definition ∈ definitions, definition.type? = some found) ↔
        ∃ span, .type ⟨found, span⟩ ∈ definitions := by
    refine ⟨fun ⟨definition, among, viewed⟩ => ?_, fun ⟨span, among⟩ => ⟨_, among, rfl⟩⟩
    cases definition <;> cases viewed
    exact ⟨_, among⟩
  have typed (name : String) (found : TypeDefinition) : lookUps.type? name = some found ↔
      (∃ span, .type ⟨found, span⟩ ∈ definitions) ∧ found.name = name := by
    rw [type, types, beq_iff_eq]
  refine ⟨fun name found => ?_, fun name found => ?_, typed, fun kind name found => ?_⟩
  · rw [operation, operations, beq_iff_eq]
  · rw [fragment, fragments, beq_iff_eq]
  · rw [LookUps.typeOfKind?, Option.filter_eq_some_iff, typed, beq_iff_eq, and_assoc]

/-- Look-ups through an index find what has the name. -/
theorem NameIndex.Files.index_exact (files : index.Files definitions) :
    (index.lookUps definitions).Exact definitions :=
  LookUps.exact_of_held (fun _ _ => files.through_index operations_held)
    (fun _ _ => files.through_index fragments_held) fun _ _ => files.through_index types_held

/-- And so do look-ups in the document itself. -/
theorem NameIndex.Files.document_exact (files : index.Files definitions) (span : Span) :
    (Document.lookUps ⟨definitions, span⟩).Exact definitions :=
  LookUps.exact_of_held (fun _ _ => files.by_search operations_held)
    (fun _ _ => files.by_search fragments_held) fun _ _ => files.by_search types_held

end Exact

section Refusals

variable {definitions others : List Definition}

/-- An index of definitions that are not refused holds their positions. -/
theorem NameIndex.of_definitions_files {index : NameIndex}
    (filled : NameIndex.ofDefinitions definitions = .ok index) : index.Files definitions :=
  NameIndex.Files.fill (NameIndex.files_nothing) filled

/-- What is indexed makes up a document. -/
theorem NameIndex.of_definitions_accepted {index : NameIndex}
    (filled : NameIndex.ofDefinitions definitions = .ok index) (span : Span) :
    Document.ofDefinitions definitions span = .ok ⟨definitions, span⟩ := by
  cases read : Document.ofDefinitions definitions span with
  | error error =>
      rw [NameIndex.refused_iff.mpr read] at filled
      cases filled
  | ok document =>
      rw [Document.ofDefinitions] at read
      split at read
      · cases read
      · rw [Except.ok.inj read]

theorem NameIndex.of_accepted {span : Span} {document : Document}
    (read : Document.ofDefinitions definitions span = .ok document) :
    ∃ index, NameIndex.ofDefinitions definitions = .ok index := by
  cases filled : NameIndex.ofDefinitions definitions with
  | error error =>
      rw [NameIndex.refused_iff.mp filled] at read
      cases read
  | ok index => exact ⟨index, rfl⟩

theorem name_at_position {key : NameKind × String} (among : key ∈ definitionKeys definitions) :
    ∃ position < definitions.length, definitions[position]?.bind Definition.key? = some key := by
  obtain ⟨definition, there, named⟩ := List.mem_filterMap.mp among
  obtain ⟨position, bound, here⟩ := List.mem_iff_getElem.mp there
  exact ⟨position, bound, by rw [List.getElem?_eq_getElem bound, here, Option.bind_some, named]⟩

/-- Some definition is refused exactly if two of them have the same name in the same name space. -/
theorem first_taken_iff_repeats :
    (∃ error, FirstTaken definitions error) ↔ RepeatsKey definitions := by
  constructor
  · rintro ⟨_, front, again, rest, kind, name, rfl, declared, taken, -, -⟩
    obtain ⟨position, bound, named⟩ := name_at_position taken
    refine ⟨position, front.length, (kind, name.node), bound, ?_, ?_⟩
    · rw [List.getElem?_append_left bound, named]
    · rw [List.getElem?_append_right (Nat.le_refl _), Nat.sub_self, List.getElem?_cons_zero,
        Option.bind_some, key_of_declared declared]
  · rintro ⟨first, second, key, before, named, named'⟩
    cases filled : NameIndex.ofDefinitions definitions with
    | error error =>
        have refused : Document.ofDefinitions definitions .unplaced = .error error :=
          NameIndex.refused_iff.mp filled
        exact ⟨error, refused_iff_first_taken.mp refused⟩
    | ok index =>
        have files := NameIndex.of_definitions_files filled
        have found := (files _ _).mpr named
        rw [(files _ _).mpr named'] at found
        cases found
        exact absurd before (Nat.lt_irrefl _)

/-- The definitions that have names. -/
def namedDefinitions (definitions : List Definition) : List Definition :=
  definitions.filter fun definition => definition.key?.isSome

theorem named_definitions_declared (definitions : List Definition) :
    (namedDefinitions definitions).filterMap Definition.declared? =
      definitions.filterMap Definition.declared? := by
  rw [namedDefinitions, List.filterMap_filter]
  congr 1
  funext definition
  rw [Definition.key?, Option.isSome_map]
  cases definition.declared? <;> rfl

/-- Definitions that differ in unnamed ones only are refused alike. -/
theorem refused_alike (same : namedDefinitions others = namedDefinitions definitions) {span : Span}
    {error : Located ParseError} :
    Document.ofDefinitions others span = .error error ↔
      Document.ofDefinitions definitions span = .error error := by
  have declared : others.filterMap Definition.declared? =
      definitions.filterMap Definition.declared? := by
    rw [← named_definitions_declared, same, named_definitions_declared]
  rw [Document.ofDefinitions, Document.ofDefinitions, declared]
  cases Document.firstRedeclared? [] (definitions.filterMap Definition.declared?) <;> simp

theorem accepted_alike (same : namedDefinitions others = namedDefinitions definitions) {span : Span}
    {document : Document} (read : Document.ofDefinitions definitions span = .ok document) :
    ∃ document, Document.ofDefinitions others span = .ok document := by
  cases other : Document.ofDefinitions others span with
  | error error =>
      rw [(refused_alike same).mp other] at read
      cases read
  | ok document => exact ⟨document, rfl⟩

theorem mem_iff_of_named (same : namedDefinitions others = namedDefinitions definitions)
    {definition : Definition} {key : NameKind × String} (named : definition.key? = some key) :
    definition ∈ others ↔ definition ∈ definitions := by
  have held (list : List Definition) : definition ∈ list ↔ definition ∈ namedDefinitions list := by
    simp [namedDefinitions, named]
  rw [held others, same, ← held]

/-- What is exact stays exact whatever unnamed definitions come and go. -/
theorem LookUps.Exact.of_named {lookUps : LookUps} (exact : lookUps.Exact definitions)
    (same : namedDefinitions others = namedDefinitions definitions) : lookUps.Exact others := by
  have types (found : TypeDefinition) :
      (∃ span, .type ⟨found, span⟩ ∈ others) ↔ ∃ span, .type ⟨found, span⟩ ∈ definitions :=
    exists_congr fun _ => mem_iff_of_named same (key_of_declared rfl)
  refine ⟨fun name found => ?_, fun name found => ?_, fun name found => ?_,
    fun kind name found => ?_⟩
  · rw [exact.operation]
    refine and_congr_left fun named => ?_
    have key : (Definition.operation found).key? = some (.operation, name) :=
      (operations_held _ name).mpr ⟨found, rfl, beq_iff_eq.mpr named⟩
    exact (mem_iff_of_named same key).symm
  · rw [exact.fragment, mem_iff_of_named same (key_of_declared rfl)]
  · rw [exact.type, types]
  · rw [exact.kind, types]

end Refusals

section Schemas

variable {change : ObjectType → ObjectType} (keeps : ∀ object, (change object).name = object.name)

include keeps

/-- Changing object types without renaming them leaves all names as they are. -/
theorem map_object_declared (definition : Definition) :
    (definition.mapObject change).declared? = definition.declared? := by
  cases definition with
  | type located =>
      obtain ⟨type, span⟩ := located
      cases type with
      | object object => exact congrArg (fun name => some (NameKind.type, name)) (keeps object)
      | _ => rfl
  | _ => rfl

/-- So an index is filled as before. -/
theorem NameIndex.fill_map_objects (definitions : List Definition) (index : NameIndex)
    (position : Nat) :
    index.fill position (definitions.map (Definition.mapObject change)) =
      index.fill position definitions := by
  induction definitions generalizing index position with
  | nil => rfl
  | cons definition rest ih =>
      rw [List.map_cons, NameIndex.fill, NameIndex.fill, map_object_declared keeps]
      simp only [ih]

end Schemas

/-- The index that was filled from a document as it was read serves the document of its schema too. -/
theorem Schema.index_kept {source queryName : String} {mutationName : Option String}
    {schema : Schema} (accepted : Schema.ofSource source queryName mutationName = .ok schema) :
    ∃ document index, Document.ofText (Schema.fullText source.toList) = .ok document ∧
      document.mergeExtensions document.extensions = .ok document.merged ∧
      ∀ stage ∈ [document, document.merged, schema.document],
        NameIndex.ofDefinitions stage.definitions = .ok index := by
  obtain ⟨document, read, accepted⟩ := Schema.of_source_ok_iff.mp accepted
  obtain ⟨indexed, -, fit, rfl⟩ := Document.accepted_iff.mp accepted
  have merging := Document.merge_extensions_distinct
    (Document.of_definitions_distinct_types indexed) fit.bases fit.fields
  obtain ⟨index, filled⟩ := NameIndex.of_accepted indexed
  have merged : NameIndex.ofDefinitions document.merged.definitions = .ok index :=
    (NameIndex.fill_map_objects (ObjectType.written_out_name · _) document.definitions [] 0).trans
      filled
  have completed : NameIndex.ofDefinitions
      (document.schema queryName mutationName).document.definitions = .ok index := by
    refine (NameIndex.fill_map_objects (fun object => ?_) document.merged.definitions [] 0).trans
      merged
    split <;> rfl
  refine ⟨document, index, read, merging, ?_⟩
  simp only [List.forall_mem_cons]
  exact ⟨filled, merged, completed, List.forall_mem_nil _⟩

/-- Of the kind-specific look-ups the document itself has the one for objects. -/
theorem Document.object_iff_kind (document : Document) (name : String) (object : ObjectType) :
    document.object? name = some object ↔
      document.lookUps.typeOfKind? .object name = some (.object object) := by
  rw [Document.object_typed_iff, LookUps.typeOfKind?, Option.filter_eq_some_iff]
  simp [Document.lookUps, TypeDefinition.kind]

/--
Definitions make up a document unless two of them have the same name in the same name space; the
error then names the first one whose name is taken, where it stands. Otherwise look-ups are exact,
through the index and in the document itself, and definitions without a name make no difference to
them. In an accepted schema this holds of the document as it was read, with its extensions merged,
and with the fields of introspection, all with the index that was filled first.
-/
theorem names_lead_to_definitions :
    (∀ (definitions : List Definition) (span : Span),
      (∀ error, Document.ofDefinitions definitions span = .error error ↔
        FirstTaken definitions error) ∧
      ((∃ error, Document.ofDefinitions definitions span = .error error) ↔
        RepeatsKey definitions) ∧
      (∀ error, NameIndex.ofDefinitions definitions = .error error ↔
        Document.ofDefinitions definitions span = .error error) ∧
      (∀ index, NameIndex.ofDefinitions definitions = .ok index →
        Document.ofDefinitions definitions span = .ok ⟨definitions, span⟩ ∧
        (index.lookUps definitions).Exact definitions ∧
        index.lookUps definitions = Document.lookUps ⟨definitions, span⟩) ∧
      ∀ others, namedDefinitions others = namedDefinitions definitions →
        (∀ error, Document.ofDefinitions others span = .error error ↔
          Document.ofDefinitions definitions span = .error error) ∧
        ∀ document, Document.ofDefinitions definitions span = .ok document →
          Document.lookUps ⟨others, span⟩ = document.lookUps) ∧
    (∀ (document : Document) (name : String) (object : ObjectType),
      document.object? name = some object ↔
        document.lookUps.typeOfKind? .object name = some (.object object)) ∧
    ∀ source queryName mutationName schema,
      Schema.ofSource source queryName mutationName = .ok schema →
        ∃ document index, Document.ofText (Schema.fullText source.toList) = .ok document ∧
          document.mergeExtensions document.extensions = .ok document.merged ∧
          ∀ stage ∈ [document, document.merged, schema.document],
            NameIndex.ofDefinitions stage.definitions = .ok index ∧
            (index.lookUps stage.definitions).Exact stage.definitions ∧
            index.lookUps stage.definitions = stage.lookUps := by
  refine ⟨fun definitions span => ⟨fun error => refused_iff_first_taken, ?_,
    fun error => NameIndex.refused_iff, fun index filled => ?_, fun others same => ?_⟩,
    Document.object_iff_kind, fun source queryName mutationName schema accepted => ?_⟩
  · rw [← first_taken_iff_repeats]
    exact exists_congr fun _ => refused_iff_first_taken
  · have files := NameIndex.of_definitions_files filled
    exact ⟨NameIndex.of_definitions_accepted filled span, files.index_exact,
      files.index_exact.unique (files.document_exact span)⟩
  · refine ⟨fun error => refused_alike same, fun document read => ?_⟩
    obtain ⟨index, filled⟩ := NameIndex.of_accepted read
    obtain rfl : ⟨definitions, span⟩ = document :=
      Except.ok.inj ((NameIndex.of_definitions_accepted filled span).symm.trans read)
    have exact := (NameIndex.of_definitions_files filled).document_exact span
    obtain ⟨_, read'⟩ := accepted_alike same read
    obtain ⟨_, filled'⟩ := NameIndex.of_accepted read'
    exact ((NameIndex.of_definitions_files filled').document_exact span).unique
      (exact.of_named same)
  · obtain ⟨document, index, read, merging, kept⟩ := Schema.index_kept accepted
    refine ⟨document, index, read, merging, fun stage among => ?_⟩
    have files := NameIndex.of_definitions_files (kept stage among)
    exact ⟨kept stage among, files.index_exact, files.index_exact.unique (files.document_exact _)⟩

/-- A fragment and two types, all of one name, the last of them behind a request without a name. -/
def petsTwice : List Definition :=
  [.fragment (.unplaced ⟨.unplaced "Pet", .unplaced "Dog", none, []⟩),
    .type (.unplaced (.scalar ⟨.unplaced "Pet", none⟩)),
    .operation (.unplaced ⟨.query, none, none, none, []⟩),
    .type (.unplaced (.union ⟨⟨"Pet", ⟨⟨9, 1, 10⟩, ⟨12, 1, 13⟩⟩⟩, none, []⟩))]

/-- The second type is refused, and of the accepted types each is found where it stood at first. -/
theorem pets_refused_or_found :
    Document.ofDefinitions petsTwice .unplaced =
        .error ⟨.duplicate .type "Pet", ⟨⟨9, 1, 10⟩, ⟨12, 1, 13⟩⟩⟩ ∧
      ∃ schema document index, Schema.ofSource petSource "Dog" (some "Cat") = .ok schema ∧
        Document.ofText (Schema.fullText petSource.toList) = .ok document ∧
        NameIndex.ofDefinitions document.definitions = .ok index ∧
        (index.lookUps schema.document.definitions).Exact schema.document.definitions ∧
        index.lookUps schema.document.definitions = schema.document.lookUps := by
  obtain ⟨any, -, ofSource⟩ := names_lead_to_definitions
  obtain ⟨refused, -⟩ := any petsTwice .unplaced
  obtain ⟨schema, _, built, -⟩ := Schema.found_in_source pet_source_read
  obtain ⟨document, index, read, -, stages⟩ := ofSource _ _ _ schema built
  obtain ⟨filled, -, -⟩ := stages document List.mem_cons_self
  obtain ⟨-, exact, same⟩ := stages schema.document (by simp)
  refine ⟨(refused _).mpr ⟨petsTwice.take 3, _, [], .type, _, rfl, rfl, ?_, ?_, rfl⟩,
    schema, document, index, built, read, filled, exact, same⟩
  · decide
  · decide

end GraphQL
