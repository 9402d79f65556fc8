import GraphQL.Execution.Response
import GraphQL.Proofs.RequestTree
import GraphQL.Proofs.Thinning

/-!
Selections that are rewritten by a rule.

A rule says which runs of selections may be put in the place of others. It may be used at any depth,
in operations and in fragments, as often as one likes. If the fields that it brings together have
the same response keys in the same order as before, each key with the same first field, and
rewritten selections below, then responses are not changed by it. Spreads of fragments that are
excluded as a whole may come and go, since nothing is met in these.
-/

namespace GraphQL

/-- A field with other selections below it. -/
def Field.selecting (selections : List Selection) (field : Field) : Field :=
  { field with selections := some selections }

/-- Selections in which runs are rewritten by a rule, at any depth. -/
inductive Rewritten (rule : List Selection → List Selection → Prop) :
    List Selection → List Selection → Prop where
  | nil : Rewritten rule [] []
  | keep {selection rest others} (more : Rewritten rule rest others) :
      Rewritten rule (selection :: rest) (selection :: others)
  | under {field inner changed rest others} (has : field.node.selections = some inner)
      (inside : Rewritten rule inner changed) (more : Rewritten rule rest others) :
      Rewritten rule (.field field :: rest) (.field (field.map (Field.selecting changed)) :: others)
  | inline {condition directives inner changed span rest others}
      (inside : Rewritten rule inner changed) (more : Rewritten rule rest others) :
      Rewritten rule (.inline ⟨⟨condition, directives, inner⟩, span⟩ :: rest)
        (.inline ⟨⟨condition, directives, changed⟩, span⟩ :: others)
  | run {before after rest others} (step : rule before after)
      (more : Rewritten rule rest others) : Rewritten rule (before ++ rest) (after ++ others)

/-- A definition whose selections are rewritten. -/
inductive Definition.Rewritten (rule : List Selection → List Selection → Prop) :
    Definition → Definition → Prop where
  | same (definition : Definition) : Rewritten rule definition definition
  | operation {operation selections}
      (rewritten : GraphQL.Rewritten rule operation.node.selections selections) :
      Rewritten rule (.operation operation)
        (.operation (operation.map (Operation.selecting selections)))
  | fragment {fragment : Located Fragment} {selections}
      (rewritten : GraphQL.Rewritten rule fragment.node.selections selections) :
      Rewritten rule (.fragment fragment)
        (.fragment (fragment.map fun plain => { plain with selections := selections }))

/-- A document whose operations and fragments are rewritten, each where it stands. -/
def Document.Rewritten (rule : List Selection → List Selection → Prop)
    (document other : Document) : Prop :=
  List.Forall₂ (Definition.Rewritten rule) document.definitions other.definitions

/-- All that is selected below some fields. -/
def selectedBelow (fields : List (Located Field)) : List Selection :=
  fields.flatMap fun field => field.node.selections.getD []

/-- The fields of a response key. -/
def fieldsOf (key : String) (fields : List (Located Field)) : List (Located Field) :=
  fields.filter fun field => field.node.responseKey = key

/-- Fields that form groups of the same keys and first fields, with related selections below. -/
structure Regroups (related : List Selection → List Selection → Prop)
    (fields others : List (Located Field)) : Prop where
  keys : ∀ names, appendNew names (fields.map (·.node.responseKey)) =
    appendNew names (others.map (·.node.responseKey))
  first : ∀ key, (fieldsOf key fields).head?.map (Located.map Field.bare) =
    (fieldsOf key others).head?.map (Located.map Field.bare)
  below : ∀ key, related (selectedBelow (fieldsOf key fields)) (selectedBelow (fieldsOf key others))

/--
Mentions of the same fragments, with runs of related fields between them. Idle fragments may be left
out.
-/
inductive MentionsAlike (idle : String → Prop)
    (related : List (Located Field) → List (Located Field) → Prop) :
    List Mention → List Mention → Prop where
  | nil : MentionsAlike idle related [] []
  | fields {some others rest more} (run : related some others)
      (following : MentionsAlike idle related rest more) :
      MentionsAlike idle related (some.map .field ++ rest) (others.map .field ++ more)
  | fragment {name rest more} (following : MentionsAlike idle related rest more) :
      MentionsAlike idle related (.fragment name :: rest) (.fragment name :: more)
  | idle {name rest more} (nothing : idle name)
      (following : MentionsAlike idle related rest more) :
      MentionsAlike idle related (.fragment name :: rest) more

section Relations

variable {rule : List Selection → List Selection → Prop}

theorem Rewritten.refl (selections : List Selection) : Rewritten rule selections selections := by
  induction selections with
  | nil => exact .nil
  | cons selection rest ih => exact .keep ih

theorem Rewritten.append {first others second more : List Selection}
    (front : Rewritten rule first others) (behind : Rewritten rule second more) :
    Rewritten rule (first ++ second) (others ++ more) := by
  induction front with
  | nil => exact behind
  | keep _ ih => exact .keep ih
  | under has inside _ _ ih => exact .under has inside ih
  | inline inside _ _ ih => exact .inline inside ih
  | run step _ ih =>
      rw [List.append_assoc, List.append_assoc]
      exact .run step ih

variable {related : List Selection → List Selection → Prop}

theorem selected_below_append (fields others : List (Located Field)) :
    selectedBelow (fields ++ others) = selectedBelow fields ++ selectedBelow others :=
  List.flatMap_append

theorem fields_of_append (key : String) (fields others : List (Located Field)) :
    fieldsOf key (fields ++ others) = fieldsOf key fields ++ fieldsOf key others :=
  List.filter_append ..

theorem fields_of_single (key : String) (field : Located Field) :
    fieldsOf key [field] = if field.node.responseKey = key then [field] else [] := by
  by_cases same : field.node.responseKey = key <;> simp [fieldsOf, same]

theorem Regroups.append
    (joins : ∀ {a b c d}, related a b → related c d → related (a ++ c) (b ++ d))
    {first others second more : List (Located Field)} (front : Regroups related first others)
    (behind : Regroups related second more) :
    Regroups related (first ++ second) (others ++ more) where
  keys names := by
    rw [List.map_append, List.map_append, append_new_append, append_new_append, front.keys,
      behind.keys]
  first key := by
    rw [fields_of_append, fields_of_append, List.head?_append, List.head?_append, Option.map_or,
      Option.map_or, front.first, behind.first]
  below key := by
    rw [fields_of_append, fields_of_append, selected_below_append, selected_below_append]
    exact joins (front.below key) (behind.below key)

/-- One field, with related selections below it. -/
theorem Regroups.single {field other : Located Field}
    (same : field.map Field.bare = other.map Field.bare) (nothing : related [] [])
    (below : related (field.node.selections.getD []) (other.node.selections.getD [])) :
    Regroups related [field] [other] := by
  have keys : field.node.responseKey = other.node.responseKey :=
    congrArg (fun plain => plain.node.responseKey) same
  refine ⟨fun names => ?_, fun key => ?_, fun key => ?_⟩
  · rw [List.map_singleton, List.map_singleton, keys]
  all_goals
    rw [fields_of_single, fields_of_single, keys]
    split
  · exact congrArg some same
  · rfl
  · simpa [selectedBelow] using below
  · exact nothing

variable {idle : String → Prop} {relatedFields : List (Located Field) → List (Located Field) → Prop}

theorem MentionsAlike.append {first others second more : List Mention}
    (front : MentionsAlike idle relatedFields first others)
    (behind : MentionsAlike idle relatedFields second more) :
    MentionsAlike idle relatedFields (first ++ second) (others ++ more) := by
  induction front with
  | nil => exact behind
  | fields run _ ih =>
      rw [List.append_assoc, List.append_assoc]
      exact .fields run ih
  | fragment _ ih => exact .fragment ih
  | idle nothing _ ih => exact .idle nothing ih

theorem MentionsAlike.run {fields others : List (Located Field)}
    (run : relatedFields fields others) :
    MentionsAlike idle relatedFields (fields.map .field) (others.map .field) := by
  simpa using MentionsAlike.fields run .nil

/-- Mentions are alike themselves, where every field is. -/
theorem MentionsAlike.refl (own : ∀ field, relatedFields [field] [field]) (list : List Mention) :
    MentionsAlike idle relatedFields list list := by
  induction list with
  | nil => exact .nil
  | cons mention rest ih =>
      cases mention with
      | field field => exact .fields (own field) ih
      | fragment name => exact .fragment ih

end Relations

section Walking

variable {idle : String → Prop} {related : List (Located Field) → List (Located Field) → Prop}

/-- Two walks that opened the same fragments, idle ones aside, and met related fields. -/
structure Gathered.Alike (idle : String → Prop)
    (related : List (Located Field) → List (Located Field) → Prop) (left right : Gathered) :
    Prop where
  visited : ∀ name, ¬idle name → (name ∈ left.visited ↔ name ∈ right.visited)
  fields : related left.fields right.fields

namespace Gathered.Alike

variable {left right : Gathered}

theorem symm (alike : left.Alike idle related right) :
    right.Alike idle (fun others fields => related fields others) left where
  visited name busy := (alike.visited name busy).symm
  fields := alike.fields

theorem marked (alike : left.Alike idle related right) (name : String) :
    Gathered.Alike idle related ⟨name :: left.visited, left.fields⟩
      ⟨name :: right.visited, right.fields⟩ where
  visited other busy := by rw [List.mem_cons, List.mem_cons, alike.visited other busy]
  fields := alike.fields

/-- Going into an idle fragment makes no difference. -/
theorem met_idle (alike : left.Alike idle related right) {expand : String → Gathered → Gathered}
    {name : String} (nothing : idle name) (still : ∀ gathered, expand name gathered = gathered) :
    (meet expand left (.fragment name)).Alike idle related right := by
  rw [meet]
  split
  · exact alike
  · rw [still]
    refine ⟨fun other busy => ?_, alike.fields⟩
    have apart : other ≠ name := fun same => busy (same ▸ nothing)
    rw [List.mem_cons, or_iff_right apart, alike.visited other busy]

end Gathered.Alike

theorem walk_with_alike
    (joins : ∀ {a b c d}, related a b → related c d → related (a ++ c) (b ++ d))
    {expand other : String → Gathered → Gathered}
    (still : ∀ name, idle name → ∀ gathered,
      expand name gathered = gathered ∧ other name gathered = gathered)
    (enters : ∀ name {left right : Gathered}, left.Alike idle related right →
      (expand name left).Alike idle related (other name right))
    {list copies : List Mention} (alike : MentionsAlike idle related list copies)
    {left right : Gathered} (started : left.Alike idle related right) :
    (walkWith expand list left).Alike idle related (walkWith other copies right) := by
  induction alike generalizing left right with
  | nil => exact started
  | fields run _ ih =>
      rw [walk_with_append, walk_with_append, walk_with_fields, walk_with_fields]
      exact ih ⟨started.visited, joins started.fields run⟩
  | @fragment name _ _ _ ih =>
      apply ih
      by_cases nothing : idle name
      · have first := started.met_idle nothing fun gathered => (still name nothing gathered).1
        exact (first.symm.met_idle nothing fun gathered => (still name nothing gathered).2).symm
      · rw [meet, meet]
        by_cases opened : name ∈ left.visited
        · rw [if_pos opened, if_pos ((started.visited name nothing).mp opened)]
          exact started
        · rw [if_neg opened, if_neg fun there => opened ((started.visited name nothing).mpr there)]
          exact enters name (started.marked name)
  | @idle name _ _ nothing _ ih =>
      exact ih (started.met_idle nothing fun gathered => (still name nothing gathered).1)

/-- Walks along alike mentions stay alike, if all fragments have alike contents. -/
theorem walk_alike
    (joins : ∀ {a b c d}, related a b → related c d → related (a ++ c) (b ++ d))
    {content other : String → List Mention}
    (nothing : ∀ name, idle name → content name = [] ∧ other name = [])
    (contents : ∀ name, MentionsAlike idle related (content name) (other name)) (depth : Nat)
    {list copies : List Mention} (alike : MentionsAlike idle related list copies)
    {left right : Gathered} (started : left.Alike idle related right) :
    (walk content depth list left).Alike idle related (walk other depth copies right) := by
  have still (depth : Nat) (name : String) (shut : idle name) (gathered : Gathered) :
      enterWithin content depth name gathered = gathered ∧
        enterWithin other depth name gathered = gathered :=
    ⟨enter_nothing content depth (nothing name shut).1 gathered,
      enter_nothing other depth (nothing name shut).2 gathered⟩
  induction depth generalizing list copies left right with
  | zero => exact walk_with_alike joins (still 0) (fun _ {_ _} within => within) alike started
  | succ depth ih =>
      exact walk_with_alike joins (still (depth + 1))
        (fun name {_ _} within => ih (contents name) within) alike started

end Walking

section Grouping

variable {related : List Selection → List Selection → Prop}

theorem selection_sets_flatten (group : FieldGroup) :
    group.selectionSets.flatten = selectedBelow group.fields := by
  rw [FieldGroup.selectionSets, selectedBelow]
  induction group.fields with
  | nil => rfl
  | cons field rest ih =>
      cases has : field.node.selections with
      | none => simp [has, ih]
      | some inner => simp [has, ih]

/-- Fields that regroup form groups that are executed alike. -/
theorem Regroups.groups {fields others : List (Located Field)}
    (regroups : Regroups related fields others) :
    List.Forall₂ (FieldGroup.Alike fun sets copies => related sets.flatten copies.flatten)
      (grouped fields) (grouped others) := by
  apply groups_by_key
  · rw [grouped_keys, grouped_keys, regroups.keys]
  · intro group member copy inside same
    have here : group.fields = fieldsOf group.key fields := grouped_fields member
    have there : copy.fields = fieldsOf group.key others := by
      rw [same]
      exact grouped_fields inside
    have heads := regroups.first group.key
    rw [← here, ← there] at heads
    refine ⟨same, Option.some.inj heads, ?_⟩
    rw [selection_sets_flatten, selection_sets_flatten, here, there]
    exact regroups.below group.key

end Grouping

section Documents

variable {rule : List Selection → List Selection → Prop} {document other : Document}
  {schema : Schema} {values : Object}

/-- A fragment is excluded by directives of its own, wherever it is spread. -/
def RequestScope.Shuts (scope : RequestScope) (name : String) : Prop :=
  ∃ fragment, scope.document.fragment? name = some fragment ∧
    scope.includes fragment.node.directives = false

/-- What a rule brings together mentions alike what stood there before, on an object type. -/
def KeepsMentions (rule : List Selection → List Selection → Prop) (schema : Schema)
    (scope : RequestScope) (objectName : String) : Prop :=
  ∀ before after, rule before after →
    MentionsAlike scope.Shuts (Regroups (Rewritten rule)) (mentions schema scope objectName before)
      (mentions schema scope objectName after)

theorem own_field_regroups (field : Located Field) : Regroups (Rewritten rule) [field] [field] :=
  .single rfl .nil (.refl _)

/-- Nothing is mentioned in a fragment that is excluded. -/
theorem RequestScope.Shuts.nothing {scope : RequestScope} {name : String}
    (shut : scope.Shuts name) (objectName : String) :
    fragmentMentions schema scope objectName name = [] := by
  obtain ⟨fragment, found, excluded⟩ := shut
  rw [fragmentMentions, found]
  simp [excluded]

/-- Rewritten selections mention alike what they did before. -/
theorem Rewritten.mentions {scope : RequestScope} {objectName : String}
    (keeps : KeepsMentions rule schema scope objectName) {selections others : List Selection}
    (rewritten : Rewritten rule selections others) :
    MentionsAlike scope.Shuts (Regroups (Rewritten rule))
      (mentions schema scope objectName selections) (mentions schema scope objectName others) := by
  induction rewritten with
  | nil => exact .refl own_field_regroups _
  | keep _ ih =>
      rw [GraphQL.mentions, GraphQL.mentions]
      exact (MentionsAlike.refl own_field_regroups _).append ih
  | @under field inner changed _ _ has inside _ _ ih =>
      rw [GraphQL.mentions, GraphQL.mentions, mentionsOne, mentionsOne]
      refine .append ?_ ih
      have same : (field.map (Field.selecting changed)).node.directives = field.node.directives :=
        rfl
      rw [same]
      split
      · have changed_below : Regroups (Rewritten rule) [field]
            [field.map (Field.selecting changed)] := by
          refine .single rfl .nil ?_
          rw [has]
          exact inside
        exact .run changed_below
      · exact .nil
  | inline _ _ within ih =>
      rw [GraphQL.mentions, GraphQL.mentions, mentionsOne, mentionsOne]
      refine .append ?_ ih
      split
      · exact within
      · exact .nil
  | run step _ ih =>
      rw [mentions_append, mentions_append]
      exact (keeps _ _ step).append ih

mutual

/-- What is mentioned does not depend on what fragments a document has. -/
theorem mentions_elsewhere (document other : Document) (objectName : String) :
    ∀ selections, mentions schema ⟨document, values⟩ objectName selections =
      mentions schema ⟨other, values⟩ objectName selections
  | [] => by rw [mentions, mentions]
  | selection :: rest => by
      rw [mentions, mentions, mentions_one_elsewhere document other objectName selection,
        mentions_elsewhere document other objectName rest]

theorem mentions_one_elsewhere (document other : Document) (objectName : String) :
    ∀ selection, mentionsOne schema ⟨document, values⟩ objectName selection =
      mentionsOne schema ⟨other, values⟩ objectName selection
  | .field field => by
      rw [mentionsOne, mentionsOne]
      rfl
  | .spread spread => by
      rw [mentionsOne, mentionsOne]
      rfl
  | .inline ⟨⟨condition, directives, selections⟩, _⟩ => by
      rw [mentionsOne, mentionsOne, mentions_elsewhere document other objectName selections]
      rfl

end

/-- Related lists, searched alike, have related first matches. -/
theorem find_related {α β : Type} {related : α → β → Prop} {p : α → Bool} {q : β → Bool}
    (alike : ∀ x y, related x y → p x = q y) {list : List α} {copies : List β}
    (each : List.Forall₂ related list copies) :
    Option.Rel related (list.find? p) (copies.find? q) := by
  induction each with
  | nil => exact .none
  | @cons x y _ _ first _ ih =>
      rw [List.find?_cons, List.find?_cons, alike x y first]
      cases q y with
      | true => exact .some first
      | false => exact ih

/-- An operation and the same with its selections rewritten. -/
inductive Operation.Rewritten (rule : List Selection → List Selection → Prop) :
    Located Operation → Located Operation → Prop where
  | intro {operation selections}
      (rewritten : GraphQL.Rewritten rule operation.node.selections selections) :
      Rewritten rule operation (operation.map (Operation.selecting selections))

namespace Document

theorem Rewritten.fragments (rewritten : document.Rewritten rule other) :
    List.Forall₂ (fun fragment copy => Definition.Rewritten rule (.fragment fragment)
      (.fragment copy)) document.fragments other.fragments := by
  rw [Document.Rewritten] at rewritten
  rw [Document.fragments, Document.fragments]
  generalize document.definitions = definitions, other.definitions = copies at rewritten
  induction rewritten with
  | nil => exact .nil
  | @cons definition _ _ _ first _ ih =>
      cases first with
      | same =>
          cases definition with
          | fragment fragment => exact .cons (.same _) ih
          | operation | type | extension => exact ih
      | operation => exact ih
      | fragment changed => exact .cons (.fragment changed) ih

theorem Rewritten.operations (rewritten : document.Rewritten rule other) :
    List.Forall₂ (Operation.Rewritten rule) document.operations other.operations := by
  rw [Document.Rewritten] at rewritten
  rw [Document.operations, Document.operations]
  generalize document.definitions = definitions, other.definitions = copies at rewritten
  induction rewritten with
  | nil => exact .nil
  | @cons definition _ _ _ first _ ih =>
      cases first with
      | same =>
          cases definition with
          | operation operation => exact .cons (.intro (.refl _)) ih
          | fragment | type | extension => exact ih
      | operation changed => exact .cons (.intro changed) ih
      | fragment => exact ih

theorem Rewritten.fragment_found (rewritten : document.Rewritten rule other) (name : String) :
    Option.Rel (fun fragment copy => Definition.Rewritten rule (.fragment fragment)
      (.fragment copy)) (document.fragment? name) (other.fragment? name) := by
  refine find_related (fun fragment copy related => ?_) rewritten.fragments
  cases related <;> rfl

/-- A fragment that is excluded stays so. -/
theorem Rewritten.shut (rewritten : document.Rewritten rule other) {name : String}
    (shut : (RequestScope.mk document values).Shuts name) :
    (RequestScope.mk other values).Shuts name := by
  obtain ⟨fragment, found, excluded⟩ := shut
  have related := rewritten.fragment_found name
  have here : document.fragment? name = some fragment := found
  rw [here] at related
  generalize known : other.fragment? name = there at related
  cases related with
  | @some _ copy same =>
      refine ⟨copy, known, ?_⟩
      cases same with
      | same => exact excluded
      | fragment _ => exact excluded

/-- Named fragments mention alike what they did before. -/
theorem Rewritten.fragment_mentions (rewritten : document.Rewritten rule other)
    {objectName : String} (keeps : KeepsMentions rule schema ⟨document, values⟩ objectName)
    (name : String) :
    MentionsAlike (RequestScope.mk document values).Shuts (Regroups (GraphQL.Rewritten rule))
      (fragmentMentions schema ⟨document, values⟩ objectName name)
      (fragmentMentions schema ⟨other, values⟩ objectName name) := by
  have found := rewritten.fragment_found name
  rw [fragmentMentions, fragmentMentions]
  generalize document.fragment? name = here, other.fragment? name = there at found
  cases found with
  | none => exact .nil
  | @some fragment copy related =>
      cases related with
      | same =>
          dsimp only
          rw [includes_same other document, mentions_elsewhere other document]
          exact .refl own_field_regroups _
      | fragment changed =>
          rename_i selections
          change MentionsAlike _ _
            (if (RequestScope.mk document values).includes fragment.node.directives &&
                schema.applies objectName fragment.node.typeCondition.node then
              mentions schema ⟨document, values⟩ objectName fragment.node.selections else [])
            (if (RequestScope.mk document values).includes fragment.node.directives &&
                schema.applies objectName fragment.node.typeCondition.node then
              mentions schema ⟨other, values⟩ objectName selections else [])
          split
          · rw [mentions_elsewhere other document]
            exact changed.mentions keeps
          · exact .nil

/-- A document and the rewritten one ask for groups that are alike. -/
theorem Rewritten.scopes_alike (rewritten : document.Rewritten rule other)
    {reached : ObjectType → Prop} (closed : ∀ object, schema.HasObject object → reached object)
    (keeps : ∀ object, reached object →
      KeepsMentions rule schema ⟨document, values⟩ object.name.node) :
    RequestScope.AlikeOn reached schema
      (fun sets copies => GraphQL.Rewritten rule sets.flatten copies.flatten)
      ⟨document, values⟩ ⟨other, values⟩ where
  variableValues := rfl
  closed := closed
  groups object here sets copies asked := by
    have started : (⟨[], []⟩ : Gathered).Alike (RequestScope.mk document values).Shuts
        (Regroups (GraphQL.Rewritten rule)) ⟨[], []⟩ :=
      ⟨fun _ _ => .rfl, fun _ => rfl, fun _ => rfl, fun _ => .nil⟩
    have mentioned := asked.mentions (keeps object here)
    have met := walk_alike (Regroups.append .append)
      (fun _ shut => ⟨shut.nothing _, (rewritten.shut shut).nothing _⟩)
      (rewritten.fragment_mentions (keeps object here)) document.fragments.length mentioned started
    rw [collect_fields_grouped, collect_fields_grouped, fields_asked_walk, fields_asked_walk,
      gatheredFrom, gatheredFrom, mentions_flatten, mentions_flatten,
      mentions_elsewhere other document, ← rewritten.fragments.length_eq]
    exact met.fields.groups

end Document

end Documents

/-- Requests for two documents pick the same operation, and it is executed alike. -/
def Executor.AnswersAlike {σ : Type} (executor : Executor σ) (document other : Document) : Prop :=
  ∀ name,
    (∃ error, document.selectOperation name = .error error ∧
      other.selectOperation name = .error error) ∨
    ∃ operation copy, document.selectOperation name = .ok operation ∧
      other.selectOperation name = .ok copy ∧ copy.node.kind = operation.node.kind ∧
      ∀ depth root inputs,
        executor.executeOperation (executor.runWithin depth) other copy root inputs =
          executor.executeOperation (executor.runWithin depth) document operation root inputs

theorem Document.Rewritten.select_operation {rule : List Selection → List Selection → Prop}
    {document other : Document} (rewritten : document.Rewritten rule other)
    (name : Option String) :
    (∃ error, document.selectOperation name = .error error ∧
      other.selectOperation name = .error error) ∨
    ∃ operation copy, document.selectOperation name = .ok operation ∧
      other.selectOperation name = .ok copy ∧ Operation.Rewritten rule operation copy := by
  have all := rewritten.operations
  rw [selectOperation, selectOperation]
  cases name.filter (· ≠ "") with
  | none =>
      dsimp only
      generalize document.operations = operations, other.operations = copies at all
      cases all with
      | nil => exact .inl ⟨_, rfl, rfl⟩
      | cons first rest =>
          cases rest with
          | nil => exact .inr ⟨_, _, rfl, rfl, first⟩
          | cons _ _ => exact .inl ⟨_, rfl, rfl⟩
  | some chosen =>
      have found : Option.Rel (Operation.Rewritten rule) (document.operation? chosen)
          (other.operation? chosen) := by
        refine find_related (fun operation copy related => ?_) all
        cases related
        rfl
      dsimp only
      generalize document.operation? chosen = here, other.operation? chosen = there at found
      cases found with
      | none => exact .inl ⟨_, rfl, rfl⟩
      | some related => exact .inr ⟨_, _, rfl, rfl, related⟩

/-- A rewritten operation is executed alike on the root types that a rule is made for. -/
theorem Document.Rewritten.execute_alike {σ : Type} {executor : Executor σ}
    (nearsighted : executor.Nearsighted) {rule : List Selection → List Selection → Prop}
    {document other : Document} (rewritten : document.Rewritten rule other)
    (reached : ObjectType → Prop)
    (closed : ∀ object, executor.schema.HasObject object → reached object)
    (keeps : ∀ values object, reached object →
      KeepsMentions rule executor.schema ⟨document, values⟩ object.name.node)
    {operation copy : Located Operation} (related : Operation.Rewritten rule operation copy)
    (depth : Nat) (root : ObjectType) (here : reached root) (inputs : Object) :
    executor.executeOperation (executor.runWithin depth) other copy root inputs =
      executor.executeOperation (executor.runWithin depth) document operation root inputs := by
  cases related with
  | @intro selections changed =>
      have asked : GraphQL.Rewritten rule [operation.node.selections].flatten
          [selections].flatten := by simpa using changed
      have same := execute_operation_alike_on nearsighted
        (fun values => rewritten.scopes_alike closed (keeps values)) (fun _ => asked) depth root
        here inputs
      exact same.symm

/-- A rule that keeps what is mentioned changes nothing about responses. -/
theorem Document.Rewritten.answers_alike {σ : Type} {executor : Executor σ}
    (nearsighted : executor.Nearsighted) {rule : List Selection → List Selection → Prop}
    {document other : Document} (rewritten : document.Rewritten rule other)
    (keeps : ∀ values objectName,
      KeepsMentions rule executor.schema ⟨document, values⟩ objectName) :
    executor.AnswersAlike document other := by
  intro name
  rcases rewritten.select_operation name with refused | ⟨operation, copy, picked, picked', related⟩
  · exact .inl refused
  · have kind : copy.node.kind = operation.node.kind := by
      cases related
      rfl
    refine .inr ⟨operation, copy, picked, picked', kind, fun depth root inputs => ?_⟩
    exact rewritten.execute_alike nearsighted (fun _ => True) (fun _ _ => .intro)
      (fun values object _ => keeps values object.name.node) related depth root .intro inputs

/-- The same, where a condition holds of what an operation is executed with. -/
def Executor.AnswersAlikeWhere {σ : Type} (executor : Executor σ)
    (condition : Located Operation → ObjectType → Object → Journal σ → Prop)
    (document other : Document) : Prop :=
  ∀ name,
    (∃ error, document.selectOperation name = .error error ∧
      other.selectOperation name = .error error) ∨
    ∃ operation copy, document.selectOperation name = .ok operation ∧
      other.selectOperation name = .ok copy ∧ copy.node.kind = operation.node.kind ∧
      ∀ depth root inputs journal, condition operation root inputs journal →
        executor.executeOperation (executor.runWithin depth) other copy root inputs journal =
          executor.executeOperation (executor.runWithin depth) document operation root inputs
            journal

namespace Executor.AnswersAlikeWhere

variable {σ : Type} {executor : Executor σ}
  {condition : Located Operation → ObjectType → Object → Journal σ → Prop}
  {document middle other : Document}

theorem refl (condition : Located Operation → ObjectType → Object → Journal σ → Prop)
    (document : Document) : executor.AnswersAlikeWhere condition document document := by
  intro name
  cases picked : document.selectOperation name with
  | error error => exact .inl ⟨error, rfl, rfl⟩
  | ok operation => exact .inr ⟨operation, operation, rfl, rfl, rfl, fun _ _ _ _ _ => rfl⟩

theorem trans (first : executor.AnswersAlikeWhere condition document middle)
    (carries : ∀ operation copy root inputs journal, copy.node.kind = operation.node.kind →
      condition operation root inputs journal → condition copy root inputs journal)
    (second : executor.AnswersAlikeWhere condition middle other) :
    executor.AnswersAlikeWhere condition document other := by
  intro name
  rcases first name with ⟨error, refused, passed⟩ | ⟨operation, copy, picked, passed, kind, same⟩
  · rcases second name with ⟨_, refused', here⟩ | ⟨_, _, picked', -⟩
    · cases passed.symm.trans refused'
      exact .inl ⟨error, refused, here⟩
    · cases passed.symm.trans picked'
  · rcases second name with ⟨_, refused', -⟩ | ⟨_, last, picked', here, kind', same'⟩
    · cases passed.symm.trans refused'
    · cases passed.symm.trans picked'
      refine .inr ⟨operation, last, picked, here, kind'.trans kind, ?_⟩
      intro depth root inputs journal held
      rw [← same depth root inputs journal held]
      exact same' depth root inputs journal (carries _ _ root inputs journal kind held)

end Executor.AnswersAlikeWhere

end GraphQL
