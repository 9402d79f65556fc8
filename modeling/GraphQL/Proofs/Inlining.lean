import GraphQL.Execution.Response
import GraphQL.Proofs.Reach
import GraphQL.Proofs.RequestTree
import GraphQL.Proofs.Thinning

/-!
Named fragments, written out where they are spread.

In a document whose fragments do not reach themselves, every spread can be replaced by an inline
fragment that holds the selections of the named one, with its own spreads replaced in the same way.
A fragment that is spread several times is then written out several times. Its fields are collected
as often, but all copies have the same response keys as the first one, and what is selected below
them repeats in the same manner. So the groups at every object stay alike, and with them responses.
-/

namespace GraphQL

/-- The directives of a spread, followed by those of the fragment that it spreads. -/
def Directives.followedBy (first second : Directives) : Directives :=
  match first, second with
  | none, none => none
  | _, _ => some (first.getD [] ++ second.getD [])

/-- The inline fragment that says what a spread of a fragment does. -/
def inlineSpread (spread : Located FragmentSpread) (fragment : Fragment)
    (selections : List Selection) : Selection :=
  .inline ⟨⟨some fragment.typeCondition,
    spread.node.directives.followedBy fragment.directives, selections⟩, spread.span⟩

mutual

/--
Selections without spreads, at any depth, given how the selections of named fragments are written
out. Spreads of undefined fragments are left out.
-/
def inlineWith (document : Document) (expand : List Selection → List Selection) :
    List Selection → List Selection
  | [] => []
  | selection :: rest => inlineOne document expand selection ++ inlineWith document expand rest

def inlineOne (document : Document) (expand : List Selection → List Selection) :
    Selection → List Selection
  | .field ⟨⟨aliasName, name, arguments, directives, none⟩, span⟩ =>
      [.field ⟨⟨aliasName, name, arguments, directives, none⟩, span⟩]
  | .field ⟨⟨aliasName, name, arguments, directives, some selections⟩, span⟩ =>
      [.field ⟨⟨aliasName, name, arguments, directives,
        some (inlineWith document expand selections)⟩, span⟩]
  | .spread spread =>
      match document.fragment? spread.node.name.node with
      | none => []
      | some fragment => [inlineSpread spread fragment.node (expand fragment.node.selections)]
  | .inline ⟨⟨condition, directives, selections⟩, span⟩ =>
      [.inline ⟨⟨condition, directives, inlineWith document expand selections⟩, span⟩]

end

/-- Selections with spreads written out, as deep as so many fragments within each other. -/
def inlineWithin (document : Document) : Nat → List Selection → List Selection
  | 0 => inlineWith document fun _ => []
  | depth + 1 => inlineWith document (inlineWithin document depth)

/-- A fragment is spread in selections, at any depth. -/
inductive SpreadIn (name : String) : List Selection → Prop where
  | here {selections spread} (member : Selection.spread spread ∈ selections)
      (named : spread.node.name.node = name) : SpreadIn name selections
  | nested {selections parent inner} (member : Selection.field parent ∈ selections)
      (has : parent.node.selections = some inner) (deeper : SpreadIn name inner) :
      SpreadIn name selections
  | inline {selections fragment} (member : Selection.inline fragment ∈ selections)
      (deeper : SpreadIn name fragment.node.selections) : SpreadIn name selections

theorem SpreadIn.mono {name : String} {selections more : List Selection}
    (spread : SpreadIn name selections)
    (contained : ∀ selection ∈ selections, selection ∈ more) : SpreadIn name more := by
  cases spread with
  | here member named => exact .here (contained _ member) named
  | nested member has deeper => exact .nested (contained _ member) has deeper
  | inline member deeper => exact .inline (contained _ member) deeper

mutual

/-- The names of all fragments that selections spread, at any depth. -/
def spreadNames : List Selection → List String
  | [] => []
  | selection :: rest => spreadNamesOne selection ++ spreadNames rest

def spreadNamesOne : Selection → List String
  | .field ⟨⟨_, _, _, _, none⟩, _⟩ => []
  | .field ⟨⟨_, _, _, _, some selections⟩, _⟩ => spreadNames selections
  | .spread spread => [spread.node.name.node]
  | .inline ⟨⟨_, _, selections⟩, _⟩ => spreadNames selections

end

theorem mem_spread_names {name : String} {selection : Selection} {selections : List Selection}
    (member : selection ∈ selections) (spread : name ∈ spreadNamesOne selection) :
    name ∈ spreadNames selections := by
  induction selections with
  | nil => cases member
  | cons first rest ih =>
      rw [spreadNames, List.mem_append]
      rcases List.mem_cons.mp member with rfl | inside
      · exact .inl spread
      · exact .inr (ih inside)

theorem SpreadIn.mem_names {name : String} {selections : List Selection}
    (spread : SpreadIn name selections) : name ∈ spreadNames selections := by
  induction spread with
  | here member named =>
      apply mem_spread_names member
      rw [spreadNamesOne, named]
      exact List.mem_cons_self
  | nested member has _ ih =>
      rename_i parent inner _
      obtain ⟨⟨aliasName, fieldName, arguments, directives, below⟩, span⟩ := parent
      obtain rfl : below = some inner := has
      apply mem_spread_names member
      rw [spreadNamesOne]
      exact ih
  | inline member _ ih =>
      rename_i fragment _
      obtain ⟨⟨condition, directives, below⟩, span⟩ := fragment
      apply mem_spread_names member
      rw [spreadNamesOne]
      exact ih

namespace Document

/-- The selections of one fragment spread another one. -/
def Spreads (document : Document) (name other : String) : Prop :=
  ∃ fragment, document.fragment? name = some fragment ∧ SpreadIn other fragment.node.selections

/-- No fragment reaches itself through spreads. -/
def Acyclic (document : Document) : Prop :=
  ∀ name, ¬ Relation.TransGen document.Spreads name name

/-- Selections with all spreads written out; documents nest no more than all their fragments. -/
def inlineSelections (document : Document) : List Selection → List Selection :=
  inlineWithin document document.fragments.length

def inlineOperation (document : Document) (operation : Located Operation) : Located Operation :=
  operation.map (Operation.selecting (document.inlineSelections operation.node.selections))

def inlineDefinition (document : Document) : Definition → Definition
  | .operation operation => .operation (document.inlineOperation operation)
  | .fragment fragment =>
      .fragment (fragment.map fun plain =>
        { plain with selections := document.inlineSelections plain.selections })
  | other => other

/-- The document in which every spread of a fragment is written out. -/
def inlined (document : Document) : Document :=
  { document with definitions := document.definitions.map document.inlineDefinition }

/-- A field with all spreads below it written out. -/
def inlineField (document : Document) (field : Located Field) : Located Field :=
  field.map fun plain => { plain with selections := plain.selections.map document.inlineSelections }

open Classical in
/-- How many defined fragments a fragment reaches. -/
noncomputable def rank (document : Document) (name : String) : Nat :=
  (document.fragmentNames.toFinset.filter
    fun other => Relation.TransGen document.Spreads name other).card

variable {document : Document}

/-- A fragment reaches more fragments than those that it spreads. -/
theorem rank_lt_of_spreads (acyclic : document.Acyclic) {name other : String}
    {fragment : Located Fragment} (found : document.fragment? other = some fragment)
    (spreads : document.Spreads name other) : document.rank other < document.rank name :=
  reach_count_lt acyclic (mem_fragment_names found) spreads

theorem rank_lt_length (acyclic : document.Acyclic) {name : String} {fragment : Located Fragment}
    (found : document.fragment? name = some fragment) :
    document.rank name < document.fragments.length := by
  have below := reach_count_lt_length acyclic (mem_fragment_names found)
  rwa [fragmentNames, List.length_map] at below

end Document

section Writing

variable {document : Document}

mutual

/-- Spreads are all that matters about how fragments are written out. -/
theorem inline_with_congr {expand other : List Selection → List Selection} :
    ∀ selections, (∀ name, SpreadIn name selections → ∀ fragment,
        document.fragment? name = some fragment →
          expand fragment.node.selections = other fragment.node.selections) →
      inlineWith document expand selections = inlineWith document other selections
  | [], _ => by rw [inlineWith, inlineWith]
  | selection :: rest, same => by
      rw [inlineWith, inlineWith,
        inline_one_congr selection fun name spread => same name (spread.mono (by simp)),
        inline_with_congr rest fun name spread => same name (spread.mono (by simp +contextual))]

theorem inline_one_congr {expand other : List Selection → List Selection} :
    ∀ selection, (∀ name, SpreadIn name [selection] → ∀ fragment,
        document.fragment? name = some fragment →
          expand fragment.node.selections = other fragment.node.selections) →
      inlineOne document expand selection = inlineOne document other selection
  | .field ⟨⟨_, _, _, _, none⟩, _⟩, _ => by rw [inlineOne, inlineOne]
  | .field ⟨⟨_, _, _, _, some selections⟩, _⟩, same => by
      rw [inlineOne, inlineOne, inline_with_congr selections fun name spread =>
        same name (.nested List.mem_cons_self rfl spread)]
  | .spread spread, same => by
      rw [inlineOne, inlineOne]
      cases found : document.fragment? spread.node.name.node with
      | none => rfl
      | some fragment =>
          dsimp only
          rw [same _ (.here List.mem_cons_self rfl) fragment found]
  | .inline ⟨⟨_, _, selections⟩, _⟩, same => by
      rw [inlineOne, inlineOne, inline_with_congr selections fun name spread =>
        same name (.inline List.mem_cons_self spread)]

end

/-- Once the depth exceeds the ranks of all fragments that are spread, it makes no difference. -/
theorem inline_within_stable (acyclic : document.Acyclic) {depth more : Nat} (le : depth ≤ more)
    {selections : List Selection}
    (low : ∀ name, SpreadIn name selections → ∀ fragment,
      document.fragment? name = some fragment → document.rank name < depth) :
    inlineWithin document more selections = inlineWithin document depth selections := by
  induction depth generalizing more selections with
  | zero =>
      cases more with
      | zero => rfl
      | succ more =>
          exact inline_with_congr selections fun name spread fragment found =>
            absurd (low name spread fragment found) (Nat.not_lt_zero _)
  | succ depth ih =>
      obtain ⟨more, rfl⟩ : ∃ less, more = less + 1 := ⟨more - 1, by omega⟩
      apply inline_with_congr selections
      intro name spread fragment found
      apply ih (by omega)
      intro inner deeper innermost found_inner
      have below := Document.rank_lt_of_spreads acyclic found_inner ⟨fragment, found, deeper⟩
      have above := low name spread fragment found
      omega

/-- Every spread is written out, also in what is written out in its place. -/
theorem inline_selections_fixed (acyclic : document.Acyclic) :
    document.inlineSelections = inlineWith document document.inlineSelections := by
  funext selections
  have stable : inlineWithin document (document.fragments.length + 1) selections =
      inlineWithin document document.fragments.length selections :=
    inline_within_stable acyclic (Nat.le_add_right _ 1)
      fun _ _ _ found => Document.rank_lt_length acyclic found
  exact stable.symm

end Writing

section Mentions

variable {document : Document} {schema : Schema} {values : Object} {objectName : String}

theorem includes_followed_by (scope : RequestScope) (first second : Directives) :
    scope.includes (first.followedBy second) = (scope.includes first && scope.includes second) := by
  cases first <;> cases second <;>
    simp [RequestScope.includes, Directives.followedBy, List.all_append]

theorem inline_one_field (fixed : document.inlineSelections =
      inlineWith document document.inlineSelections) (field : Located Field) :
    inlineOne document document.inlineSelections (.field field) =
      [.field (document.inlineField field)] := by
  obtain ⟨⟨aliasName, name, arguments, directives, selections⟩, span⟩ := field
  cases selections with
  | none => rw [inlineOne]; rfl
  | some selections =>
      rw [inlineOne, ← fixed]
      rfl

/-- Written-out selections mention the fields that the selections expand to, written out. -/
def Unfolded (document : Document) (schema : Schema) (values : Object) (objectName : String)
    (chain : List String) (selections : List Selection) : Prop :=
  ∃ fields,
    Unfolds (fragmentMentions schema ⟨document, values⟩ objectName) chain
      (mentions schema ⟨document, values⟩ objectName selections) fields ∧
    mentions schema ⟨document.inlined, values⟩ objectName
        (inlineWith document document.inlineSelections selections) =
      fields.map fun field => .field (document.inlineField field)

/-- Where a spread is included, it does what the inline fragment in its place does. -/
theorem spread_unfolded (fixed : document.inlineSelections =
      inlineWith document document.inlineSelections) {chain : List String} {name : String}
    {fragment : Located Fragment} (found : document.fragment? name = some fragment)
    (inside : Unfolded document schema values objectName chain fragment.node.selections) :
    ∃ fields,
      Unfolds (fragmentMentions schema ⟨document, values⟩ objectName) chain
        (fragmentMentions schema ⟨document, values⟩ objectName name) fields ∧
      (if (RequestScope.mk document values).includes fragment.node.directives &&
            conditionApplies schema objectName (some fragment.node.typeCondition) then
          mentions schema ⟨document.inlined, values⟩ objectName
            (document.inlineSelections fragment.node.selections)
        else []) =
        fields.map fun field => .field (document.inlineField field) := by
  obtain ⟨fields, unfolds, written⟩ := inside
  rw [← fixed] at written
  rw [fragmentMentions, found]
  by_cases applies : ((RequestScope.mk document values).includes fragment.node.directives &&
      schema.applies objectName fragment.node.typeCondition.node) = true
  · exact ⟨fields, by simpa only [if_pos applies] using unfolds, by
      rw [conditionApplies, if_pos applies]
      exact written⟩
  · exact ⟨[], by simpa only [if_neg applies] using .nil, by
      rw [conditionApplies, if_neg applies]
      rfl⟩

mutual

theorem selections_unfolded (fixed : document.inlineSelections =
      inlineWith document document.inlineSelections) {chain : List String} :
    ∀ selections, (∀ name, SpreadIn name selections → name ∉ chain ∧ ∀ fragment,
        document.fragment? name = some fragment →
          Unfolded document schema values objectName (name :: chain) fragment.node.selections) →
      Unfolded document schema values objectName chain selections
  | [], _ => ⟨[], by rw [mentions]; exact .nil, by rw [inlineWith, mentions]; rfl⟩
  | selection :: rest, deeper => by
      obtain ⟨first, unfolds, written⟩ := selection_unfolded fixed selection
        fun name spread => deeper name (spread.mono (by simp))
      obtain ⟨others, unfolds', written'⟩ := selections_unfolded fixed rest
        fun name spread => deeper name (spread.mono (by simp +contextual))
      refine ⟨first ++ others, ?_, ?_⟩
      · rw [mentions]
        exact unfolds.append unfolds'
      · rw [inlineWith, mentions_append, written, written', List.map_append]

theorem selection_unfolded (fixed : document.inlineSelections =
      inlineWith document document.inlineSelections) {chain : List String} :
    ∀ selection, (∀ name, SpreadIn name [selection] → name ∉ chain ∧ ∀ fragment,
        document.fragment? name = some fragment →
          Unfolded document schema values objectName (name :: chain) fragment.node.selections) →
      ∃ fields,
        Unfolds (fragmentMentions schema ⟨document, values⟩ objectName) chain
          (mentionsOne schema ⟨document, values⟩ objectName selection) fields ∧
        mentions schema ⟨document.inlined, values⟩ objectName
            (inlineOne document document.inlineSelections selection) =
          fields.map fun field => .field (document.inlineField field)
  | .field field, _ => by
      rw [inline_one_field fixed, mentions, mentions, mentionsOne, mentionsOne, List.append_nil,
        includes_same document.inlined document]
      by_cases included : (RequestScope.mk document values).includes field.node.directives = true
      · rw [if_pos included]
        exact ⟨[field], .field .nil, if_pos included⟩
      · rw [if_neg included]
        exact ⟨[], .nil, if_neg included⟩
  | .spread spread, deeper => by
      obtain ⟨fresh, inside⟩ := deeper _ (.here List.mem_cons_self rfl)
      rw [inlineOne, mentionsOne]
      by_cases included : (RequestScope.mk document values).includes spread.node.directives = true
      · rw [if_pos included]
        cases found : document.fragment? spread.node.name.node with
        | none =>
            have nothing : fragmentMentions schema ⟨document, values⟩ objectName
                spread.node.name.node = [] := by
              rw [fragmentMentions, found]
            have unfolds : Unfolds (fragmentMentions schema ⟨document, values⟩ objectName)
                (spread.node.name.node :: chain) (fragmentMentions schema ⟨document, values⟩
                  objectName spread.node.name.node) [] := by
              rw [nothing]
              exact .nil
            exact ⟨[], .opened fresh unfolds .nil, by rw [mentions]; rfl⟩
        | some fragment =>
            obtain ⟨fields, unfolds, written⟩ := spread_unfolded fixed found (inside fragment found)
            refine ⟨fields, ?_, ?_⟩
            · simpa using Unfolds.opened fresh unfolds .nil
            · dsimp only
              rw [inlineSpread, mentions, mentions, mentionsOne, List.append_nil,
                includes_followed_by, includes_same document.inlined document, included,
                Bool.true_and]
              exact written
      · rw [if_neg included]
        refine ⟨[], .nil, ?_⟩
        cases document.fragment? spread.node.name.node with
        | none => rw [mentions]; rfl
        | some fragment =>
            dsimp only
            rw [inlineSpread, mentions, mentions, mentionsOne, List.append_nil,
              includes_followed_by, includes_same document.inlined document,
              Bool.eq_false_of_not_eq_true included, Bool.false_and]
            rfl
  | .inline ⟨⟨condition, directives, selections⟩, span⟩, deeper => by
      obtain ⟨fields, unfolds, written⟩ := selections_unfolded fixed selections
        fun name spread => deeper name (.inline List.mem_cons_self spread)
      rw [inlineOne, mentions, mentions, mentionsOne, mentionsOne, List.append_nil,
        includes_same document.inlined document]
      by_cases applies : ((RequestScope.mk document values).includes directives &&
          conditionApplies schema objectName condition) = true
      · rw [if_pos applies, if_pos applies]
        exact ⟨fields, unfolds, written⟩
      · rw [if_neg applies, if_neg applies]
        exact ⟨[], .nil, rfl⟩

end

/-- Fragments that are expanded within each other spread each other, so none of them repeats. -/
theorem unfolded_of_rank (acyclic : document.Acyclic) (bound : Nat) {chain : List String}
    {selections : List Selection}
    (above : ∀ name, SpreadIn name selections → ∀ outer ∈ chain,
      Relation.TransGen document.Spreads outer name)
    (low : ∀ name, SpreadIn name selections → ∀ fragment,
      document.fragment? name = some fragment → document.rank name < bound) :
    Unfolded document schema values objectName chain selections := by
  induction bound generalizing chain selections with
  | zero =>
      apply selections_unfolded (inline_selections_fixed acyclic)
      intro name spread
      refine ⟨fun expanding => acyclic name (above name spread name expanding), ?_⟩
      intro fragment found
      exact absurd (low name spread fragment found) (Nat.not_lt_zero _)
  | succ bound ih =>
      apply selections_unfolded (inline_selections_fixed acyclic)
      intro name spread
      refine ⟨fun expanding => acyclic name (above name spread name expanding), ?_⟩
      intro fragment found
      apply ih
      · intro inner deeper outer expanding
        have spreads : document.Spreads name inner := ⟨fragment, found, deeper⟩
        rcases List.mem_cons.mp expanding with rfl | before
        · exact .single spreads
        · exact .tail (above name spread outer before) spreads
      · intro inner deeper innermost found_inner
        have below := Document.rank_lt_of_spreads acyclic found_inner ⟨fragment, found, deeper⟩
        have bounded := low name spread fragment found
        omega

/-- So it is for all selection sets from which fields are collected. -/
theorem sets_unfolded (acyclic : document.Acyclic) (schema : Schema) (values : Object)
    (objectName : String) (sets : List (List Selection)) :
    ∃ fields,
      Unfolds (fragmentMentions schema ⟨document, values⟩ objectName) []
        (sets.flatMap (mentions schema ⟨document, values⟩ objectName)) fields ∧
      (sets.map document.inlineSelections).flatMap
          (mentions schema ⟨document.inlined, values⟩ objectName) =
        fields.map fun field => .field (document.inlineField field) := by
  induction sets with
  | nil => exact ⟨[], .nil, rfl⟩
  | cons selections rest ih =>
      obtain ⟨first, unfolds, written⟩ : Unfolded document schema values objectName [] selections :=
        unfolded_of_rank acyclic document.fragments.length (fun _ _ _ absent => by cases absent)
          fun _ _ _ found => Document.rank_lt_length acyclic found
      obtain ⟨others, unfolds', written'⟩ := ih
      rw [← inline_selections_fixed acyclic] at written
      refine ⟨first ++ others, unfolds.append unfolds', ?_⟩
      rw [List.map_cons, List.flatMap_cons, written, written', List.map_append]

end Mentions

/-- Selection sets of a document, and the same with repetitions and without spreads. -/
def WrittenOut (document : Document) (sets written : List (List Selection)) : Prop :=
  ∃ all, Thins [] all sets ∧ written = all.map document.inlineSelections

namespace Document

variable {document : Document}

/-- The group of fields with all spreads below them written out. -/
theorem inline_group_alike {full group : FieldGroup} (thinned : full.Thinned group) :
    group.Alike (WrittenOut document) (full.map document.inlineField) where
  key := thinned.key
  first := by
    rw [thinned.first]
    rfl
  below := by
    refine ⟨full.selectionSets, thinned.fields.filterMap _, ?_⟩
    have fields : (full.map document.inlineField).fields = full.fields.map document.inlineField :=
      rfl
    rw [FieldGroup.selectionSets, FieldGroup.selectionSets, fields, List.filterMap_map,
      List.map_filterMap]
    rfl

/-- A document and the one without spreads ask for groups that are alike. -/
theorem inlined_alike (acyclic : document.Acyclic) (schema : Schema) (values : Object) :
    RequestScope.Alike schema (WrittenOut document) ⟨document, values⟩
      ⟨document.inlined, values⟩ where
  variableValues := rfl
  groups objectName sets written asked := by
    obtain ⟨all, thins, rfl⟩ := asked
    obtain ⟨fields, unfolds, mentioned⟩ := sets_unfolded acyclic schema values objectName all
    have thinned := grouped_thinned (fields_asked_thins thins unfolds)
    have copied : fieldsAsked schema ⟨document.inlined, values⟩ objectName
        (all.map document.inlineSelections) = fields.map document.inlineField := by
      have composed : (fields.map fun field => Mention.field (document.inlineField field)) =
          (fields.map document.inlineField).map .field := by
        rw [List.map_map]
        rfl
      rw [fields_asked_walk, gatheredFrom, mentioned, composed, walk, walk_with_fields]
      exact List.nil_append _
    have keeps (field : Located Field) :
        (document.inlineField field).node.responseKey = field.node.responseKey := rfl
    rw [collect_fields_grouped, collect_fields_grouped, copied, grouped_map keeps,
      List.forall₂_map_right_iff]
    exact thinned.flip.imp fun _ _ related => inline_group_alike related

/-- Operations are picked alike, whether spreads are written out or not. -/
theorem inlined_select_operation (document : Document) (name : Option String) :
    document.inlined.selectOperation name =
      (document.selectOperation name).map document.inlineOperation := by
  have operations : document.inlined.operations =
      document.operations.map document.inlineOperation := by
    rw [Document.operations, Document.operations, Document.inlined, List.filterMap_map,
      List.map_filterMap]
    congr 1
    funext definition
    cases definition <;> rfl
  rw [selectOperation, selectOperation]
  cases name.filter (· ≠ "") with
  | none =>
      dsimp only
      rw [operations]
      cases document.operations with
      | nil => rfl
      | cons operation rest => cases rest <;> rfl
  | some chosen =>
      have found : document.inlined.operation? chosen =
          (document.operation? chosen).map document.inlineOperation := by
        rw [operation?, operation?, operations, List.find?_map]
        rfl
      dsimp only
      rw [found]
      cases document.operation? chosen <;> rfl

end Document

/--
Writing out named fragments where they are spread changes nothing about responses. Every spread of
a defined fragment is replaced, also those that come up in what takes the place of another one. The
executions end in the same journal too, so a context that records the calls of callbacks has the
same record.
-/
theorem inlining_keeps_responses {σ : Type} (executor : Executor σ)
    (nearsighted : executor.Nearsighted) (document : Document) (acyclic : document.Acyclic) :
    document.inlineSelections = inlineWith document document.inlineSelections ∧
      (∀ name, document.inlined.selectOperation name =
        (document.selectOperation name).map document.inlineOperation) ∧
      ∀ depth operation root inputs,
        executor.executeOperation (executor.runWithin depth) document.inlined
            (document.inlineOperation operation) root inputs =
          executor.executeOperation (executor.runWithin depth) document operation root inputs := by
  refine ⟨inline_selections_fixed acyclic, document.inlined_select_operation, ?_⟩
  intro depth operation root inputs
  have same := execute_operation_alike nearsighted (Document.inlined_alike acyclic executor.schema)
    (fun _ => ⟨[operation.node.selections], .keep .nil, rfl⟩) depth root inputs
  exact same.symm

theorem kennel_nearsighted : kennel.Nearsighted := by
  have function_nearsighted (value : Value) :
      (Resolver.ofFunction fun _ : FieldContext Unit => value).Nearsighted :=
    { before := fun _ absent => by cases absent
      resolve := fun _ _ _ => rfl
      after := fun _ absent => by cases absent }
  intro entry member
  rcases List.mem_pair.mp member with rfl | rfl
  · exact function_nearsighted _
  · exact function_nearsighted _

/-- An operation that spreads one fragment twice, below a field another one, and one that is not. -/
def kennelVisit : Located Operation :=
  kennelTour.map (Operation.selecting
    [kennelSpread "Naming", kennelField "dogs" (some [kennelSpread "Dogs"]),
      kennelSpread "Naming", kennelSpread "Cats"])

/-- A document in which a fragment spreads another one below a field. -/
def kennelFragments : Document where
  definitions :=
    [.operation kennelVisit,
      kennelFragment "Naming" "Kennel"
        [kennelField "name" none, kennelField "dogs" (some [kennelSpread "Dogs"])],
      kennelFragment "Dogs" "Dog" [kennelField "name" none]]
  span := .unplaced

theorem kennel_fragments_spread {name other : String}
    (spreads : kennelFragments.Spreads name other) : name = "Naming" ∧ other = "Dogs" := by
  obtain ⟨fragment, found, spread⟩ := spreads
  have matching := List.find?_some found
  have named : fragment.node.name.node = name := eq_of_beq matching
  rcases List.mem_pair.mp (List.mem_of_find?_eq_some found) with rfl | rfl
  · exact ⟨named.symm, List.mem_singleton.mp spread.mem_names⟩
  · cases spread.mem_names

theorem kennel_fragments_acyclic : kennelFragments.Acyclic := by
  intro name cycle
  obtain ⟨_, first, -⟩ := Relation.TransGen.head'_iff.mp cycle
  obtain ⟨_, -, last⟩ := Relation.TransGen.tail'_iff.mp cycle
  have starts := (kennel_fragments_spread first).1
  have ends := (kennel_fragments_spread last).2
  rw [starts] at ends
  revert ends
  decide

/-- The kennel is visited alike when all is written out, the dogs twice. -/
theorem kennel_visit_written_out :
    (kennelFragments.inlined.selectOperation none).toOption =
        some (kennelFragments.inlineOperation kennelVisit) ∧
      spreadNames (kennelFragments.inlineSelections kennelVisit.node.selections) = [] ∧
      ∃ later, kennel.executeOperation (kennel.runWithin 2) kennelFragments.inlined
          (kennelFragments.inlineOperation kennelVisit) kennelRoot [] ⟨(), []⟩ =
        some (.ok (.object [("name", .string "Elm"), ("dogs", .null)]), later) := by
  obtain ⟨fixed, picked, same⟩ := inlining_keeps_responses kennel kennel_nearsighted kennelFragments
    kennel_fragments_acyclic
  refine ⟨by rw [picked]; rfl, rfl, ?_⟩
  rw [same 2 kennelVisit kennelRoot []]
  exact ⟨_, rfl⟩

end GraphQL
