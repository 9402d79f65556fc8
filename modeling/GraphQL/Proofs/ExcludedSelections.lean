import GraphQL.Proofs.Inlining
import GraphQL.Proofs.Rewriting

/-!
Excluded selections, left out.

Directives exclude what carries them: it is to be skipped, or it is not to be included. A spread is
excluded by its own directives or by those of the fragment that it names. Leaving out excluded
selections, at any depth, changes nothing about responses. Collecting does not even mark the
fragment of a spread that is left out, so that a later spread finds it unopened.
-/

namespace GraphQL

/-- Some directive says to skip what carries it, or not to include it. -/
def RequestScope.Excludes (scope : RequestScope) (directives : Directives) : Prop :=
  ∃ directive ∈ directives.getD [],
    (directive.node.name.node = "skip" ∧ scope.condition? directive.node = some true) ∨
      (directive.node.name.node = "include" ∧ scope.condition? directive.node = some false)

/-- A selection that directives exclude, its own or those of the fragment that it spreads. -/
inductive Selection.Excluded (scope : RequestScope) : Selection → Prop where
  | field {field} (excludes : scope.Excludes field.node.directives) : Excluded scope (.field field)
  | spread {spread} (excludes : scope.Excludes spread.node.directives) :
      Excluded scope (.spread spread)
  | inline {fragment} (excludes : scope.Excludes fragment.node.directives) :
      Excluded scope (.inline fragment)
  | fragment {spread fragment}
      (found : scope.document.fragment? spread.node.name.node = some fragment)
      (excludes : scope.Excludes fragment.node.directives) : Excluded scope (.spread spread)

/-- One excluded selection is left out. -/
inductive LeavesOut (scope : RequestScope) : List Selection → List Selection → Prop where
  | intro {selection} (excluded : selection.Excluded scope) : LeavesOut scope [selection] []

/-- Whether nothing excludes a selection. -/
def Selection.isAdmitted (scope : RequestScope) : Selection → Bool
  | .field asked => scope.includes asked.node.directives
  | .spread named =>
      scope.includes named.node.directives &&
        (scope.document.fragment? named.node.name.node).all fun fragment =>
          scope.includes fragment.node.directives
  | .inline fragment => scope.includes fragment.node.directives

mutual

/-- Selections without those that are excluded, at any depth. -/
def admittedOnly (scope : RequestScope) : List Selection → List Selection
  | [] => []
  | selection :: rest =>
      if selection.isAdmitted scope then admittedBelow scope selection :: admittedOnly scope rest
      else admittedOnly scope rest

/-- A selection without those below it that are excluded. -/
def admittedBelow (scope : RequestScope) : Selection → Selection
  | .field ⟨⟨aliasName, name, arguments, directives, none⟩, span⟩ =>
      .field ⟨⟨aliasName, name, arguments, directives, none⟩, span⟩
  | .field ⟨⟨aliasName, name, arguments, directives, some selections⟩, span⟩ =>
      .field ⟨⟨aliasName, name, arguments, directives, some (admittedOnly scope selections)⟩, span⟩
  | .spread spread => .spread spread
  | .inline ⟨⟨condition, directives, selections⟩, span⟩ =>
      .inline ⟨⟨condition, directives, admittedOnly scope selections⟩, span⟩

end

def admittedDefinition (scope : RequestScope) : Definition → Definition
  | .operation operation =>
      .operation (operation.map
        (Operation.selecting (admittedOnly scope operation.node.selections)))
  | .fragment fragment =>
      .fragment (fragment.map fun plain =>
        { plain with selections := admittedOnly scope fragment.node.selections })
  | other => other

/-- The document without all selections that are excluded where variables have some values. -/
def Document.admitted (document : Document) (values : Object) : Document :=
  { document with
    definitions := document.definitions.map (admittedDefinition ⟨document, values⟩) }

section Excluding

variable {scope : RequestScope} {schema : Schema} {objectName : String}

theorem RequestScope.excludes_iff (scope : RequestScope) (directives : Directives) :
    scope.Excludes directives ↔ scope.includes directives = false := by
  have refused (directive : Directive) : scope.admits directive = false ↔
      (directive.name.node = "skip" ∧ scope.condition? directive = some true) ∨
        (directive.name.node = "include" ∧ scope.condition? directive = some false) := by
    rw [RequestScope.admits]
    by_cases skip : directive.name.node = "skip"
    · simp [skip]
    · by_cases included : directive.name.node = "include" <;> simp [skip, included]
  rw [RequestScope.Excludes, RequestScope.includes, List.all_eq_false]
  simp only [Bool.not_eq_true, refused]

theorem Selection.admitted_iff (selection : Selection) :
    selection.isAdmitted scope = false ↔ selection.Excluded scope := by
  constructor
  · intro refused
    cases selection with
    | field field => exact .field ((scope.excludes_iff _).mpr refused)
    | inline fragment => exact .inline ((scope.excludes_iff _).mpr refused)
    | spread spread =>
        rw [isAdmitted, Bool.and_eq_false_iff] at refused
        rcases refused with own | shut
        · exact .spread ((scope.excludes_iff _).mpr own)
        · cases found : scope.document.fragment? spread.node.name.node with
          | none => simp [found] at shut
          | some fragment =>
              rw [found] at shut
              exact .fragment found ((scope.excludes_iff _).mpr shut)
  · intro excluded
    cases excluded with
    | field excludes => exact (scope.excludes_iff _).mp excludes
    | inline excludes => exact (scope.excludes_iff _).mp excludes
    | spread excludes => simp [isAdmitted, (scope.excludes_iff _).mp excludes]
    | fragment found excludes => simp [isAdmitted, found, (scope.excludes_iff _).mp excludes]

/-- What is excluded mentions nothing, or a fragment in which there is nothing. -/
theorem Selection.Excluded.mentions
    {related : List (Located Field) → List (Located Field) → Prop} {selection : Selection}
    (excluded : selection.Excluded scope) :
    MentionsAlike scope.Shuts related (mentionsOne schema scope objectName selection) [] := by
  cases excluded with
  | field excludes =>
      rw [mentionsOne, (scope.excludes_iff _).mp excludes]
      exact .nil
  | spread excludes =>
      rw [mentionsOne, (scope.excludes_iff _).mp excludes]
      exact .nil
  | @inline fragment excludes =>
      obtain ⟨⟨condition, directives, selections⟩, span⟩ := fragment
      have refused := (scope.excludes_iff _).mp excludes
      rw [mentionsOne, refused]
      exact .nil
  | fragment found excludes =>
      rw [mentionsOne]
      split
      · exact .idle ⟨_, found, (scope.excludes_iff _).mp excludes⟩ .nil
      · exact .nil

theorem leaving_out_keeps_mentions (schema : Schema) (scope : RequestScope) (objectName : String) :
    KeepsMentions (LeavesOut scope) schema scope objectName := by
  intro before after step
  cases step with
  | intro excluded =>
      rw [mentions, mentions, mentions, List.append_nil]
      exact excluded.mentions

/-- Groups do not change where an excluded selection is taken out from among others. -/
theorem collect_without_excluded (schema : Schema) (scope : RequestScope) (objectName : String)
    {selection : Selection} (excluded : selection.Excluded scope)
    (before after : List Selection) (front back : List (List Selection)) :
    collectFields schema scope objectName (front ++ (before ++ selection :: after) :: back) =
      collectFields schema scope objectName (front ++ (before ++ after) :: back) := by
  have joins {a b c d : List (Located Field)} (first : a = b) (second : c = d) :
      a ++ c = b ++ d := by rw [first, second]
  have same (list : List Mention) : MentionsAlike scope.Shuts (· = ·) list list :=
    .refl (fun _ => rfl) list
  have mentioned : MentionsAlike scope.Shuts (· = ·)
      (mentions schema scope objectName (front ++ (before ++ selection :: after) :: back).flatten)
      (mentions schema scope objectName (front ++ (before ++ after) :: back).flatten) := by
    simp only [List.flatten_append, List.flatten_cons, mentions_append, mentions]
    exact (same _).append (((same _).append (excluded.mentions.append (same _))).append (same _))
  have started : (⟨[], []⟩ : Gathered).Alike scope.Shuts (· = ·) ⟨[], []⟩ := ⟨fun _ _ => .rfl, rfl⟩
  have met := walk_alike joins
    (fun _ shut => ⟨shut.nothing objectName, shut.nothing objectName⟩)
    (fun name => same (fragmentMentions schema scope objectName name))
    scope.document.fragments.length mentioned started
  have fields := met.fields
  rw [← mentions_flatten, ← mentions_flatten] at fields
  rw [collect_fields_grouped, collect_fields_grouped, fields_asked_walk, fields_asked_walk]
  exact congrArg grouped fields

mutual

/-- Leaving out all excluded selections is leaving out one after the other. -/
theorem admitted_rewritten (scope : RequestScope) :
    ∀ selections, Rewritten (LeavesOut scope) selections (admittedOnly scope selections)
  | [] => by
      rw [admittedOnly]
      exact .nil
  | selection :: rest => by
      rw [admittedOnly]
      split
      · exact admitted_below_rewritten scope selection (admitted_rewritten scope rest)
      · rename_i refused
        have excluded := selection.admitted_iff.mp (Bool.eq_false_of_not_eq_true refused)
        exact .run (.intro excluded) (admitted_rewritten scope rest)

theorem admitted_below_rewritten (scope : RequestScope) :
    ∀ selection {rest others}, Rewritten (LeavesOut scope) rest others →
      Rewritten (LeavesOut scope) (selection :: rest) (admittedBelow scope selection :: others)
  | .field ⟨⟨_, _, _, _, none⟩, _⟩, _, _, more => by
      rw [admittedBelow]
      exact .keep more
  | .field ⟨⟨_, _, _, _, some selections⟩, _⟩, _, _, more => by
      rw [admittedBelow]
      exact .under rfl (admitted_rewritten scope selections) more
  | .spread _, _, _, more => by
      rw [admittedBelow]
      exact .keep more
  | .inline ⟨⟨_, _, selections⟩, _⟩, _, _, more => by
      rw [admittedBelow]
      exact .inline (admitted_rewritten scope selections) more

end

theorem Document.admitted_from (document : Document) (values : Object) :
    document.Rewritten (LeavesOut ⟨document, values⟩) (document.admitted values) := by
  rw [Document.Rewritten, Document.admitted, List.forall₂_map_right_iff, List.forall₂_same]
  intro definition _
  cases definition with
  | operation operation => exact .operation (admitted_rewritten _ _)
  | fragment fragment => exact .fragment (admitted_rewritten _ _)
  | type | extension => exact .same _

end Excluding

/-- Two documents are answered alike wherever the variables of an operation get the given values. -/
def Executor.AnswersAlikeGiven {σ : Type} (executor : Executor σ) (values : Object)
    (document other : Document) : Prop :=
  executor.AnswersAlikeWhere
    (fun operation _ inputs journal => ∃ started,
      executor.coerceVariables inputs (operationPlace operation)
        ((operation.node.variableDefinitions.map (·.node)).getD []) journal =
          some (.ok values, started))
    document other

/-- A rule that keeps what is mentioned under some values of variables keeps responses under them. -/
theorem Document.Rewritten.answers_alike_given {σ : Type} {executor : Executor σ}
    (nearsighted : executor.Nearsighted) {rule : List Selection → List Selection → Prop}
    {document other : Document} (rewritten : document.Rewritten rule other) {values : Object}
    (keeps : ∀ objectName, KeepsMentions rule executor.schema ⟨document, values⟩ objectName) :
    executor.AnswersAlikeGiven values document other := by
  intro name
  rcases rewritten.select_operation name with refused | ⟨operation, copy, picked, picked', related⟩
  · exact .inl refused
  · cases related with
    | @intro selections changed =>
        refine .inr ⟨operation, _, picked, picked', rfl, ?_⟩
        rintro depth root inputs journal ⟨started, coerced⟩
        have asked : GraphQL.Rewritten rule [operation.node.selections].flatten
            [selections].flatten := by simpa using changed
        have scopes : RequestScope.AlikeOn (fun _ => True) executor.schema
            (fun sets copies => GraphQL.Rewritten rule sets.flatten copies.flatten)
            ⟨document, values⟩ ⟨other, values⟩ :=
          rewritten.scopes_alike (fun _ _ => .intro) fun object _ => keeps object.name.node
        have same := root_data_alike nearsighted scopes asked depth root .intro
        have coerced' : executor.coerceVariables inputs
            (operationPlace (operation.map (Operation.selecting selections)))
            (((operation.map (Operation.selecting selections)).node.variableDefinitions.map
              (·.node)).getD []) journal = some (.ok values, started) := coerced
        rw [Executor.executeOperation, Executor.executeOperation, Action.bind_apply,
          Action.bind_apply, coerced, coerced']
        exact congrFun same.symm started

/--
Leaving out excluded selections changes nothing about responses, be it some of them or all, at any
depth of operations and fragments. The executions end in the same journal too, so a context that
records the calls of callbacks has the same record. To the groups that are collected it makes no
difference whether an excluded selection is among the others: neither it nor what is below it gets
into any group, and a later spread of the same fragment is expanded as if it were the first.
-/
theorem excluded_selections_inert {σ : Type} (executor : Executor σ)
    (nearsighted : executor.Nearsighted) (document : Document) (values : Object) :
    (∀ other, document.Rewritten (LeavesOut ⟨document, values⟩) other →
      executor.AnswersAlikeGiven values document other) ∧
    document.Rewritten (LeavesOut ⟨document, values⟩) (document.admitted values) ∧
    (∀ selection : Selection, selection.isAdmitted ⟨document, values⟩ = false ↔
      selection.Excluded ⟨document, values⟩) ∧
    ∀ objectName selection before after front back,
      selection.Excluded ⟨document, values⟩ →
        collectFields executor.schema ⟨document, values⟩ objectName
            (front ++ (before ++ selection :: after) :: back) =
          collectFields executor.schema ⟨document, values⟩ objectName
            (front ++ (before ++ after) :: back) := by
  refine ⟨fun other rewritten => ?_, document.admitted_from values, Selection.admitted_iff, ?_⟩
  · exact rewritten.answers_alike_given nearsighted fun objectName =>
      leaving_out_keeps_mentions executor.schema ⟨document, values⟩ objectName
  · intro objectName selection before after front back excluded
    exact collect_without_excluded _ _ _ excluded before after front back

/-- A directive with a variable as its condition. -/
def onQuiet (name : String) : Directives :=
  some [.unplaced ⟨.unplaced name,
    some (.unplaced [⟨.unplaced "if", .unplaced (.variable "quiet")⟩])⟩]

/-- A request that spreads one fragment twice, first under a condition, and one that is skipped. -/
def quietTour : Located Operation := .unplaced
  { kind := .query
    name := none
    variableDefinitions := some (.unplaced [⟨.unplaced "quiet", .unplaced (.named "String"), none⟩])
    directives := none
    selections :=
      [kennelField "name" none, .spread (.unplaced ⟨.unplaced "Dogs", onQuiet "skip"⟩),
        kennelSpread "Dogs", kennelSpread "Barks"] }

/-- Dogs are asked for their names, unless it is to be quiet. -/
def quietDocument : Document where
  definitions :=
    [.operation quietTour,
      kennelFragment "Dogs" "Kennel"
        [kennelField "dogs" (some
          [.inline (.unplaced ⟨none, onQuiet "skip", [kennelField "name" none]⟩)])],
      .fragment (.unplaced ⟨.unplaced "Barks", .unplaced "Kennel", onQuiet "skip",
        [kennelField "name" none]⟩)]
  span := .unplaced

/-- Nothing is asked of the dogs, and it is the second spread that opens their fragment. -/
theorem quiet_tour_without_excluded :
    ∃ copy,
      (quietDocument.admitted [("quiet", .string "yes")]).selectOperation none = .ok copy ∧
        copy.node.selections.length = 2 ∧
        kennel.executeOperation (kennel.runWithin 2)
            (quietDocument.admitted [("quiet", .string "yes")]) copy kennelRoot
            [("quiet", .string "yes")] ⟨(), []⟩ =
          some (.ok (.object
            [("name", .string "Elm"), ("dogs", .list [.object [], .object []])]), ⟨(), []⟩) := by
  obtain ⟨alike, rewritten, -⟩ := excluded_selections_inert kennel kennel_nearsighted quietDocument
    [("quiet", .string "yes")]
  rcases alike _ rewritten none with
    ⟨error, impossible, -⟩ | ⟨operation, copy, picked, picked', -, same⟩
  · cases impossible
  · cases picked
    cases picked'
    refine ⟨_, rfl, rfl, ?_⟩
    rw [same 2 kennelRoot [("quiet", .string "yes")] ⟨(), []⟩ ⟨⟨(), []⟩, rfl⟩]
    rfl

end GraphQL
