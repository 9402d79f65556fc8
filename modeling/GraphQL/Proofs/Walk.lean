import GraphQL.Proofs.Collection
import Mathlib.Data.Finset.Card

/-!
Collecting as a walk over the fragments of a document.

Once inline fragments are taken apart, selections mention fields and named fragments, and a fragment
mentions what its own selections do. Meeting the fields of selections is a depth-first walk along
these mentions that opens every fragment once. A walk that may go as deep as there are fragments
leaves nothing out: whatever it has opened is met in full, apart from the fragments that it is
still inside of.
-/

namespace GraphQL

namespace Document

/-- The names of the fragments that are defined. -/
def fragmentNames (document : Document) : List String :=
  document.fragments.map (·.node.name.node)

theorem mem_fragment_names {document : Document} {name : String} {fragment : Located Fragment}
    (found : document.fragment? name = some fragment) : name ∈ document.fragmentNames := by
  have named := List.find?_some found
  exact List.mem_map.mpr ⟨fragment, List.mem_of_find?_eq_some found, eq_of_beq named⟩

end Document

/-- What selections ask for once inline fragments are taken apart. -/
inductive Mention where
  | field (field : Located Field)
  | fragment (name : String)

mutual

/-- What selections mention, as far as it is included and applies to an object type. -/
def mentions (schema : Schema) (scope : RequestScope) (objectName : String) :
    List Selection → List Mention
  | [] => []
  | selection :: rest =>
      mentionsOne schema scope objectName selection ++ mentions schema scope objectName rest

/-- What one selection mentions. -/
def mentionsOne (schema : Schema) (scope : RequestScope) (objectName : String) :
    Selection → List Mention
  | .field field => if scope.includes field.node.directives then [.field field] else []
  | .spread spread =>
      if scope.includes spread.node.directives then [.fragment spread.node.name.node] else []
  | .inline ⟨⟨condition, directives, selections⟩, _⟩ =>
      if scope.includes directives && conditionApplies schema objectName condition then
        mentions schema scope objectName selections
      else []

end

/-- Whether something is included depends on nothing but the values of variables. -/
theorem includes_same (document other : Document) (values : Object) (directives : Directives) :
    (RequestScope.mk document values).includes directives =
      (RequestScope.mk other values).includes directives := rfl

/-- What a named fragment mentions; nothing where it is excluded or does not apply. -/
def fragmentMentions (schema : Schema) (scope : RequestScope) (objectName name : String) :
    List Mention :=
  match scope.document.fragment? name with
  | none => []
  | some fragment =>
      if scope.includes fragment.node.directives &&
          schema.applies objectName fragment.node.typeCondition.node then
        mentions schema scope objectName fragment.node.selections
      else []

/-- Meets a field, or goes into a fragment unless it was opened before. -/
def meet (expand : String → Gathered → Gathered) (gathered : Gathered) : Mention → Gathered
  | .field field => { gathered with fields := gathered.fields ++ [field] }
  | .fragment name =>
      if name ∈ gathered.visited then gathered
      else expand name ⟨name :: gathered.visited, gathered.fields⟩

/-- Meets mentions in turn, given how fragments are gone into. -/
def walkWith (expand : String → Gathered → Gathered) (list : List Mention)
    (gathered : Gathered) : Gathered :=
  list.foldl (meet expand) gathered

/-- Goes into a fragment with at most so many fragments within each other. -/
def enterWithin (content : String → List Mention) : Nat → String → Gathered → Gathered
  | 0, _, gathered => gathered
  | depth + 1, name, gathered => walkWith (enterWithin content depth) (content name) gathered

/-- Walks along mentions with at most so many fragments within each other. -/
def walk (content : String → List Mention) (depth : Nat) (list : List Mention)
    (gathered : Gathered) : Gathered :=
  walkWith (enterWithin content depth) list gathered

section Walking

variable (content : String → List Mention) (depth : Nat)

theorem walk_nil (gathered : Gathered) : walk content depth [] gathered = gathered := rfl

theorem walk_cons (mention : Mention) (rest : List Mention) (gathered : Gathered) :
    walk content depth (mention :: rest) gathered =
      walk content depth rest (meet (enterWithin content depth) gathered mention) := rfl

theorem walk_append (first second : List Mention) (gathered : Gathered) :
    walk content depth (first ++ second) gathered =
      walk content depth second (walk content depth first gathered) :=
  List.foldl_append ..

theorem walk_with_append (expand : String → Gathered → Gathered) (first second : List Mention)
    (gathered : Gathered) :
    walkWith expand (first ++ second) gathered =
      walkWith expand second (walkWith expand first gathered) :=
  List.foldl_append ..

/-- Where only fields are mentioned, all of them are met. -/
theorem walk_with_fields (expand : String → Gathered → Gathered) (fields : List (Located Field))
    (gathered : Gathered) :
    walkWith expand (fields.map .field) gathered =
      { gathered with fields := gathered.fields ++ fields } := by
  induction fields generalizing gathered with
  | nil => rw [List.map_nil, List.append_nil, walkWith, List.foldl_nil]
  | cons field rest ih =>
      have step : walkWith expand ((field :: rest).map .field) gathered =
          walkWith expand (rest.map .field)
            { gathered with fields := gathered.fields ++ [field] } := rfl
      rw [step, ih, List.append_assoc, List.singleton_append]

/-- A fragment that mentions nothing is gone through at once, at whatever depth. -/
theorem enter_nothing {name : String} (nothing : content name = []) (gathered : Gathered) :
    enterWithin content depth name gathered = gathered := by
  cases depth with
  | zero => rfl
  | succ depth => rw [enterWithin, nothing, walkWith, List.foldl_nil]

end Walking

section Gathering

variable (schema : Schema) (scope : RequestScope) (objectName : String)

theorem mentions_append (first second : List Selection) :
    mentions schema scope objectName (first ++ second) =
      mentions schema scope objectName first ++ mentions schema scope objectName second := by
  induction first with
  | nil => rw [List.nil_append, mentions, List.nil_append]
  | cons selection rest ih => rw [List.cons_append, mentions, mentions, ih, List.append_assoc]

theorem mentions_flatten (sets : List (List Selection)) :
    sets.flatMap (mentions schema scope objectName) =
      mentions schema scope objectName sets.flatten := by
  induction sets with
  | nil => rw [List.flatMap_nil, List.flatten_nil, mentions]
  | cons selections rest ih => rw [List.flatMap_cons, ih, List.flatten_cons, mentions_append]

/-- Expanding the selections of a fragment, seen from its name. -/
def expandNamed (expand : List Selection → Gathered → Gathered) (name : String)
    (gathered : Gathered) : Gathered :=
  match scope.document.fragment? name with
  | none => gathered
  | some fragment =>
      if scope.includes fragment.node.directives &&
          schema.applies objectName fragment.node.typeCondition.node then
        expand fragment.node.selections gathered
      else gathered

mutual

theorem gather_with_walk (expand : List Selection → Gathered → Gathered) :
    ∀ (selections : List Selection) (gathered : Gathered),
      gatherWith schema scope objectName expand selections gathered =
        walkWith (expandNamed schema scope objectName expand)
          (mentions schema scope objectName selections) gathered
  | [], gathered => by rw [gatherWith, mentions, walkWith, List.foldl_nil]
  | selection :: rest, gathered => by
      rw [gatherWith, mentions, walkWith, List.foldl_append, gather_with_walk expand rest,
        gather_one_walk expand selection, walkWith, walkWith]

theorem gather_one_walk (expand : List Selection → Gathered → Gathered) :
    ∀ (selection : Selection) (gathered : Gathered),
      gatherOne schema scope objectName expand selection gathered =
        walkWith (expandNamed schema scope objectName expand)
          (mentionsOne schema scope objectName selection) gathered
  | .field field, gathered => by
      rw [gatherOne, mentionsOne]
      split <;> rfl
  | .spread spread, gathered => by
      rw [gatherOne, mentionsOne, gatherSpread]
      by_cases included : scope.includes spread.node.directives = true
      · by_cases opened : spread.node.name.node ∈ gathered.visited
        · simp [included, opened, walkWith, meet]
        · simp only [included, opened, walkWith, meet, expandNamed, if_true, if_false,
            List.foldl_cons, List.foldl_nil]
          cases scope.document.fragment? spread.node.name.node <;> rfl
      · simp [included, walkWith]
  | .inline ⟨⟨condition, directives, selections⟩, _⟩, gathered => by
      rw [gatherOne, mentionsOne]
      split
      · exact gather_with_walk expand selections gathered
      · rfl

end

theorem gather_within_walk (depth : Nat) (selections : List Selection) (gathered : Gathered) :
    gatherWithin schema scope objectName depth selections gathered =
      walk (fragmentMentions schema scope objectName) depth
        (mentions schema scope objectName selections) gathered := by
  induction depth generalizing selections gathered with
  | zero =>
      have nowhere : expandNamed schema scope objectName (fun _ gathered => gathered) =
          enterWithin (fragmentMentions schema scope objectName) 0 := by
        funext name gathered
        rw [expandNamed, enterWithin]
        split
        · rfl
        · split <;> rfl
      rw [gatherWithin, gather_with_walk, nowhere, walk]
  | succ depth ih =>
      have inward : expandNamed schema scope objectName
            (gatherWithin schema scope objectName depth) =
          enterWithin (fragmentMentions schema scope objectName) (depth + 1) := by
        funext name gathered
        rw [expandNamed, enterWithin, fragmentMentions]
        cases scope.document.fragment? name with
        | none => rfl
        | some fragment =>
            dsimp only
            split
            · exact ih fragment.node.selections gathered
            · rfl
      rw [gatherWithin, gather_with_walk, inward, walk]

/-- What is gathered on one walk along all that selection sets mention. -/
def gatheredFrom (selectionSets : List (List Selection)) : Gathered :=
  walk (fragmentMentions schema scope objectName) scope.document.fragments.length
    (selectionSets.flatMap (mentions schema scope objectName)) ⟨[], []⟩

/-- The fields that selection sets ask for are met on one walk. -/
theorem fields_asked_walk (selectionSets : List (List Selection)) :
    fieldsAsked schema scope objectName selectionSets =
      (gatheredFrom schema scope objectName selectionSets).fields := by
  have step (sets : List (List Selection)) (gathered : Gathered) :
      sets.foldl (fun gathered selections =>
          gatherWithin schema scope objectName scope.document.fragments.length selections gathered)
          gathered =
        walk (fragmentMentions schema scope objectName) scope.document.fragments.length
          (sets.flatMap (mentions schema scope objectName)) gathered := by
    induction sets generalizing gathered with
    | nil => rfl
    | cons selections rest ih =>
        rw [List.foldl_cons, gather_within_walk, ih, List.flatMap_cons, walk_append]
  exact congrArg Gathered.fields (step selectionSets ⟨[], []⟩)

/-- Only fragments of the document mention anything. -/
theorem fragment_mentions_unknown (name : String)
    (unknown : name ∉ scope.document.fragments.map (·.node.name.node)) :
    fragmentMentions schema scope objectName name = [] := by
  have missing : scope.document.fragment? name = none := by
    rw [Document.fragment?, List.find?_eq_none]
    intro fragment member same
    exact unknown (List.mem_map.mpr ⟨fragment, member, eq_of_beq same⟩)
  rw [fragmentMentions, missing]

end Gathering

namespace Gathered

/-- A field was met, or a fragment opened. -/
def Has (gathered : Gathered) : Mention → Prop
  | .field field => field ∈ gathered.fields
  | .fragment name => name ∈ gathered.visited

/-- More was met and opened in the end; what was met before stands in front. -/
structure Grows (gathered later : Gathered) : Prop where
  visited : ∀ name ∈ gathered.visited, name ∈ later.visited
  fields : gathered.fields <+: later.fields

/-- All that opened fragments mention was met, but for those that are still being walked through. -/
def Closed (content : String → List Mention) (inside : List String) (gathered : Gathered) : Prop :=
  ∀ name ∈ gathered.visited, name ∉ inside → ∀ mention ∈ content name, gathered.Has mention

/-- How many of some names were not opened. -/
def unopened (names : List String) (gathered : Gathered) : Nat :=
  (names.toFinset \ gathered.visited.toFinset).card

variable {content : String → List Mention} {inside names : List String}
  {gathered middle later : Gathered}

theorem Grows.refl (gathered : Gathered) : gathered.Grows gathered :=
  ⟨fun _ member => member, List.prefix_rfl⟩

theorem Grows.trans (first : gathered.Grows middle) (second : middle.Grows later) :
    gathered.Grows later :=
  ⟨fun name member => second.visited name (first.visited name member),
    first.fields.trans second.fields⟩

theorem Grows.has (grows : gathered.Grows later) {mention : Mention} (had : gathered.Has mention) :
    later.Has mention := by
  cases mention with
  | field field => exact grows.fields.subset had
  | fragment name => exact grows.visited name had

theorem Grows.unopened_le (grows : gathered.Grows later) (names : List String) :
    later.unopened names ≤ gathered.unopened names := by
  apply Finset.card_le_card
  apply Finset.sdiff_subset_sdiff (Finset.Subset.refl _)
  intro name member
  exact List.mem_toFinset.mpr (grows.visited name (List.mem_toFinset.mp member))

theorem unopened_mark {name : String} (known : name ∈ names) (fresh : name ∉ gathered.visited) :
    unopened names ⟨name :: gathered.visited, gathered.fields⟩ < gathered.unopened names := by
  apply Finset.card_lt_card
  refine ⟨Finset.sdiff_subset_sdiff (Finset.Subset.refl _) (by simp), fun back => ?_⟩
  have left : name ∈ names.toFinset \ gathered.visited.toFinset := by simp [known, fresh]
  simpa using back left

end Gathered

/-- A walk along mentions kept what there was, closed what it opened and left nothing out. -/
structure Walked (content : String → List Mention) (inside : List String) (list : List Mention)
    (gathered later : Gathered) : Prop where
  grows : gathered.Grows later
  closed : later.Closed content inside
  has : ∀ mention ∈ list, later.Has mention

namespace Walked

variable {content : String → List Mention} {inside names : List String} {depth : Nat}
  {gathered : Gathered}

/-- Marking a fragment keeps all closed but the fragment itself. -/
theorem mark_closed (closed : gathered.Closed content inside) (name : String) :
    Gathered.Closed content (name :: inside) ⟨name :: gathered.visited, gathered.fields⟩ := by
  intro other member apart mention mentioned
  have marked : gathered.Grows ⟨name :: gathered.visited, gathered.fields⟩ :=
    ⟨fun _ => List.mem_cons_of_mem _, List.prefix_rfl⟩
  rcases List.mem_cons.mp member with rfl | opened
  · exact absurd List.mem_cons_self apart
  · have outside : other ∉ inside := fun within => apart (List.mem_cons_of_mem _ within)
    exact marked.has (closed other opened outside mention mentioned)

/-- Leaving a fragment whose mentions were all met. -/
theorem leave {name : String} {later : Gathered}
    (walked : Walked content (name :: inside) (content name)
      ⟨name :: gathered.visited, gathered.fields⟩ later) :
    Walked content inside [.fragment name] gathered later where
  grows := ⟨fun other member => walked.grows.visited other (List.mem_cons_of_mem _ member),
    walked.grows.fields⟩
  closed := by
    intro other member apart
    by_cases same : other = name
    · rw [same]
      exact walked.has
    · exact walked.closed other member (by simp [same, apart])
  has := by
    intro mention member
    rw [List.mem_singleton.mp member]
    exact walked.grows.visited name List.mem_cons_self

theorem nil (closed : gathered.Closed content inside) :
    Walked content inside [] gathered gathered :=
  ⟨.refl gathered, closed, fun _ absent => by cases absent⟩

theorem cons {mention : Mention} {rest : List Mention} {middle later : Gathered}
    (first : Walked content inside [mention] gathered middle)
    (others : Walked content inside rest middle later) :
    Walked content inside (mention :: rest) gathered later where
  grows := first.grows.trans others.grows
  closed := others.closed
  has := by
    intro other member
    rcases List.mem_cons.mp member with rfl | inside
    · exact others.grows.has (first.has other (by simp))
    · exact others.has other inside

/-- A walk is complete if each of its steps is, as long as no more fragments are unopened. -/
theorem of_steps {expand : String → Gathered → Gathered} {bound : Nat}
    (step : ∀ {gathered : Gathered}, gathered.Closed content inside →
      gathered.unopened names ≤ bound → ∀ mention,
        Walked content inside [mention] gathered (meet expand gathered mention))
    (list : List Mention) (closed : gathered.Closed content inside)
    (enough : gathered.unopened names ≤ bound) :
    Walked content inside list gathered (walkWith expand list gathered) := by
  induction list generalizing gathered with
  | nil => exact .nil closed
  | cons mention rest ih =>
      have first := step closed enough mention
      have fewer := first.grows.unopened_le names
      exact first.cons (ih first.closed (fewer.trans enough))

/-- A step is complete if going into unopened fragments of the document is. -/
theorem of_entering (unknown : ∀ name ∉ names, content name = [])
    (closed : gathered.Closed content inside)
    (enters : ∀ name ∈ names, name ∉ gathered.visited →
      Walked content (name :: inside) (content name) ⟨name :: gathered.visited, gathered.fields⟩
        (enterWithin content depth name ⟨name :: gathered.visited, gathered.fields⟩))
    (mention : Mention) :
    Walked content inside [mention] gathered
      (meet (enterWithin content depth) gathered mention) := by
  cases mention with
  | field field =>
      have grows : gathered.Grows { gathered with fields := gathered.fields ++ [field] } :=
        ⟨fun _ member => member, List.prefix_append _ _⟩
      refine ⟨grows, fun name opened apart mention mentioned => ?_, fun mention member => ?_⟩
      · exact grows.has (closed name opened apart mention mentioned)
      · rw [List.mem_singleton.mp member]
        exact List.mem_append_right _ (by simp)
  | fragment name =>
      rw [meet]
      by_cases opened : name ∈ gathered.visited
      · rw [if_pos opened]
        refine ⟨.refl gathered, closed, fun mention member => ?_⟩
        rw [List.mem_singleton.mp member]
        exact opened
      · rw [if_neg opened]
        by_cases known : name ∈ names
        · exact leave (enters name known opened)
        · have nothing := unknown name known
          rw [enter_nothing content depth nothing]
          apply leave
          rw [nothing]
          exact .nil (mark_closed closed name)

/--
A walk that may go as deep as there are unopened fragments is complete. Every fragment it goes into
is one fewer to open, so the fragments run out before the depth does.
-/
theorem of_walk (unknown : ∀ name ∉ names, content name = []) (list : List Mention)
    (closed : gathered.Closed content inside) (enough : gathered.unopened names ≤ depth) :
    Walked content inside list gathered (walk content depth list gathered) := by
  induction depth generalizing list gathered inside with
  | zero =>
      refine of_steps (fun closed none_left => of_entering unknown closed ?_) list closed enough
      intro name known fresh
      have fewer := Gathered.unopened_mark known fresh
      omega
  | succ depth ih =>
      refine of_steps (fun closed left => of_entering unknown closed ?_) list closed enough
      intro name known fresh
      have fewer := Gathered.unopened_mark known fresh
      exact ih (content name) (mark_closed closed name) (by omega)

end Walked

section Start

variable (schema : Schema) (scope : RequestScope) (objectName : String)

theorem nothing_closed (content : String → List Mention) (inside : List String) :
    (⟨[], []⟩ : Gathered).Closed content inside :=
  fun _ opened => by cases opened

theorem nothing_unopened :
    (⟨[], []⟩ : Gathered).unopened (scope.document.fragments.map (·.node.name.node)) ≤
      scope.document.fragments.length := by
  have distinct := List.toFinset_card_le (scope.document.fragments.map (·.node.name.node))
  simpa [Gathered.unopened] using distinct

/-- Once the depth is no less than the number of unopened fragments, it makes no difference. -/
theorem walk_stable {content : String → List Mention} {names : List String}
    (unknown : ∀ name ∉ names, content name = []) {depth more : Nat} (le : depth ≤ more)
    (list : List Mention) {gathered : Gathered} (enough : gathered.unopened names ≤ depth) :
    walk content more list gathered = walk content depth list gathered := by
  induction depth using Nat.strong_induction_on generalizing more list gathered with
  | _ depth deeper =>
      induction list generalizing gathered with
      | nil => rfl
      | cons mention rest ih =>
          have opens : gathered.Closed content gathered.visited :=
            fun name member outside => absurd member outside
          have grows := (Walked.of_walk unknown [mention] opens enough).grows
          have same : meet (enterWithin content more) gathered mention =
              meet (enterWithin content depth) gathered mention := by
            cases mention with
            | field field => rfl
            | fragment name =>
                rw [meet, meet]
                split
                · rfl
                · rename_i fresh
                  by_cases known : name ∈ names
                  · have fewer := Gathered.unopened_mark known fresh
                    obtain ⟨less, rfl⟩ : ∃ less, depth = less + 1 := ⟨depth - 1, by omega⟩
                    obtain ⟨less', rfl⟩ : ∃ less', more = less' + 1 := ⟨more - 1, by omega⟩
                    exact deeper less (Nat.lt_succ_self less) (by omega) (content name) (by omega)
                  · rw [enter_nothing content _ (unknown name known),
                      enter_nothing content _ (unknown name known)]
          rw [walk_cons, walk_cons, same]
          exact ih ((grows.unopened_le names).trans enough)

/-- Collecting from selection sets is a walk, at whatever depth. -/
theorem collect_sets_walk (depth : Nat) (sets : List (List Selection)) (gathered : Gathered) :
    sets.foldl (fun collected selections =>
        collectWithin schema scope objectName depth selections collected) gathered.collected =
      (walk (fragmentMentions schema scope objectName) depth
        (sets.flatMap (mentions schema scope objectName)) gathered).collected := by
  induction sets generalizing gathered with
  | nil => rfl
  | cons selections rest ih =>
      rw [List.foldl_cons, collect_within_collected, ih, gather_within_walk, List.flatMap_cons,
        walk_append]

/-- Fragments are never expanded deeper than there are fragments. -/
theorem collect_fields_stable {depth : Nat} (enough : scope.document.fragments.length ≤ depth)
    (selectionSets : List (List Selection)) :
    (selectionSets.foldl (fun collected selections =>
        collectWithin schema scope objectName depth selections collected) ⟨[], []⟩).groups =
      collectFields schema scope objectName selectionSets := by
  have unknown := fragment_mentions_unknown schema scope objectName
  have walked := collect_sets_walk schema scope objectName depth selectionSets ⟨[], []⟩
  have stable := walk_stable unknown enough
    (selectionSets.flatMap (mentions schema scope objectName)) (nothing_unopened scope)
  rw [stable, ← collect_sets_walk] at walked
  exact congrArg Collected.groups walked

/-- The walk that collecting takes is complete. -/
theorem gathered_from_walked (selectionSets : List (List Selection)) :
    Walked (fragmentMentions schema scope objectName) []
      (selectionSets.flatMap (mentions schema scope objectName)) ⟨[], []⟩
      (gatheredFrom schema scope objectName selectionSets) :=
  .of_walk (fragment_mentions_unknown schema scope objectName) _ (nothing_closed _ _)
    (nothing_unopened scope)

end Start

end GraphQL
