import GraphQL.Proofs.ChainExpansion
import GraphQL.Proofs.Derivation
import GraphQL.Proofs.DocumentNodes
import GraphQL.Proofs.SpelledTexts
import Mathlib.Data.List.Flatten

/-!
Collecting from a document whose fragments spread each other in any way.

One collection goes over the own nodes of the selection sets that it is given, and over those of a
fragment when it opens that fragment, which it does once. So it meets every node of the document at
most once, and it is never inside of more fragments than the document has.
-/

namespace GraphQL

/--
The selection sets from which fields of a document are collected: those of an operation, and those
of nodes that were collected together.
-/
inductive Document.Offers (document : Document) : List (List Selection) → Prop where
  | operation {operation} (member : operation ∈ document.operations) :
      Offers document [operation.node.selections]
  | group {fields : List (Located Field)} (once : fields.Subperm document.nodes) :
      Offers document (fields.filterMap fun field => field.node.selections)

/-- Collects with at most so many expansions within each other, and in some way beyond these. -/
def collectBefore (schema : Schema) (scope : RequestScope) (objectName : String)
    (beyond : List Selection → Collected → Collected) :
    Nat → List Selection → Collected → Collected
  | 0 => collectWith schema scope objectName beyond
  | depth + 1 => collectWith schema scope objectName
      (collectBefore schema scope objectName beyond depth)

section Ending

variable {schema : Schema} {scope : RequestScope} {objectName : String}
  {expand other : List Selection → Collected → Collected}

/-- How many fragments of a document are still to be spread. -/
def RequestScope.left (scope : RequestScope) (collected : Collected) : Nat :=
  Gathered.unopened scope.document.fragmentNames ⟨collected.visited, []⟩

/-- Two ways to expand do the same where fewer fragments are left, and forget none. -/
def AgreeBelow (scope : RequestScope) (bound : Nat)
    (expand other : List Selection → Collected → Collected) : Prop :=
  ∀ selections collected, scope.left collected < bound →
    expand selections collected = other selections collected ∧
      collected.visited ⊆ (expand selections collected).visited

theorem left_of_subset {collected later : Collected} (kept : collected.visited ⊆ later.visited) :
    scope.left later ≤ scope.left collected := by
  have grows : Gathered.Grows ⟨collected.visited, []⟩ ⟨later.visited, []⟩ :=
    ⟨fun _ member => kept member, List.prefix_rfl⟩
  exact grows.unopened_le _

theorem left_of_fresh {collected : Collected} {name : String}
    (known : name ∈ scope.document.fragmentNames) (fresh : name ∉ collected.visited) :
    scope.left ⟨name :: collected.visited, collected.groups⟩ < scope.left collected := by
  have fresh : name ∉ (⟨collected.visited, []⟩ : Gathered).visited := fresh
  have fewer := Gathered.unopened_mark known fresh
  exact fewer

theorem spread_agrees {bound : Nat} (agree : AgreeBelow scope bound expand other)
    (spread : FragmentSpread) {collected : Collected} (few : scope.left collected ≤ bound) :
    spreadInto schema scope objectName expand spread collected =
        spreadInto schema scope objectName other spread collected ∧
      collected.visited ⊆ (spreadInto schema scope objectName expand spread collected).visited := by
  have marked : collected.visited ⊆ spread.name.node :: collected.visited :=
    List.subset_cons_self _ _
  rw [spreadInto, spreadInto]
  split
  · exact ⟨rfl, List.Subset.refl _⟩
  · rename_i opens
    cases found : scope.document.fragment? spread.name.node with
    | none => exact ⟨rfl, marked⟩
    | some fragment =>
        dsimp only
        split
        · have fresh : spread.name.node ∉ collected.visited := by
            simp only [Bool.or_eq_true, decide_eq_true_iff, not_or] at opens
            exact opens.2
          have fewer := left_of_fresh (Document.mem_fragment_names found) fresh
          obtain ⟨same, kept⟩ := agree fragment.node.selections
            ⟨spread.name.node :: collected.visited, collected.groups⟩ (fewer.trans_le few)
          exact ⟨same, List.Subset.trans marked kept⟩
        · exact ⟨rfl, marked⟩

mutual

theorem collect_with_agrees {bound : Nat} (agree : AgreeBelow scope bound expand other) :
    ∀ (selections : List Selection) (collected : Collected), scope.left collected ≤ bound →
      collectWith schema scope objectName expand selections collected =
          collectWith schema scope objectName other selections collected ∧
        collected.visited ⊆
          (collectWith schema scope objectName expand selections collected).visited
  | [], collected, _ => by
      rw [collectWith, collectWith]
      exact ⟨rfl, List.Subset.refl _⟩
  | selection :: rest, collected, few => by
      obtain ⟨same, kept⟩ := collect_one_agrees agree selection collected few
      obtain ⟨following, kept'⟩ :=
        collect_with_agrees agree rest _ ((left_of_subset kept).trans few)
      rw [collectWith, collectWith, ← same]
      exact ⟨following, List.Subset.trans kept kept'⟩

theorem collect_one_agrees {bound : Nat} (agree : AgreeBelow scope bound expand other) :
    ∀ (selection : Selection) (collected : Collected), scope.left collected ≤ bound →
      collectOne schema scope objectName expand selection collected =
          collectOne schema scope objectName other selection collected ∧
        collected.visited ⊆
          (collectOne schema scope objectName expand selection collected).visited
  | .field field, collected, _ => by
      rw [collectOne, collectOne]
      split <;> exact ⟨rfl, List.Subset.refl _⟩
  | .spread spread, collected, few => by
      rw [collectOne, collectOne]
      exact spread_agrees agree spread.node few
  | .inline ⟨⟨condition, directives, selections⟩, _⟩, collected, few => by
      rw [collectOne, collectOne]
      split
      · exact collect_with_agrees agree selections collected few
      · exact ⟨rfl, List.Subset.refl _⟩

end

/-- What stands beyond the last expansion is not reached from where fewer fragments are left. -/
theorem collect_before_agrees (beyond : List Selection → Collected → Collected) (depth : Nat) :
    AgreeBelow scope (depth + 1) (collectBefore schema scope objectName beyond depth)
      (collectWithin schema scope objectName depth) := by
  induction depth with
  | zero =>
      have none_left : AgreeBelow scope 0 beyond fun _ collected => collected :=
        fun _ _ few => absurd few (Nat.not_lt_zero _)
      exact fun selections collected few =>
        collect_with_agrees none_left selections collected (Nat.le_of_lt_succ few)
  | succ depth ih =>
      exact fun selections collected few =>
        collect_with_agrees ih selections collected (Nat.le_of_lt_succ few)

/-- Collecting is never inside of more fragments than there are. -/
theorem collect_before_fields (beyond : List Selection → Collected → Collected) {depth : Nat}
    (enough : scope.document.fragments.length ≤ depth) (sets : List (List Selection)) :
    (sets.foldl (fun collected selections =>
        collectBefore schema scope objectName beyond depth selections collected) ⟨[], []⟩).groups =
      collectFields schema scope objectName sets := by
  have agree : AgreeBelow scope (depth + 1) (collectBefore schema scope objectName beyond depth)
      (collectWithin schema scope objectName depth) := collect_before_agrees beyond depth
  have step (sets : List (List Selection)) (collected : Collected)
      (few : scope.left collected < depth + 1) :
      sets.foldl (fun collected selections =>
          collectBefore schema scope objectName beyond depth selections collected) collected =
        sets.foldl (fun collected selections =>
          collectWithin schema scope objectName depth selections collected) collected := by
    induction sets generalizing collected with
    | nil => rfl
    | cons selections rest ih =>
        obtain ⟨same, kept⟩ := agree selections collected few
        rw [List.foldl_cons, List.foldl_cons, ← same]
        exact ih _ ((left_of_subset kept).trans_lt few)
  have few : scope.left ⟨[], []⟩ < depth + 1 :=
    Nat.lt_succ_of_le ((nothing_unopened scope).trans enough)
  rw [step sets ⟨[], []⟩ few]
  exact collect_fields_stable schema scope objectName enough sets

end Ending
/-- The field that is mentioned, if it is one. -/
def Mention.field? : Mention → Option (Located Field)
  | .field node => some node
  | .fragment _ => none

/-- The fields among mentions. -/
def mentionedFields (list : List Mention) : List (Located Field) := list.filterMap Mention.field?

@[simp]
theorem mentioned_fields_field (field : Located Field) (rest : List Mention) :
    mentionedFields (.field field :: rest) = field :: mentionedFields rest := rfl

@[simp]
theorem mentioned_fields_fragment (name : String) (rest : List Mention) :
    mentionedFields (.fragment name :: rest) = mentionedFields rest := rfl

/--
A walk opened some fragments, none of them twice, and met new fields no more often than they are
mentioned where it started and in what it opened.
-/
structure Tallied (content : String → List Mention) (list : List Mention) (opened : List String)
    (new : List (Located Field)) (gathered later : Gathered) : Prop where
  visited : later.visited = opened ++ gathered.visited
  distinct : later.visited.Nodup
  fields : later.fields = gathered.fields ++ new
  once : new.Subperm
    (mentionedFields list ++ opened.flatMap fun name => mentionedFields (content name))

namespace Tallied

variable {content : String → List Mention} {list rest : List Mention} {opened more : List String}
  {new others : List (Located Field)} {gathered middle later : Gathered}

theorem nothing (distinct : gathered.visited.Nodup) (list : List Mention) :
    Tallied content list [] [] gathered gathered :=
  ⟨rfl, distinct, (List.append_nil _).symm, List.nil_subperm⟩

theorem field {field : Located Field}
    (tallied : Tallied content rest opened new
      { gathered with fields := gathered.fields ++ [field] } later) :
    Tallied content (.field field :: rest) opened (field :: new) gathered later where
  visited := tallied.visited
  distinct := tallied.distinct
  fields := by rw [tallied.fields, List.append_assoc, List.singleton_append]
  once := by
    rw [mentioned_fields_field]
    exact (List.subperm_cons field).mpr tallied.once

theorem again (tallied : Tallied content rest opened new gathered later) (name : String) :
    Tallied content (.fragment name :: rest) opened new gathered later :=
  ⟨tallied.visited, tallied.distinct, tallied.fields, by
    rw [mentioned_fields_fragment]
    exact tallied.once⟩

/-- Going into a fragment and on from there. -/
theorem enter {name : String}
    (inside : Tallied content (content name) opened new
      ⟨name :: gathered.visited, gathered.fields⟩ middle)
    (onward : Tallied content rest more others middle later) :
    Tallied content (.fragment name :: rest) (more ++ (opened ++ [name])) (new ++ others)
      gathered later where
  visited := by
    rw [onward.visited, inside.visited, List.append_assoc, List.append_assoc,
      List.singleton_append]
  distinct := onward.distinct
  fields := by rw [onward.fields, inside.fields, List.append_assoc]
  once := by
    refine (inside.once.append onward.once).trans (List.Perm.subperm ?_)
    classical
    rw [List.perm_iff_count]
    intro node
    simp only [mentioned_fields_fragment, List.flatMap_append, List.flatMap_singleton,
      List.count_append]
    omega

/-- A walk keeps the tally if going into fragments does. -/
theorem of_steps {expand : String → Gathered → Gathered}
    (enters : ∀ name (gathered : Gathered), gathered.visited.Nodup →
      ∃ opened new, Tallied content (content name) opened new gathered (expand name gathered))
    (list : List Mention) {gathered : Gathered} (distinct : gathered.visited.Nodup) :
    ∃ opened new, Tallied content list opened new gathered (walkWith expand list gathered) := by
  induction list generalizing gathered with
  | nil => exact ⟨[], [], nothing distinct []⟩
  | cons mention rest ih =>
      have step : walkWith expand (mention :: rest) gathered =
          walkWith expand rest (meet expand gathered mention) := rfl
      rw [step]
      cases mention with
      | field field =>
          have onward : (⟨gathered.visited, gathered.fields ++ [field]⟩ : Gathered).visited.Nodup :=
            distinct
          obtain ⟨opened, new, tallied⟩ := ih onward
          exact ⟨opened, field :: new, tallied.field⟩
      | fragment name =>
          rw [meet]
          split
          · obtain ⟨opened, new, tallied⟩ := ih distinct
            exact ⟨opened, new, tallied.again name⟩
          · rename_i fresh
            obtain ⟨opened, new, inside⟩ :=
              enters name ⟨name :: gathered.visited, gathered.fields⟩
                (List.nodup_cons.mpr ⟨fresh, distinct⟩)
            obtain ⟨more, others, onward⟩ := ih inside.distinct
            exact ⟨_, _, inside.enter onward⟩

theorem of_walk (content : String → List Mention) (depth : Nat) (list : List Mention)
    {gathered : Gathered} (distinct : gathered.visited.Nodup) :
    ∃ opened new, Tallied content list opened new gathered
      (walk content depth list gathered) := by
  induction depth generalizing list gathered with
  | zero => exact of_steps (fun _ _ distinct => ⟨[], [], nothing distinct _⟩) list distinct
  | succ depth ih =>
      exact of_steps (fun name _ distinct => ih (content name) distinct) list distinct

end Tallied

section Nodes

variable {schema : Schema} {scope : RequestScope} {objectName : String}

mutual

/-- Selections mention none but their own fields, each where it stands. -/
theorem mentioned_own :
    ∀ selections, (mentionedFields (mentions schema scope objectName selections)).Sublist
      (ownNodes selections)
  | [] => by
      rw [mentions, ownNodes]
      exact List.nil_sublist _
  | selection :: rest => by
      rw [mentions, ownNodes, mentionedFields, List.filterMap_append]
      exact (mentioned_own_one selection).append (mentioned_own rest)

theorem mentioned_own_one :
    ∀ selection, (mentionedFields (mentionsOne schema scope objectName selection)).Sublist
      selection.ownNodes
  | .field field => by
      rw [mentionsOne, Selection.ownNodes]
      split
      · exact List.Sublist.refl _
      · exact List.nil_sublist _
  | .spread spread => by
      rw [mentionsOne, Selection.ownNodes]
      split <;> exact List.nil_sublist _
  | .inline ⟨⟨condition, directives, selections⟩, _⟩ => by
      rw [mentionsOne, Selection.ownNodes]
      split
      · exact mentioned_own selections
      · exact List.nil_sublist _

end

theorem mentioned_named (name : String) :
    (mentionedFields (fragmentMentions schema scope objectName name)).Sublist
      (scope.document.namedNodes name) := by
  rw [fragmentMentions, Document.namedNodes]
  cases scope.document.fragment? name with
  | none => exact List.nil_sublist _
  | some fragment =>
      dsimp only
      split
      · exact mentioned_own _
      · exact List.nil_sublist _

/-- What is asked for is mentioned at the start, or in fragments of which none counts twice. -/
theorem fields_asked_once (schema : Schema) (scope : RequestScope) (objectName : String)
    (sets : List (List Selection)) :
    ∃ opened : List String, opened.Nodup ∧
      (fieldsAsked schema scope objectName sets).Subperm
        (ownNodes sets.flatten ++ opened.flatMap scope.document.namedNodes) := by
  have start : (⟨[], []⟩ : Gathered).visited.Nodup := List.nodup_nil
  obtain ⟨opened, new, tallied⟩ := Tallied.of_walk (fragmentMentions schema scope objectName)
    scope.document.fragments.length (mentions schema scope objectName sets.flatten)
    start
  refine ⟨opened, ?_, ?_⟩
  · have distinct := tallied.distinct
    rwa [tallied.visited, List.append_nil] at distinct
  · rw [fields_asked_walk, gatheredFrom, mentions_flatten, tallied.fields, List.nil_append]
    refine tallied.once.trans (List.Sublist.subperm ?_)
    exact (mentioned_own _).append
      (List.Sublist.flatMap_right opened fun name _ => mentioned_named name)

end Nodes

/-- Different names find different entries of a list. -/
theorem found_once (entries : List (Located Fragment)) (own : Located Fragment → List α)
    {names : List String} (distinct : names.Nodup) :
    (names.flatMap fun name =>
        ((entries.find? fun entry => entry.node.name.node == name).map own).getD []).Subperm
      (entries.flatMap own) := by
  induction entries generalizing names with
  | nil => simp
  | cons entry rest ih =>
      have elsewhere (others : List String) (apart : ∀ name ∈ others, entry.node.name.node ≠ name) :
          others.flatMap (fun name =>
              (((entry :: rest).find? fun entry => entry.node.name.node == name).map own).getD []) =
            others.flatMap fun name =>
              ((rest.find? fun entry => entry.node.name.node == name).map own).getD [] := by
        refine List.flatMap_congr fun name member => ?_
        rw [List.find?_cons_of_neg (by simpa using apart name member)]
      rw [List.flatMap_cons]
      by_cases named : entry.node.name.node ∈ names
      · have others := elsewhere (names.erase entry.node.name.node) fun name member same =>
          ((distinct.mem_erase_iff).mp member).1 same.symm
        refine ((List.perm_cons_erase named).flatMap_right _).subperm.trans ?_
        rw [List.flatMap_cons, others, List.find?_cons_of_pos (by simp), Option.map_some,
          Option.getD_some]
        exact (List.subperm_append_left _).mpr (ih (distinct.erase _))
      · rw [elsewhere names fun name member same => named (same ▸ member)]
        exact (ih distinct).trans (List.sublist_append_right _ _).subperm

/-- Different names stand for different fragments. -/
theorem Document.named_nodes_once {opened : List String} (distinct : opened.Nodup)
    (document : Document) :
    (opened.flatMap document.namedNodes).Subperm
      (document.fragments.flatMap fun fragment => ownNodes fragment.node.selections) := by
  exact found_once document.fragments (fun fragment => ownNodes fragment.node.selections) distinct

/-- The own nodes of the selections of some fields are the nodes below them. -/
theorem own_nodes_below (fields : List (Located Field)) :
    ownNodes (fields.filterMap fun field => field.node.selections).flatten =
      fields.flatMap nodesBelow := by
  induction fields with
  | nil => rw [List.filterMap_nil, List.flatten_nil, List.flatMap_nil, ownNodes]
  | cons field rest ih =>
      cases has : field.node.selections with
      | none =>
          rw [List.filterMap_cons, has, ih, List.flatMap_cons, nodesBelow, has,
            Option.getD_none, ownNodes, List.nil_append]
      | some selections =>
          rw [List.filterMap_cons, has, List.flatten_cons, own_nodes_append, ih,
            List.flatMap_cons, nodesBelow, has, Option.getD_some]

/-- What a document offers has own nodes that are no fragment's. -/
theorem Document.Offers.own_nodes {document : Document} {sets : List (List Selection)}
    (offers : document.Offers sets) :
    (ownNodes sets.flatten ++
      document.fragments.flatMap fun fragment => ownNodes fragment.node.selections).Subperm
        document.nodes := by
  refine List.Subperm.trans ?_ document.nodes_by_level.symm.subperm
  cases offers with
  | @operation operation member =>
      have among : (ownNodes operation.node.selections).Sublist
          (document.operations.flatMap fun operation => ownNodes operation.node.selections) :=
        List.sublist_flatten_of_mem (List.mem_map_of_mem member)
      rw [List.flatten_singleton]
      exact ((among.append_right _).trans (List.sublist_append_left _ _)).subperm
  | @group fields once =>
      obtain ⟨kept, same, among⟩ := once
      rw [own_nodes_below]
      refine List.perm_append_comm.subperm.trans (List.Subperm.append ?_ ?_)
      · exact (List.sublist_append_right _ _).subperm
      · exact (same.symm.flatMap_right nodesBelow).subperm.trans (among.flatMap nodesBelow).subperm

/-- Collecting meets no node more often than it is written. -/
theorem Document.Offers.asked_once {schema : Schema} {scope : RequestScope} {objectName : String}
    {sets : List (List Selection)} (offers : scope.document.Offers sets) :
    (fieldsAsked schema scope objectName sets).Subperm scope.document.nodes := by
  obtain ⟨opened, distinct, asked⟩ := fields_asked_once schema scope objectName sets
  have named := scope.document.named_nodes_once distinct
  exact asked.trans (((List.subperm_append_left _).mpr named).trans offers.own_nodes)

/-- Groups hold the fields that were grouped. -/
theorem grouped_perm (fields : List (Located Field)) :
    ((grouped fields).flatMap FieldGroup.fields).Perm fields := by
  have added (field : Located Field) (groups : List FieldGroup) :
      ((addToGroups field groups).flatMap FieldGroup.fields).Perm
        (groups.flatMap FieldGroup.fields ++ [field]) := by
    induction groups with
    | nil => exact .rfl
    | cons group rest ih =>
        rw [addToGroups]
        split
        · have behind : (group.fields ++ [field] ++ rest.flatMap FieldGroup.fields).Perm
              (group.fields ++ rest.flatMap FieldGroup.fields ++ [field]) := by
            rw [List.append_assoc, List.append_assoc]
            exact List.perm_append_comm.append_left group.fields
          simpa [FieldGroup.fields] using behind
        · rw [List.flatMap_cons, List.flatMap_cons, List.append_assoc]
          exact ih.append_left group.fields
  induction fields using List.reverseRecOn with
  | nil => exact .rfl
  | append_singleton fields field ih =>
      rw [grouped_append_one]
      exact (added field _).trans (ih.append_right [field])

/--
Collecting, compared with the reference that expands every spread outside of itself. It comes to an
end within as many fragments as there are, whatever would be done beyond. The reference comes to an
end as well, and what it expands to is matched by the groups. These hold nodes of the document, none
of them more often than it is written, and so do the groups that are collected below them; in a
document that was read that is at most once.
-/
theorem collecting_matches_expanding (schema : Schema) (scope : RequestScope) (objectName : String)
    (sets : List (List Selection)) :
    (∀ beyond depth, scope.document.fragments.length ≤ depth →
      (sets.foldl (fun collected selections =>
          collectBefore schema scope objectName beyond depth selections collected)
        ⟨[], []⟩).groups = collectFields schema scope objectName sets) ∧
    (∃ fields, Expands schema scope objectName [] sets.flatten fields) ∧
    (∀ fields, Expands schema scope objectName [] sets.flatten fields →
      MatchesExpansion fields (collectFields schema scope objectName sets)) ∧
    (scope.document.Offers sets →
      ((collectFields schema scope objectName sets).flatMap FieldGroup.fields).Subperm
          scope.document.nodes ∧
        (∀ group ∈ collectFields schema scope objectName sets,
          scope.document.Offers group.selectionSets) ∧
        ∀ source, Document.ofSource source = .ok scope.document →
          ((collectFields schema scope objectName sets).flatMap FieldGroup.fields).Nodup) := by
  refine ⟨fun beyond _ enough => collect_before_fields beyond enough sets,
    expands_total schema scope objectName [] sets.flatten, fun _ => collected_matches, ?_⟩
  intro offers
  have once : ((collectFields schema scope objectName sets).flatMap FieldGroup.fields).Subperm
      scope.document.nodes := by
    rw [collect_fields_grouped]
    exact (grouped_perm _).subperm.trans offers.asked_once
  refine ⟨once, fun group member => .group ?_, fun source read => ?_⟩
  · have among : group.fields.Sublist
        ((collectFields schema scope objectName sets).flatMap FieldGroup.fields) :=
      List.sublist_flatten_of_mem (List.mem_map_of_mem member)
    exact among.subperm.trans once
  · obtain ⟨kept, same, among⟩ := once
    exact same.nodup (among.nodup (Document.nodes_read_distinct read))

/-- A request whose fragments spread each other, themselves and one that is not defined. -/
def loopingRequest : String :=
  "\x7b dogs \x7b name \x7d ...A \x7d " ++
    "fragment A on Kennel \x7b name ...B @skip(if: false) ...C \x7d " ++
    "fragment B on Kennel \x7b ...A ...B other: name dogs \x7b name ...A \x7d \x7d"

theorem looping_request_collected :
    ∃ document operation, Document.ofSource loopingRequest = .ok document ∧
      operation ∈ document.operations ∧
      ((collectFields kennel.schema ⟨document, []⟩ "Kennel" [operation.node.selections]).map
          fun group => (group.key, group.fields.length)) =
        [("dogs", 2), ("name", 1), ("other", 1)] ∧
      (collectBefore kennel.schema ⟨document, []⟩ "Kennel" (fun _ _ => ⟨[], []⟩) 2
          operation.node.selections ⟨[], []⟩).groups =
        collectFields kennel.schema ⟨document, []⟩ "Kennel" [operation.node.selections] ∧
      (∃ fields, Expands kennel.schema ⟨document, []⟩ "Kennel" [] operation.node.selections fields ∧
        MatchesExpansion fields
          (collectFields kennel.schema ⟨document, []⟩ "Kennel" [operation.node.selections])) ∧
      ((collectFields kennel.schema ⟨document, []⟩ "Kennel"
        [operation.node.selections]).flatMap FieldGroup.fields).Nodup := by
  have collected : (Document.ofSource loopingRequest).toOption.map (fun document =>
      (document.fragments.length, document.operations.map fun operation =>
        (collectFields kennel.schema ⟨document, []⟩ "Kennel" [operation.node.selections]).map
          fun group => (group.key, group.fields.length))) =
      some (2, [[("dogs", 2), ("name", 1), ("other", 1)]]) := by
    have spelled : loopingRequest.toList = _ := append_spelled
      (append_spelled String.toList_ofList String.toList_ofList) String.toList_ofList
    rw [Document.ofSource, spelled]
    decide +kernel
  cases read : Document.ofSource loopingRequest with
  | error error =>
      rw [read] at collected
      cases collected
  | ok document =>
      rw [read] at collected
      obtain ⟨count, listed⟩ := Prod.mk.inj (Option.some.inj collected)
      obtain ⟨operation, only, groups⟩ := List.map_eq_singleton_iff.mp listed
      have member : operation ∈ document.operations := by
        rw [only]
        exact List.mem_singleton_self operation
      obtain ⟨ends, ⟨fields, expands⟩, reference, once⟩ :=
        collecting_matches_expanding kennel.schema ⟨document, []⟩ "Kennel"
          [operation.node.selections]
      have matched := reference fields expands
      rw [List.flatten_singleton] at expands
      exact ⟨document, operation, rfl, member, groups, ends _ 2 count.le,
        ⟨fields, expands, matched⟩, (once (.operation member)).2.2 loopingRequest read⟩

end GraphQL
