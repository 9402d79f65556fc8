import GraphQL.Proofs.SourceNames
import Mathlib.Data.List.Nodup

/-!
The nodes of a document: the fields that are written in it, at any depth.

A selection set has nodes of its own; all others stand below a node, in the selections of which they
are. In a document that was read no two nodes are the same, for their names are different tokens of
the source.
-/

namespace GraphQL

mutual

/-- The fields that are written in selections, at any depth. -/
def selectionNodes : List Selection → List (Located Field)
  | [] => []
  | selection :: rest => selection.nodes ++ selectionNodes rest

def Selection.nodes : Selection → List (Located Field)
  | .field ⟨⟨aliasName, name, arguments, directives, none⟩, span⟩ =>
      [⟨⟨aliasName, name, arguments, directives, none⟩, span⟩]
  | .field ⟨⟨aliasName, name, arguments, directives, some selections⟩, span⟩ =>
      ⟨⟨aliasName, name, arguments, directives, some selections⟩, span⟩ ::
        selectionNodes selections
  | .spread _ => []
  | .inline ⟨⟨_, _, selections⟩, _⟩ => selectionNodes selections

end

mutual

/-- The fields of selections that do not stand below another one. -/
def ownNodes : List Selection → List (Located Field)
  | [] => []
  | selection :: rest => selection.ownNodes ++ ownNodes rest

def Selection.ownNodes : Selection → List (Located Field)
  | .field field => [field]
  | .spread _ => []
  | .inline ⟨⟨_, _, selections⟩, _⟩ => GraphQL.ownNodes selections

end

/-- The fields right below another one. -/
def nodesBelow (field : Located Field) : List (Located Field) :=
  ownNodes (field.node.selections.getD [])

/-- The selections of an operation or a fragment. -/
def Definition.selections : Definition → List Selection
  | .operation located => located.node.selections
  | .fragment located => located.node.selections
  | .type _ | .extension _ => []

namespace Document

/-- The fields that are written in a document, at any depth. -/
def nodes (document : Document) : List (Located Field) :=
  document.definitions.flatMap fun definition => selectionNodes definition.selections

/-- The own fields of a fragment, if there is one of that name. -/
def namedNodes (document : Document) (name : String) : List (Located Field) :=
  ((document.fragment? name).map fun fragment => ownNodes fragment.node.selections).getD []

end Document

section Levels

theorem perm_interchange (first second third last : List α) :
    ((first ++ second) ++ (third ++ last)).Perm ((first ++ third) ++ (second ++ last)) := by
  have middle : (second ++ third).Perm (third ++ second) := List.perm_append_comm
  simpa using (middle.append_right last).append_left first

theorem own_nodes_append (first second : List Selection) :
    ownNodes (first ++ second) = ownNodes first ++ ownNodes second := by
  induction first with
  | nil => rw [List.nil_append, ownNodes, List.nil_append]
  | cons selection rest ih => rw [List.cons_append, ownNodes, ownNodes, ih, List.append_assoc]

mutual

/-- The nodes of selections are their own ones and those below nodes. -/
theorem nodes_own_and_below :
    ∀ selections, (selectionNodes selections).Perm
      (ownNodes selections ++ (selectionNodes selections).flatMap nodesBelow)
  | [] => by
      rw [selectionNodes, ownNodes]
      exact .nil
  | selection :: rest => by
      rw [selectionNodes, ownNodes, List.flatMap_append]
      exact ((selection_nodes_own_and_below selection).append
        (nodes_own_and_below rest)).trans (perm_interchange _ _ _ _)

theorem selection_nodes_own_and_below :
    ∀ selection : Selection, selection.nodes.Perm
      (selection.ownNodes ++ selection.nodes.flatMap nodesBelow)
  | .field ⟨⟨_, _, _, _, none⟩, _⟩ => by
      rw [Selection.nodes, Selection.ownNodes, List.flatMap_singleton, nodesBelow,
        Option.getD_none, ownNodes, List.append_nil]
  | .field ⟨⟨_, _, _, _, some selections⟩, _⟩ => by
      rw [Selection.nodes, Selection.ownNodes, List.flatMap_cons, nodesBelow, Option.getD_some]
      exact (nodes_own_and_below selections).cons _
  | .spread _ => by
      rw [Selection.nodes, Selection.ownNodes]
      exact .nil
  | .inline ⟨⟨_, _, selections⟩, _⟩ => by
      rw [Selection.nodes, Selection.ownNodes]
      exact nodes_own_and_below selections

end

/-- The nodes of a document are the own ones of operations and fragments, and those below nodes. -/
theorem Document.nodes_by_level (document : Document) :
    document.nodes.Perm
      (document.operations.flatMap (fun operation => ownNodes operation.node.selections) ++
        document.fragments.flatMap (fun fragment => ownNodes fragment.node.selections) ++
          document.nodes.flatMap nodesBelow) := by
  obtain ⟨definitions, span⟩ := document
  simp only [nodes, operations, fragments]
  induction definitions with
  | nil => exact .nil
  | cons definition rest ih =>
      have both := (nodes_own_and_below definition.selections).append ih
      rw [List.flatMap_cons, List.flatMap_append]
      refine (both.trans (perm_interchange _ _ _ _)).trans (List.Perm.append_right _ ?_)
      cases definition with
      | operation => exact .of_eq (List.append_assoc _ _ _).symm
      | fragment => exact List.perm_append_comm_assoc ..
      | type => exact .rfl
      | extension => exact .rfl

end Levels

section Reading

theorem byte_length_pos {text : List Char} (filled : text ≠ []) : 0 < byteLength text := by
  obtain ⟨c, rest, rfl⟩ := List.exists_cons_of_ne_nil filled
  exact Nat.add_pos_left c.utf8Size_pos _

/-- Every token begins behind the start of the one before. -/
theorem Scanned.starts_ascend {before text : List Char} {tokens : List (Located Token)}
    {fault : Option (Located LexError)} (scanned : Scanned before text tokens fault) :
    tokens.Pairwise fun first second => first.span.start.index < second.span.start.index := by
  induction scanned with
  | ended => exact List.pairwise_singleton _ _
  | faulty => exact .nil
  | @token before space token _ _ _ _ _ filled _ others ih =>
      refine .cons (fun other member => ?_) ih
      refine Nat.lt_of_lt_of_le ?_ (others.later.1 other member)
      have filled := byte_length_pos filled
      simp [Position.behind, byte_length_append]
      omega

/-- The names of nodes are leaves of their phrases, in the same order. -/
def NamesAmong (nodes : List (Located Field)) (parts : List Phrase) : Prop :=
  (nodes.map (·.node.name.span)).Sublist ((Phrase.partLeaves parts).map (·.span))

namespace NamesAmong

variable {nodes more : List (Located Field)} {parts others : List Phrase}

theorem nothing (parts : List Phrase) : NamesAmong [] parts := List.nil_sublist _

theorem append (here : NamesAmong nodes parts) (there : NamesAmong more others) :
    NamesAmong (nodes ++ more) (parts ++ others) := by
  rw [NamesAmong, part_leaves_append, List.map_append, List.map_append]
  exact List.Sublist.append here there

theorem behind (before : List Phrase) (there : NamesAmong nodes parts) :
    NamesAmong nodes (before ++ parts) :=
  (nothing before).append there

theorem before (here : NamesAmong nodes parts) (others : List Phrase) :
    NamesAmong nodes (parts ++ others) := by
  have both := here.append (nothing others)
  rwa [List.append_nil] at both

theorem named {node : Located Field} {token : Located Token}
    (placed : (Phrase.named node.node.name token).Placed) (there : NamesAmong nodes parts) :
    NamesAmong (node :: nodes) (.named node.node.name token :: parts) := by
  cases placed with
  | named _ same =>
      rw [NamesAmong, List.map_cons, same]
      exact there.cons_cons token.span

theorem inside (span : Span) (there : NamesAmong nodes parts) :
    NamesAmong nodes [.node span parts] := by
  rw [NamesAmong, Phrase.partLeaves, Phrase.leaves, Phrase.partLeaves, List.append_nil]
  exact there

end NamesAmong

/-- What holds of selections in a row holds of a selection set. -/
theorem set_names_among {selections : List Selection} {parts : List Phrase}
    (set : SelectionSetForm selections parts) (placed : AllPlaced parts)
    (among : ∀ {parts}, Each SelectionForm selections parts → AllPlaced parts →
      NamesAmong (selectionNodes selections) parts) :
    NamesAmong (selectionNodes selections) parts := by
  cases set with
  | marks _ _ each =>
      have inner := among each fun part member =>
        placed part (List.mem_cons_of_mem _ (List.mem_append_left _ member))
      exact (inner.before _).behind [_]

mutual

theorem selections_names_among : ∀ (selections : List Selection) {parts : List Phrase},
    Each SelectionForm selections parts → AllPlaced parts →
      NamesAmong (selectionNodes selections) parts
  | [], _, _, _ => by
      rw [selectionNodes]
      exact .nothing _
  | selection :: rest, _, .cons first others, placed => by
      obtain ⟨here, there⟩ := List.forall_mem_append.mp placed
      rw [selectionNodes]
      exact (selection_names_among selection first here).append
        (selections_names_among rest others there)

theorem selection_names_among : ∀ (selection : Selection) {parts : List Phrase},
    SelectionForm selection parts → AllPlaced parts → NamesAmong selection.nodes parts
  | .field ⟨⟨_, _, _, _, none⟩, span⟩, _, form, placed => by
      cases form with
      | @field _ _ _ _ _ _ _ aliasParts =>
          obtain ⟨-, here⟩ := List.forall_mem_append.mp (placed _ List.mem_cons_self).inner
          rw [Selection.nodes]
          exact ((NamesAmong.named (here _ List.mem_cons_self) (.nothing _)).behind _).inside span
  | .field ⟨⟨_, _, _, _, some selections⟩, span⟩, _, form, placed => by
      cases form with
      | field before arguments directives set =>
          cases set with
          | present set =>
              obtain ⟨-, here⟩ := List.forall_mem_append.mp (placed _ List.mem_cons_self).inner
              obtain ⟨own, others⟩ := List.forall_mem_cons.mp here
              have last := set_names_among set
                (fun part member => others part (by simp [member]))
                (selections_names_among selections)
              rw [Selection.nodes]
              exact ((NamesAmong.named own ((last.behind _).behind _)).behind _).inside span
  | .spread _, _, _, _ => by
      rw [Selection.nodes]
      exact .nothing _
  | .inline ⟨⟨_, _, selections⟩, span⟩, _, form, placed => by
      cases form with
      | inline mark on directives set =>
          have last := set_names_among set
            (fun part member => (placed _ List.mem_cons_self).inner part (by simp [member]))
            (selections_names_among selections)
          rw [Selection.nodes]
          exact (((last.behind _).behind _).behind [_]).inside span

end

theorem definition_names_among {definition : Definition} {parts : List Phrase}
    (form : DefinitionForm definition parts) (placed : AllPlaced parts) :
    NamesAmong (selectionNodes definition.selections) parts := by
  cases form with
  | operation inside =>
      cases inside with
      | node form =>
          refine NamesAmong.inside _ ?_
          have each := (placed _ List.mem_cons_self).inner
          cases form with
          | bare set => exact set_names_among set each (selections_names_among _)
          | keyword word named inputs directives set =>
              have last := set_names_among set (fun part member => each part (by simp [member]))
                (selections_names_among _)
              exact (((last.behind _).behind _).behind _).behind [_]
  | fragment inside =>
      cases inside with
      | node form =>
          refine NamesAmong.inside _ ?_
          have each := (placed _ List.mem_cons_self).inner
          cases form with
          | fragment word onWord directives set =>
              have last := set_names_among set (fun part member => each part (by simp [member]))
                (selections_names_among _)
              exact (last.behind _).behind [_, _, _, _]
  | type => exact .nothing _
  | extension => exact .nothing _

theorem definitions_names_among {definitions : List Definition} {parts : List Phrase}
    (each : Each DefinitionForm definitions parts) (placed : AllPlaced parts) :
    NamesAmong (definitions.flatMap fun definition => selectionNodes definition.selections)
      parts := by
  induction each with
  | nil => exact .nothing _
  | cons first others ih =>
      obtain ⟨here, there⟩ := List.forall_mem_append.mp placed
      exact (definition_names_among first here).append (ih there)

/-- No two nodes of a document that was read have their names in one place. -/
theorem Document.nodes_read_distinct {source : String} {document : Document}
    (read : Document.ofSource source = .ok document) : document.nodes.Nodup := by
  have read : Document.ofText source.toList = .ok document := read
  obtain ⟨trees, each, placed, among⟩ := Document.of_text_built read
  have scanned : Scanned [] source.toList (TokenStream.ofText source.toList).tokens
      (TokenStream.ofText source.toList).fault :=
    scan_from_scanned (by simp) (Nat.lt_succ_self _)
  have ascending := scanned.starts_ascend.sublist among
  have different : ((Phrase.partLeaves trees).map (·.span)).Nodup := by
    refine List.pairwise_map.mpr (ascending.imp fun {first second} before same => ?_)
    rw [same] at before
    exact Nat.lt_irrefl _ before
  exact List.Nodup.of_map _ ((definitions_names_among each placed).nodup different)

end Reading

end GraphQL
