import GraphQL.Proofs.ConstantDefaults
import GraphQL.Proofs.ReadingBack
import GraphQL.Proofs.ScannedTokens
import GraphQL.Proofs.SourceSpans

/-!
Names in what was read are names by the grammar.

A token that may stand for a name was scanned as a word, so its text is a valid name. Phrases take
their names from such tokens, and so do the literals that are made of phrases.
-/

namespace GraphQL

/-- A token that may stand for a name is the word of that name. -/
def Token.IsWord (token : Token) : Prop :=
  ∀ name, token.asName? = some name → token = .ofWord name ∧ Name.isValid name = true

section Scanning

variable {token : Token}

theorem Token.is_word_of_none (unnamed : token.asName? = none) : token.IsWord := by
  intro name named
  rw [unnamed] at named
  cases named

/-- Names, keywords and the reserved words are the words that may stand for names. -/
theorem Token.WellFormed.is_word (spelled : token.WellFormed) : token.IsWord := by
  intro found named
  cases token with
  | name text =>
      cases named
      obtain ⟨valid, free, no_keyword⟩ := spelled
      exact ⟨(Token.of_word_unreserved free no_keyword).symm, valid⟩
  | keyword word =>
      cases named
      exact keyword_is_word word
  | bool value =>
      cases value <;> cases named
      · exact ⟨rfl, by decide⟩
      · exact ⟨rfl, by decide⟩
  | null =>
      cases named
      exact ⟨rfl, by decide⟩
  | _ => cases named

/-- All tokens of a text that may stand for names are words. -/
theorem scan_from_words (count : Nat) (position : Position) (text : List Char) :
    ∀ token ∈ (TokenStream.scanFrom count position text).tokens, token.node.IsWord := by
  intro token member
  rcases scan_from_well_formed count position text token member with ended | spelled
  · rw [ended]
    exact Token.is_word_of_none rfl
  · exact spelled.is_word

end Scanning

/-- A phrase is where its words are, and its names are words. -/
structure Phrase.Worded (phrase : Phrase) : Prop where
  placed : phrase.Placed
  words : ∀ token ∈ phrase.leaves, token.node.IsWord

abbrev AllWorded (parts : List Phrase) : Prop := ∀ part ∈ parts, part.Worded

section Phrases

variable {α : Type} {form : Form α} {parts : List Phrase}

theorem Phrase.Worded.inside {span : Span} (worded : (Phrase.node span parts).Worded) :
    AllWorded parts := by
  obtain ⟨placed, words⟩ := worded
  cases placed with
  | node hull each =>
      intro part member
      refine ⟨each part member, fun token leaf => words token ?_⟩
      rw [Phrase.leaves, part_leaves]
      exact List.mem_flatMap_of_mem member leaf

theorem Phrase.Worded.valid {name : Located String} {token : Located Token}
    (worded : (Phrase.named name token).Worded) : name.Valid := by
  obtain ⟨placed, words⟩ := worded
  cases placed with
  | named same there => exact (words token (List.mem_singleton.mpr rfl) _ same).2

theorem Each.member {values : List α} (each : Each form values parts) {value : α}
    (member : value ∈ values) : ∃ own, form value own ∧ own ⊆ parts := by
  induction each with
  | nil => cases member
  | cons first others ih =>
      rcases List.mem_cons.mp member with rfl | later
      · exact ⟨_, first, List.subset_append_left _ _⟩
      · obtain ⟨own, there, among⟩ := ih later
        exact ⟨own, there, List.Subset.trans among (List.subset_append_right _ _)⟩

theorem Node.worded {located : Located α} (node : Node form located parts)
    (worded : AllWorded parts) : ∃ own, form located.node own ∧ AllWorded own := by
  cases node with
  | node inside => exact ⟨_, inside, (worded _ List.mem_cons_self).inside⟩

theorem Enclosed.inner {opening closing : Punctuator} {value : α}
    (enclosed : Enclosed opening closing form value parts) :
    ∃ own, form value own ∧ own ⊆ parts := by
  cases enclosed with
  | marks opens closes there =>
      refine ⟨_, there, fun part inside => ?_⟩
      exact List.mem_cons_of_mem _ (List.mem_append_left _ inside)

theorem Enclosed.worded {opening closing : Punctuator} {value : α}
    (enclosed : Enclosed opening closing form value parts) (worded : AllWorded parts) :
    ∃ own, form value own ∧ AllWorded own := by
  obtain ⟨own, there, among⟩ := enclosed.inner
  exact ⟨own, there, fun part inside => worded part (among inside)⟩

theorem Each.worded {values : List α} (each : Each form values parts)
    (worded : AllWorded parts) {value : α} (member : value ∈ values) :
    ∃ own, form value own ∧ AllWorded own := by
  obtain ⟨own, there, among⟩ := each.member member
  exact ⟨own, there, fun part inside => worded part (among inside)⟩

/-- A token that means an enum value is the word of it. -/
theorem Token.Means.enum_name {token : Token} {name : String} (means : token.Means (.enum name))
    (word : token.IsWord) : IsEnumName name := by
  have named : token.asName? = some name := by cases means <;> rfl
  obtain ⟨same, valid⟩ := word name named
  refine ⟨valid, fun reserved => ?_⟩
  have one_of : name = "true" ∨ name = "false" ∨ name = "null" := by simpa using reserved
  rcases one_of with rfl | rfl | rfl
  · rw [same, show Token.ofWord "true" = .bool true from rfl] at means
    cases means
  · rw [same, show Token.ofWord "false" = .bool false from rfl] at means
    cases means
  · rw [same, show Token.ofWord "null" = .null from rfl] at means
    cases means

/-- Names in constants that were read are valid. -/
theorem LiteralForm.formed {literal : Literal} (constant : literal.Constant)
    (made : LiteralForm literal parts) (worded : AllWorded parts) :
    literal.Formed (fun _ => True) true := by
  induction constant generalizing parts with
  | null => exact .null
  | int value => exact .int value
  | float value => exact .float trivial
  | string text => exact .string text
  | bool value => exact .bool value
  | enum name =>
      cases made with
      | scalar means =>
          exact .enum (means.enum_name
            ((worded _ List.mem_cons_self).words _ (List.mem_singleton.mpr rfl)))
  | list each ih =>
      cases made with
      | @scalar token _ means =>
          generalize token.node = found at means
          cases means
      | list items =>
          obtain ⟨inside, there, fit⟩ := items.worded worded
          refine .list fun item member => ?_
          obtain ⟨own, node, good⟩ := there.worded fit member
          obtain ⟨content, made, named⟩ := node.worded good
          exact ih item member made named
  | object distinct each ih =>
      cases made with
      | @scalar token _ means =>
          generalize token.node = found at means
          cases means
      | object fields =>
          obtain ⟨inside, there, fit⟩ := fields.worded worded
          refine .object distinct (fun field member => ?_) fun field member => ?_
          · obtain ⟨own, made, good⟩ := there.worded fit member
            cases made with
            | field mark content => exact (good _ List.mem_cons_self).valid
          · obtain ⟨own, made, good⟩ := there.worded fit member
            cases made with
            | field mark content =>
                obtain ⟨inner, made, named⟩ := content.worded fun part later =>
                  good part (List.mem_cons_of_mem _ (List.mem_cons_of_mem _ later))
                exact ih _ member made named

end Phrases

section Documents

/-- The definitions of a document that was read are made of phrases over its tokens, in order. -/
theorem Document.of_text_built {text : List Char} {document : Document}
    (read : Document.ofText text = .ok document) :
    ∃ trees, Each DefinitionForm document.definitions trees ∧ (∀ tree ∈ trees, tree.Placed) ∧
      (Phrase.partLeaves trees).Sublist (TokenStream.ofText text).tokens := by
  have stream (source : String) (same : source.toList = text) :
      TokenStream.ofSource source = .ofText text := by rw [TokenStream.ofSource, same]
  have scanned := stream (String.ofList text) String.toList_ofList
  unfold Document.ofText Document.ofStream at read
  split at read
  · cases read
  rename_i cursor found
  obtain ⟨tokens, -⟩ := cursor_tokens (scanned ▸ found)
  unfold Document.ofCursor at read
  split at read
  · cases read
  rename_i definitions left ran
  obtain ⟨trees, taken, placed, each, -⟩ :=
    (Reader.definitions_build _).run cursor definitions left (fun _ _ => trivial) ran
  unfold Document.ofDefinitions at read
  split at read
  · cases read
  cases read
  rw [scanned, TokenStream.grammatical, taken] at tokens
  refine ⟨trees, each, placed, ?_⟩
  exact (List.sublist_append_left _ _).trans (tokens ▸ List.filter_sublist)

/-- The definitions of a document that was read are made of phrases whose names are words. -/
theorem Document.of_text_worded {text : List Char} {document : Document}
    (read : Document.ofText text = .ok document) :
    ∀ definition ∈ document.definitions, ∃ parts, DefinitionForm definition parts ∧
      AllWorded parts := by
  obtain ⟨trees, each, placed, among⟩ := Document.of_text_built read
  have words : ∀ tree ∈ trees, tree.Worded := by
    refine fun tree member => ⟨placed tree member, fun token leaf => ?_⟩
    have there : token ∈ Phrase.partLeaves trees := by
      rw [part_leaves]
      exact List.mem_flatMap_of_mem member leaf
    exact scan_from_words _ _ _ token (among.subset there)
  exact fun definition member => each.worded words member

/-- The types of a document that was read have valid names. -/
theorem Document.of_text_types_named {text : List Char} {document : Document}
    (read : Document.ofText text = .ok document) :
    ∀ type ∈ document.types, Name.isValid type.name = true := by
  intro type member
  obtain ⟨definition, there, same⟩ := List.mem_filterMap.mp member
  obtain ⟨parts, made, worded⟩ := Document.of_text_worded read definition there
  cases made with
  | type node =>
      cases same
      obtain ⟨own, form, good⟩ := node.worded worded
      generalize Located.node _ = type at form
      cases form with
      | object inside =>
          cases inside
          exact (good _ (List.mem_cons_of_mem _ List.mem_cons_self)).valid
      | _ => exact (good _ (List.mem_cons_of_mem _ List.mem_cons_self)).valid
  | _ => cases same

end Documents

end GraphQL
