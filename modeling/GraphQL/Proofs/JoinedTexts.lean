import GraphQL.Proofs.AppendedTypes
import GraphQL.Proofs.InertDescriptions
import GraphQL.Proofs.NameIndices
import GraphQL.Proofs.ScanLocality
import GraphQL.Proofs.SpelledTexts

/-!
A text that goes on with the introspection types.

Behind the definitions of the text those of the introspection types are read, as they are on their
own, unless a type has one of their names. Only descriptions reach over the end of the text: with no
token behind them they describe nothing there, but they are in front of the first of these types.
-/

namespace GraphQL

section Descriptions

/-- A description with another one in front of it. -/
def prefacedText : Option String → Option String → Option String
  | none, text => text
  | some preface, none => some preface
  | some preface, some text => some (preface ++ " " ++ text)

/-- A definition with more text in front of its description; all else is as it was. -/
def Definition.prefaced (preface : Option String) (definition : Definition) : Definition :=
  definition.retoldAs (fun _ text => text) (prefacedText preface definition.description)

/-- Definitions with more text in front of the description of the first one. -/
def prefacedDefinitions (preface : Option String) : List Definition → List Definition
  | [] => []
  | first :: others => first.prefaced preface :: others

/-- A cursor with more text in front of the description of its next token. -/
def Cursor.prefaced (preface : Option String) : Cursor → Cursor
  | [] => []
  | entry :: rest => ⟨entry.token, prefacedText preface entry.description⟩ :: rest

theorem prefaced_nothing (preface : Option String) : prefacedText preface none = preface := by
  cases preface <;> rfl

theorem Cursor.prefaced_length (preface : Option String) (cursor : Cursor) :
    (cursor.prefaced preface).length = cursor.length := by
  cases cursor <;> rfl

theorem join_lines_append (lines more : List String) :
    Cursor.joinLines (lines ++ more) =
      prefacedText (Cursor.joinLines lines) (Cursor.joinLines more) := by
  induction lines with
  | nil => rfl
  | cons line rest ih =>
      cases rest with
      | nil =>
          cases more with
          | nil => rfl
          | cons next others => simp [Cursor.joinLines, prefacedText]
      | cons second others =>
          cases more with
          | nil => simp [Cursor.joinLines, prefacedText]
          | cons next last =>
              simpa [Cursor.joinLines, prefacedText, String.append_assoc] using ih

/-- Lines that were waiting are in front of the first description. -/
theorem attach_waiting (lines waiting : List String) (tokens : List (Located Token)) :
    Cursor.attach (lines ++ waiting) tokens =
      (Cursor.attach waiting tokens).prefaced (Cursor.joinLines lines) := by
  induction tokens generalizing waiting with
  | nil => rfl
  | cons token rest ih =>
      rcases description_or_ordinary token with ⟨line, described⟩ | ⟨ordinary, -⟩
      · rw [attach_description described, attach_description described, List.append_assoc]
        exact ih _
      · rw [attach_ordinary ordinary, attach_ordinary ordinary, join_lines_append]
        rfl

/-- What a text ends with waits for the tokens behind it. -/
theorem attach_append (waiting : List String) (front : List (Located Token)) :
    ∃ lines, ∀ behind, Cursor.attach waiting (front ++ behind) =
      Cursor.attach waiting front ++ Cursor.attach lines behind := by
  induction front generalizing waiting with
  | nil => exact ⟨waiting, fun _ => rfl⟩
  | cons token rest ih =>
      rcases description_or_ordinary token with ⟨line, described⟩ | ⟨ordinary, -⟩
      · obtain ⟨lines, split⟩ := ih (waiting ++ [trimmedLine line])
        refine ⟨lines, fun behind => ?_⟩
        rw [List.cons_append, attach_description described, attach_description described]
        exact split behind
      · obtain ⟨lines, split⟩ := ih []
        refine ⟨lines, fun behind => ?_⟩
        rw [List.cons_append, attach_ordinary ordinary, attach_ordinary ordinary, split]
        rfl

/-- Descriptions wait in the same way wherever their tokens are. -/
theorem attach_words (waiting : List String) {tokens others : List (Located Token)}
    (same : tokens.map (·.node) = others.map (·.node)) (view : Option String → Option String) :
    (Cursor.attach waiting tokens).words view = (Cursor.attach waiting others).words view := by
  induction tokens generalizing waiting others with
  | nil =>
      obtain rfl : others = [] := by simpa using same.symm
      rfl
  | cons token rest ih =>
      cases others with
      | nil => cases same
      | cons other more =>
          obtain ⟨alike, later⟩ : token.node = other.node ∧ _ := List.cons.inj same
          rcases description_or_ordinary token with ⟨line, described⟩ | ⟨ordinary, -⟩
          · rw [attach_description described, attach_description (alike ▸ described)]
            exact ih _ later
          · rw [attach_ordinary ordinary, attach_ordinary (alike ▸ ordinary)]
            exact congrArg₂ List.cons (congrArg (Prod.mk · _) alike) (ih [] later)

end Descriptions

section Kept

theorem described_same {α : Type} {described : α → α} (same : ∀ value, described value = value)
    (list : List (Located α)) : list.map (Located.map described) = list :=
  (List.map_congr_left fun value _ => congrArg (Located.mk · value.span) (same value.node)).trans
    (List.map_id list)

theorem FieldDefinition.described_id (field : FieldDefinition) : field.described id = field :=
  congrArg (fun arguments => FieldDefinition.mk field.name field.description arguments field.type
    field.deprecation) (described_same (fun _ => rfl) field.arguments)

theorem ObjectType.described_id (object : ObjectType) : object.described id = object :=
  congrArg (ObjectType.mk object.name object.description object.interfaces)
    (described_same FieldDefinition.described_id object.fields)

theorem TypeDefinition.described_id (type : TypeDefinition) : type.described id = type := by
  cases type with
  | object object => exact congrArg TypeDefinition.object object.described_id
  | interface interface =>
      exact congrArg (fun fields => TypeDefinition.interface ⟨_, _, fields⟩)
        (described_same FieldDefinition.described_id interface.fields)
  | enum enum =>
      exact congrArg (fun values => TypeDefinition.enum ⟨_, _, values⟩)
        (described_same (fun _ => rfl) enum.values)
  | inputObject input =>
      exact congrArg (fun fields => TypeDefinition.inputObject ⟨_, _, fields⟩)
        (described_same (fun _ => rfl) input.fields)
  | _ => rfl

/-- All of a definition is seen where all is seen of its descriptions. -/
theorem Definition.described_id (definition : Definition) : definition.described id = definition := by
  cases definition with
  | type located =>
      exact congrArg (fun type => Definition.type ⟨type, located.span⟩) located.node.described_id
  | extension located =>
      exact congrArg (fun object => Definition.extension ⟨object, located.span⟩)
        located.node.described_id
  | _ => rfl

theorem seen_all : Definition.seen id = Definition.placeless :=
  funext fun definition => congrArg Definition.placeless definition.described_id

/-- The same source again: its descriptions stay, and something may stand in place of its end. -/
def Retelling.kept (more : Option Cursor)
    (begins : ∀ cursor ∈ more, ∃ word span description rest,
      cursor = ⟨⟨.keyword word, span⟩, description⟩ :: rest) : Retelling :=
  ⟨fun _ text => text, more, begins⟩

theorem definitions_kept (definitions : List Definition) :
    definitions.map (Definition.retold fun _ text => text) = definitions := by
  refine (List.map_congr_left fun definition _ => ?_).trans (List.map_id definitions)
  exact (definition_retold_view id definition).trans definition.described_id

end Kept

section Prefaced

variable {cursor other : Cursor}

/-- Where both sources end alike, what is kept is the whole source. -/
theorem cursors_kept :
    (Retelling.kept none nofun).Cursors cursor other ↔ other = cursor ∧ cursor.Ended := by
  constructor
  · intro cursors
    induction cursors with
    | @last entry => exact ⟨rfl, [], entry, rfl, List.forall_mem_nil _⟩
    | onward goes => cases goes
    | @cons entry cursor other visible _ ih =>
        obtain ⟨rfl, front, last, rfl, others⟩ := ih
        exact ⟨rfl, entry :: front, last, rfl, List.forall_mem_cons.mpr ⟨visible, others⟩⟩
  · rintro ⟨rfl, ended⟩
    have closed : (Retelling.kept none nofun).Closed := rfl
    have kept := cursors_map closed ended
    rwa [show other.map (Retelling.kept none nofun).entry = other from List.map_id other] at kept

namespace Reader

/-- Where more text is in front of the next token, the definition there is described by it. -/
theorem definition_prefaced (preface : Option String) (ended : cursor.Ended)
    {left : Cursor} {found : Definition} (ran : definition.run cursor = .ok found left) :
    definition.run (cursor.prefaced preface) = .ok (found.prefaced preface) left := by
  obtain ⟨body, same, -, echoes⟩ := definition_entrance
  rw [same] at ran ⊢
  obtain ⟨token, description, rest, rfl, facing⟩ : ∃ token description rest,
      cursor = ⟨token, description⟩ :: rest ∧ (Retelling.kept none nofun).Facing
        (· = token.span.start) (⟨token, none⟩ :: rest) (⟨token, none⟩ :: rest) := by
    obtain ⟨front, last, rfl, visible⟩ := ended
    cases front with
    | nil => exact ⟨last.token, last.description, [], rfl, .last rfl⟩
    | cons entry others =>
        have later := (List.forall_mem_cons.mp visible).2
        exact ⟨entry.token, entry.description, others ++ [last], rfl,
          .cons rfl (cursors_kept.mpr ⟨rfl, others, last, rfl, later⟩)⟩
  change (body description).run (⟨token, none⟩ :: rest) = _ at ran
  change (body (prefacedText preface description)).run (⟨token, none⟩ :: rest) = _
  have echo := (echoes _ token.span.start description (prefacedText preface description)).run
    _ _ facing
  rw [ran] at echo
  obtain ⟨_, later, also, entitled, cursors⟩ := echo
  obtain ⟨rfl, -⟩ := cursors_kept.mp cursors
  refine also.trans ?_
  cases entitled with
  | operation | fragment => rfl
  | type there described | extension there described =>
      subst described
      rfl

theorem definitions_prefaced (preface : Option String) (ended : cursor.Ended) {count : Nat}
    {left : Cursor} {found : List Definition}
    (ran : (definitions count).run cursor = .ok found left) :
    (definitions count).run (cursor.prefaced preface) =
      .ok (prefacedDefinitions preface found) left := by
  cases count with
  | zero =>
      obtain ⟨_, _, -, failed⟩ := run_bind ran
      cases failed
  | succ count =>
      obtain ⟨first, middle, begun, others⟩ := run_bind ran
      rw [definitions, run_ok_bind (definition_prefaced preface ended begun)]
      rw [sees_run] at others ⊢
      cases seen : decide (ahead? middle = .endOfFile) with
      | true =>
          rw [seen] at others
          cases others
          rfl
      | false =>
          rw [seen] at others
          obtain ⟨rest, final, read, last⟩ := run_bind others
          cases last
          exact run_ok_bind read

end Reader

end Prefaced

section Joined

/-- A cursor begins with a keyword, as nearly all definitions do. -/
def Cursor.Worded (cursor : Cursor) : Prop :=
  ∃ word span description rest, cursor = ⟨⟨.keyword word, span⟩, description⟩ :: rest

theorem Cursor.worded_of_nodes {cursor : Cursor} {word : Keyword} {rest : List Token}
    (held : cursor.nodes = .keyword word :: rest) : cursor.Worded := by
  obtain ⟨token, behind, tokens, keyword, -⟩ := List.map_eq_cons_iff.mp held
  obtain ⟨entry, others, rfl, rfl, -⟩ := List.map_eq_cons_iff.mp tokens
  obtain ⟨⟨node, span⟩, description⟩ := entry
  obtain rfl : node = .keyword word := keyword
  exact ⟨word, span, description, others, rfl⟩

theorem Cursor.Worded.prefaced {cursor : Cursor} (begins : cursor.Worded)
    (preface : Option String) : (cursor.prefaced preface).Worded := by
  obtain ⟨word, span, description, rest, rfl⟩ := begins
  exact ⟨word, span, _, rest, rfl⟩

variable {front : Cursor} {ending : Entry} {more last left : Cursor}
  {found back : List Definition} {count : Nat}

/-- In place of the end of a source the definitions of another one are read. -/
theorem Reader.definitions_joined (visible : ∀ entry ∈ front, entry.token.node ≠ .endOfFile)
    (ended : ending.token.node = .endOfFile) (begins : more.Worded)
    (ran : (definitions count).run (front ++ [ending]) = .ok found left)
    (read : (definitions more.length).run more = .ok back last) :
    (definitions (front ++ more).length).run (front ++ more) = .ok (found ++ back) last := by
  have starts : ∀ cursor ∈ some more, cursor.Worded := by
    rintro _ ⟨⟩
    exact begins
  have cursors : (Retelling.kept (some more) starts).Cursors (front ++ [ending]) (front ++ more) := by
    clear ran
    induction front with
    | nil => exact .onward rfl ended
    | cons entry rest ih =>
        obtain ⟨first, others⟩ := List.forall_mem_cons.mp visible
        exact .cons first (ih others)
  have onward := definitions_onward rfl le_rfl read cursors le_rfl ran
  rwa [show found.map (Definition.retold (Retelling.kept (some more) starts).tell) = found from
    definitions_kept found] at onward

/-- A document that was read holds what is read from its tokens. -/
theorem document_ran {text : List Char} {document : Document}
    (read : Document.ofText text = .ok document) :
    (TokenStream.ofText text).fault = none ∧ ∃ left,
      (Reader.definitions (Cursor.attach [] (TokenStream.ofText text).tokens).length).run
        (Cursor.attach [] (TokenStream.ofText text).tokens) = .ok document.definitions left := by
  have complete := read_complete read
  rw [of_text_complete complete, Document.ofCursor] at read
  dsimp only at read
  split at read
  · cases read
  · rename_i definitions left ran
    rw [Document.ofDefinitions] at read
    split at read
    · cases read
    · cases read
      exact ⟨complete, left, ran⟩

variable {text rest : List Char} {document own : Document}

/-- A text with another one behind it has the tokens of both, without the end of the first one. -/
theorem joined_nodes {front : List (Located Token)} {ending : Located Token}
    (tokens : (TokenStream.ofText text).tokens = front ++ [ending])
    (ended : ending.node = .endOfFile) (complete : (TokenStream.ofText text).fault = none)
    (behind : (TokenStream.ofText rest).fault = none) :
    (TokenStream.ofText (text ++ '\n' :: rest)).fault = none ∧
      (TokenStream.ofText (text ++ '\n' :: rest)).tokens.map (·.node) =
        (front ++ (TokenStream.ofText rest).tokens).map (·.node) := by
  have cut := stream_cut complete
  rw [tokens, List.map_append, List.map_singleton, ended] at cut
  rw [List.map_append]
  exact (cut.before_line (stream_cut behind)).scans (Nat.lt_succ_self _) .origin

/-- A source up to its end, with the lines that describe nothing there but what is put behind. -/
structure Parted (text : List Char) (front : List (Located Token)) (ending : Located Token)
    (lines : List String) : Prop where
  whole : (TokenStream.ofText text).tokens = front ++ [ending]
  ended : ending.node = .endOfFile
  visible : ∀ entry ∈ Cursor.attach [] front, entry.token.node ≠ .endOfFile
  before : LinesBefore (TokenStream.ofText text).tokens lines ending
  goes_on : ∀ behind, Cursor.attach [] (front ++ behind) = Cursor.attach [] front ++
    (Cursor.attach [] behind).prefaced (Cursor.joinLines (lines.map trimmedLine))

theorem text_parted (complete : (TokenStream.ofText text).fault = none) :
    ∃ front ending lines, Parted text front ending lines := by
  obtain ⟨front, visible, tokens⟩ := (text_scanned text).reaches_end complete
  generalize final : Located.mk Token.endOfFile _ = ending at tokens
  have ended : ending.node = .endOfFile := final ▸ rfl
  obtain ⟨waiting, split⟩ := attach_append [] front
  have last : ⟨ending, Cursor.joinLines waiting⟩ ∈
      Cursor.attach [] (TokenStream.ofText text).tokens := by
    rw [tokens, split, attach_ordinary (by simp [ended])]
    exact List.mem_append_right _ List.mem_cons_self
  obtain ⟨lines, before, made⟩ := entry_lines last
  refine ⟨front, ending, lines, tokens, ended, fun entry there => ?_, before, fun behind => ?_⟩
  · have among : entry.token ∈ (Cursor.attach [] front).tokens := List.mem_map_of_mem there
    rw [attach_tokens] at among
    exact visible _ (List.mem_of_mem_filter among)
  · rw [split, ← made, ← attach_waiting waiting [], List.append_nil]

/--
Where another text goes on with a keyword behind a text, its definitions are read behind those of the
text, and what the text ends with describes the first of them.
-/
theorem joined_read (read : Document.ofText text = .ok document)
    (behind : Document.ofText rest = .ok own)
    (begins : (Cursor.attach [] (TokenStream.ofText rest).tokens).Worded) :
    ∃ lines ending, LinesBefore (TokenStream.ofText text).tokens lines ending ∧
      ending.node = .endOfFile ∧
        Document.shown id (Document.ofText (text ++ '\n' :: rest)) =
          Document.shown id (Document.ofDefinitions (document.definitions ++ prefacedDefinitions
            (Cursor.joinLines (lines.map trimmedLine)) own.definitions) .unplaced) := by
  obtain ⟨complete, left, ran⟩ := document_ran read
  obtain ⟨also, last, later⟩ := document_ran behind
  obtain ⟨front, ending, lines, parted⟩ := text_parted complete
  obtain ⟨scanned, nodes⟩ := joined_nodes parted.whole parted.ended complete also
  have cursor : Cursor.attach [] (TokenStream.ofText text).tokens = Cursor.attach [] front ++
      [⟨ending, Cursor.joinLines (lines.map trimmedLine)⟩] := by
    rw [parted.whole, parted.goes_on, attach_ordinary (by simp [parted.ended])]
    exact congrArg (fun text => _ ++ [Entry.mk ending text]) (prefaced_nothing _)
  -- What is read of the other text, with what the first one ends with in front of it.
  have prefaced := Reader.definitions_prefaced (Cursor.joinLines (lines.map trimmedLine))
    (cursor_ended also) later
  rw [← Cursor.prefaced_length] at prefaced
  rw [cursor] at ran
  have joined := Reader.definitions_joined parted.visible parted.ended (begins.prefaced _) ran
    prefaced
  rw [← parted.goes_on] at joined
  refine ⟨lines, ending, parted.before, parted.ended, ?_⟩
  rw [of_text_complete scanned, Document.of_cursor_shown (attach_words [] nodes id)]
  simp only [Document.ofCursor, joined]
  exact Document.of_definitions_shown rfl _ _

end Joined

section Names

variable {front back definitions : List Definition} {span : Span}

theorem accepted_keys {document : Document}
    (read : Document.ofDefinitions definitions span = .ok document) :
    (definitionKeys definitions).Nodup := by
  rw [Document.ofDefinitions] at read
  split at read
  · cases read
  · rename_i none_redeclared
    have apart := (Document.first_redeclared_none none_redeclared).1
    rwa [List.map_filterMap] at apart

/-- Where no name is taken, what is read makes up a document. -/
theorem read_distinct {text : List Char} {left : Cursor}
    (complete : (TokenStream.ofText text).fault = none)
    (ran : (Reader.definitions (Cursor.attach [] (TokenStream.ofText text).tokens).length).run
      (Cursor.attach [] (TokenStream.ofText text).tokens) = .ok definitions left)
    (distinct : (definitionKeys definitions).Nodup) :
    ∃ span, Document.ofText text = .ok ⟨definitions, span⟩ := by
  have apart : (declaredNames definitions).Nodup := by rwa [declaredNames, List.map_filterMap]
  rw [of_text_complete complete]
  simp only [Document.ofCursor, ran]
  exact ⟨_, of_definitions_distinct apart _⟩

theorem definition_keys_append (front back : List Definition) :
    definitionKeys (front ++ back) = definitionKeys front ++ definitionKeys back :=
  List.filterMap_append

/-- Where no name is taken, that of a definition is not among those in front of it. -/
theorem key_apart {again : Definition} {key : NameKind × String} (named : again.key? = some key)
    (distinct : (definitionKeys (front ++ again :: back)).Nodup) : key ∉ definitionKeys front := by
  rw [definition_keys_append, List.nodup_append] at distinct
  exact fun there => distinct.2.2 key there key
    (List.mem_filterMap.mpr ⟨again, List.mem_cons_self, named⟩) rfl

/-- Definitions that are fit by themselves are refused together if both have a name. -/
theorem joined_definitions (own : (definitionKeys front).Nodup)
    (others : (definitionKeys back).Nodup) (span : Span) :
    (∃ error kind name, Document.ofDefinitions (front ++ back) span = .error error ∧
      error.node = .duplicate kind name ∧ (kind, name) ∈ definitionKeys front ∧
        (kind, name) ∈ definitionKeys back) ∨
      (∀ key ∈ definitionKeys front, key ∉ definitionKeys back) ∧
        Document.ofDefinitions (front ++ back) span = .ok ⟨front ++ back, span⟩ := by
  cases read : Document.ofDefinitions (front ++ back) span with
  | ok document =>
      have distinct := accepted_keys read
      rw [definition_keys_append, List.nodup_append] at distinct
      rw [Document.ofDefinitions] at read
      split at read
      · cases read
      · exact .inr ⟨fun key there also => distinct.2.2 key there key also rfl, read.symm⟩
  | error error =>
      obtain ⟨before, again, rest, kind, name, whole, declared, taken, -, rfl⟩ :=
        refused_iff_first_taken.mp read
      have named := key_of_declared declared
      refine .inl ⟨_, kind, name.node, rfl, rfl, ?_⟩
      -- The definition that is refused stands behind the front, and its name is taken in there.
      obtain ⟨between, rfl, rfl⟩ : ∃ between, before = front ++ between ∧
          back = between ++ again :: rest := by
        rcases List.append_eq_append_iff.mp whole with behind | ⟨between, rfl, same⟩
        · exact behind
        · cases between with
          | nil => exact ⟨[], by simp, same.symm⟩
          | cons first inner =>
              obtain ⟨rfl, -⟩ := List.cons.inj same
              exact absurd taken (key_apart named own)
      rw [definition_keys_append, List.mem_append] at taken
      refine ⟨taken.resolve_right (key_apart named others), ?_⟩
      exact List.mem_filterMap.mpr ⟨again, by simp, named⟩

theorem prefaced_keys (preface : Option String) (definitions : List Definition) :
    definitionKeys (prefacedDefinitions preface definitions) = definitionKeys definitions := by
  cases definitions with
  | nil => rfl
  | cons first others =>
      have kept : (first.prefaced preface).key? = first.key? := by
        rw [Definition.key?, Definition.prefaced, Document.declared_retold, Definition.key?]
      rw [definitionKeys, prefacedDefinitions, List.filterMap_cons, kept, ← List.filterMap_cons]
      rfl

/-- With nothing in front of it a description is as it was. -/
theorem prefaced_by_nothing (definitions : List Definition) :
    prefacedDefinitions none definitions = definitions := by
  cases definitions with
  | nil => rfl
  | cons first others =>
      refine congrArg (· :: others) ?_
      exact (definition_retold_view id first).trans first.described_id

theorem type_key_iff {document : Document} {name : String} :
    (.type, name) ∈ definitionKeys document.definitions ↔
      name ∈ document.types.map TypeDefinition.name := by
  simp only [definitionKeys, List.mem_filterMap, types_held _ _, Document.types, List.mem_map]
  constructor
  · rintro ⟨definition, there, type, typed, named⟩
    exact ⟨type, ⟨definition, there, typed⟩, eq_of_beq named⟩
  · rintro ⟨type, ⟨definition, there, typed⟩, rfl⟩
    exact ⟨definition, there, type, typed, beq_self_eq_true _⟩

end Names

section Appended

open Introspection

theorem seen_keys (view : Option String → Option String) (definitions : List Definition) :
    definitionKeys (definitions.map (Definition.seen view)) = definitionKeys definitions := by
  rw [definitionKeys, List.filterMap_map]
  refine List.filterMap_congr fun definition _ => ?_
  rw [Function.comp_apply, Definition.key?, Document.declared_seen, Option.map_map]
  rfl

/-- The text behind a source is read as the introspection types. -/
theorem types_text_read : ∃ own, Document.ofText typesText = .ok own ∧
    own.definitions.map (Definition.seen undescribed) = types.map TypeDefinition.alone ∧
      (Cursor.attach [] (TokenStream.ofText typesText).tokens).Worded := by
  obtain ⟨complete, tokens⟩ := types_text_scanned
  have held : (Cursor.attach [] (TokenStream.ofText typesText).tokens).nodes =
      typeTokens types ++ [.endOfFile] := by
    rw [Cursor.nodes, attach_tokens, ← tokens, List.filter_map]
    rfl
  obtain ⟨found, left, ran, seen⟩ := types_read_back (List.cons_ne_nil _ _) types_writable
    types_end_otherwise.1 le_rfl held
  replace seen := seen.trans types_alone_seen.1
  have distinct : (definitionKeys found).Nodup := by
    rw [← seen_keys undescribed, seen]
    decide +kernel
  obtain ⟨span, read⟩ := read_distinct complete ran distinct
  obtain ⟨rest, begins⟩ := types_entrance.enters
  exact ⟨⟨found, span⟩, read, seen,
    Cursor.worded_of_nodes (held.trans (congrArg (· ++ [Token.endOfFile]) begins))⟩

theorem types_keys {own : List Definition}
    (seen : own.map (Definition.seen undescribed) = types.map TypeDefinition.alone) :
    ∀ key ∈ definitionKeys own, key.1 = .type := by
  rw [← seen_keys undescribed, seen]
  decide +kernel

/--
Behind a text the introspection types are read, and behind the definitions of the text, unless a type
of the text has the name of one of them: then that is refused. They are as they are on their own if
the text does not end with descriptions. If it does, these are in front of that of the first type.
-/
theorem introspection_types_behind {text : List Char} {document : Document}
    (read : Document.ofText text = .ok document) :
    ∃ own lines ending, Document.ofText typesText = .ok own ∧
      LinesBefore (TokenStream.ofText text).tokens lines ending ∧ ending.node = .endOfFile ∧
        ((∃ error name, Document.ofText (Schema.fullText text) = .error error ∧
          error.node = .duplicate .type name ∧
            name ∈ document.types.map TypeDefinition.name ∧
              name ∈ own.types.map TypeDefinition.name) ∨
          (∀ name ∈ document.types.map TypeDefinition.name,
            name ∉ own.types.map TypeDefinition.name) ∧
            ∃ joined, Document.ofText (Schema.fullText text) = .ok joined ∧
              (lines = [] → joined.definitions.map Definition.placeless =
                document.definitions.map Definition.placeless ++
                  own.definitions.map Definition.placeless) ∧
                joined.definitions.map Definition.placeless =
                  document.definitions.map Definition.placeless ++ (prefacedDefinitions
                    (Cursor.joinLines (lines.map trimmedLine)) own.definitions).map
                      Definition.placeless) := by
  obtain ⟨own, behind, seen, begins⟩ := types_text_read
  obtain ⟨lines, ending, before, ended, shown⟩ := joined_read read behind begins
  refine ⟨own, lines, ending, behind, before, ended, ?_⟩
  have first := accepted_keys (Document.of_text_indexed read)
  have second := accepted_keys (Document.of_text_indexed behind)
  rw [← prefaced_keys (Cursor.joinLines (lines.map trimmedLine))] at second
  have joined := joined_definitions first second .unplaced
  rw [prefaced_keys] at joined
  change Document.shown id (Document.ofText (Schema.fullText text)) = _ at shown
  rcases joined with ⟨error, kind, name, refused, duplicate, there, also⟩ | ⟨apart, accepted⟩
  · obtain rfl : kind = .type := types_keys seen _ also
    rw [refused] at shown
    cases outcome : Document.ofText (Schema.fullText text) with
    | ok joined =>
        rw [outcome] at shown
        cases shown
    | error other =>
        rw [outcome] at shown
        exact .inl ⟨other, name, rfl, (Except.error.inj shown).trans duplicate,
          type_key_iff.mp there, type_key_iff.mp also⟩
  · rw [accepted] at shown
    cases outcome : Document.ofText (Schema.fullText text) with
    | error other =>
        rw [outcome] at shown
        cases shown
    | ok joined =>
        rw [outcome] at shown
        have same := congrArg Document.definitions (Except.ok.inj shown)
        rw [Document.seen, Document.seen, seen_all, List.map_append] at same
        refine .inr ⟨fun name there also => ?_, joined, rfl, ?_, same⟩
        · exact apart _ (type_key_iff.mpr there) (type_key_iff.mpr also)
        · rintro rfl
          rwa [show prefacedDefinitions (Cursor.joinLines ([].map trimmedLine)) own.definitions =
            own.definitions from prefaced_by_nothing own.definitions] at same

/-- A source that ends with a description. -/
def looseText : List Char := "type Q \x7b f: Int \x7d ## foo".toList

/-- The last line of the source has become a part of the description of a built-in scalar. -/
theorem loose_line_describes_string : ∃ document own lines ending joined,
    Document.ofText looseText = .ok document ∧ Document.ofText typesText = .ok own ∧
      LinesBefore (TokenStream.ofText looseText).tokens lines ending ∧ ending.node = .endOfFile ∧
        Document.ofText (Schema.fullText looseText) = .ok joined ∧
          joined.definitions.map Definition.placeless =
            document.definitions.map Definition.placeless ++ (prefacedDefinitions
              (Cursor.joinLines (lines.map trimmedLine)) own.definitions).map
                Definition.placeless ∧
            (joined.type? "String").bind TypeDefinition.description =
              some "foo A UTF-8 character sequence" := by
  have told : (Document.ofText (Schema.fullText looseText)).toOption.bind (fun joined =>
      (joined.type? "String").bind TypeDefinition.description) =
        some "foo A UTF-8 character sequence" := by
    rw [Schema.full_text_spelled]
    decide +kernel
  have accepted : (Document.ofText looseText).toOption.isSome = true := by decide +kernel
  cases read : Document.ofText looseText with
  | error error =>
      rw [read] at accepted
      cases accepted
  | ok document =>
      obtain ⟨own, lines, ending, behind, before, ended, outcome⟩ := introspection_types_behind read
      rcases outcome with ⟨error, name, refused, -⟩ | ⟨-, joined, also, -, same⟩
      · rw [refused] at told
        cases told
      · rw [also] at told
        exact ⟨document, own, lines, ending, joined, rfl, behind, before, ended, also, same, told⟩

end Appended

end GraphQL
