import GraphQL.Proofs.AlikeDefinitions
import GraphQL.Proofs.HushedDescriptions
import GraphQL.Proofs.RetoldDocuments
import Mathlib.Data.List.Nodup

/-!
Descriptions do nothing but describe what comes next.

A source whose descriptions are made comments is read as before but for the descriptions. Where a
document is read, the description of each node that can have one is made of the lines in front of its
first token. To see this, a source is read with the descriptions that it has at the places of its
tokens, and with none elsewhere or with some: it is the same source in both cases, and so each
description is found at a token.
-/

namespace GraphQL

section Described

/-! The descriptions of all that can have one, each with the place where what it describes begins. -/

def inputDescriptions (inputs : List (Located InputDefinition)) :
    List (Position × Option String) :=
  inputs.map fun input => (input.span.start, input.node.description)

def fieldDescriptions (fields : List (Located FieldDefinition)) :
    List (Position × Option String) :=
  fields.flatMap fun field =>
    (field.span.start, field.node.description) :: inputDescriptions field.node.arguments

def valueDescriptions (values : List (Located EnumValueDefinition)) :
    List (Position × Option String) :=
  values.map fun value => (value.span.start, value.node.description)

def TypeDefinition.partDescriptions : TypeDefinition → List (Position × Option String)
  | .scalar _ | .union _ => []
  | .object definition => fieldDescriptions definition.fields
  | .interface definition => fieldDescriptions definition.fields
  | .enum definition => valueDescriptions definition.values
  | .inputObject definition => inputDescriptions definition.fields

def Definition.descriptions : Definition → List (Position × Option String)
  | .operation _ | .fragment _ => []
  | .type located =>
      (located.span.start, located.node.description) :: located.node.partDescriptions
  | .extension located =>
      (located.span.start, located.node.description) :: fieldDescriptions located.node.fields

def Document.descriptions (document : Document) : List (Position × Option String) :=
  document.definitions.flatMap Definition.descriptions

/-- A document without its descriptions. -/
def Document.undescribed (document : Document) : Document :=
  { document with definitions := document.definitions.map (Definition.described GraphQL.undescribed) }

variable (tell : Position → Option String → Option String)

/-- A description told anew for the place where it is. -/
def toldAt (described : Position × Option String) : Position × Option String :=
  (described.1, tell described.1 described.2)

theorem input_descriptions_retold (inputs : List (Located InputDefinition)) :
    inputDescriptions (inputs.map (Located.retold (InputDefinition.retold tell))) =
      (inputDescriptions inputs).map (toldAt tell) := by
  rw [inputDescriptions, inputDescriptions, List.map_map, List.map_map]
  rfl

theorem value_descriptions_retold (values : List (Located EnumValueDefinition)) :
    valueDescriptions (values.map (Located.retold (EnumValueDefinition.retold tell))) =
      (valueDescriptions values).map (toldAt tell) := by
  rw [valueDescriptions, valueDescriptions, List.map_map, List.map_map]
  rfl

theorem field_descriptions_retold (fields : List (Located FieldDefinition)) :
    fieldDescriptions (fields.map (Located.retold (FieldDefinition.retold tell))) =
      (fieldDescriptions fields).map (toldAt tell) := by
  rw [fieldDescriptions, fieldDescriptions, List.flatMap_map, List.map_flatMap]
  refine List.flatMap_congr fun field _ => congrArg (List.cons _) ?_
  exact input_descriptions_retold tell field.node.arguments

theorem definition_descriptions_retold (definition : Definition) :
    (definition.retold tell).descriptions = definition.descriptions.map (toldAt tell) := by
  match definition with
  | .operation _ | .fragment _ => rfl
  | .extension located => exact congrArg (List.cons _) (field_descriptions_retold tell _)
  | .type ⟨type, _⟩ =>
      cases type with
      | scalar | union => rfl
      | object | interface => exact congrArg (List.cons _) (field_descriptions_retold tell _)
      | enum => exact congrArg (List.cons _) (value_descriptions_retold tell _)
      | inputObject => exact congrArg (List.cons _) (input_descriptions_retold tell _)

theorem document_descriptions_retold (document : Document) :
    (document.retold tell).descriptions = document.descriptions.map (toldAt tell) := by
  rw [Document.descriptions, Document.descriptions, Document.retold, List.flatMap_map,
    List.map_flatMap]
  exact List.flatMap_congr fun definition _ => definition_descriptions_retold tell definition

/-- Where places do not matter, what is told is what is seen. -/
theorem definition_retold_view (view : Option String → Option String) (definition : Definition) :
    definition.retold (fun _ => view) = definition.described view := by
  match definition with
  | .operation _ | .fragment _ | .extension _ => rfl
  | .type ⟨type, _⟩ => cases type <;> rfl

theorem document_undescribed (document : Document) :
    document.retold (fun _ => undescribed) = document.undescribed := by
  rw [Document.retold, Document.undescribed]
  exact congrArg (Document.mk · document.span)
    (List.map_congr_left fun definition _ => definition_retold_view undescribed definition)

end Described

section Cursors

/-- A cursor of a source: the end token comes last and nowhere else. -/
def Cursor.Ended (cursor : Cursor) : Prop :=
  ∃ front last, cursor = front ++ [last] ∧ ∀ entry ∈ front, entry.token.node ≠ .endOfFile

theorem cursors_map {told : Retelling} (closed : told.Closed) {cursor : Cursor}
    (ended : cursor.Ended) : told.Cursors cursor (cursor.map told.entry) := by
  obtain ⟨front, last, rfl, visible⟩ := ended
  induction front with
  | nil => exact .last closed
  | cons entry rest ih =>
      obtain ⟨first, others⟩ := List.forall_mem_cons.mp visible
      exact .cons first (ih others)

variable {tokens : List (Located Token)} {text : List Char}

/-- The tokens of a source begin one behind the other. -/
theorem Scanned.starts_increase {before : List Char} {fault : Option (Located LexError)}
    (scanned : Scanned before text tokens fault) :
    tokens.Pairwise fun first second => first.span.start.index < second.span.start.index := by
  induction scanned with
  | ended => exact List.pairwise_singleton _ _
  | faulty => exact .nil
  | @token before space token _ _ _ _ _ filled _ others ih =>
      refine .cons (fun later member => lt_of_lt_of_le ?_ (others.later.1 later member)) ih
      obtain ⟨c, rest, spelled⟩ := List.exists_cons_of_ne_nil filled
      have width := c.utf8Size_pos
      simp only [Position.behind, byte_length_append, spelled, byteLength]
      omega

theorem text_scanned (text : List Char) :
    Scanned [] text (TokenStream.ofText text).tokens (TokenStream.ofText text).fault :=
  scan_from_scanned (by simp) (Nat.lt_succ_self _)

theorem cursor_ended (complete : (TokenStream.ofText text).fault = none) :
    (Cursor.attach [] (TokenStream.ofText text).tokens).Ended := by
  obtain ⟨front, visible, same⟩ := (text_scanned text).reaches_end complete
  have tokens := attach_tokens [] (TokenStream.ofText text).tokens
  rw [same, List.filter_append] at tokens
  obtain ⟨entries, last, whole, kept, final⟩ := List.map_eq_append_iff.mp tokens
  obtain ⟨ending, rfl, -⟩ := List.map_eq_singleton_iff.mp final
  rw [same]
  refine ⟨entries, ending, whole, fun entry member => ?_⟩
  have among : entry.token ∈ entries.map Entry.token := List.mem_map_of_mem member
  rw [kept] at among
  exact visible _ (List.mem_of_mem_filter among)

/-- No two tokens of a source begin at one place. -/
theorem cursor_starts (text : List Char) :
    ((Cursor.attach [] (TokenStream.ofText text).tokens).map
      fun entry => entry.token.span.start).Nodup := by
  have ordered := (text_scanned text).starts_increase
  have kept := ordered.filter fun token => !token.node.isDescription
  rw [← attach_tokens [], Cursor.tokens, List.pairwise_map] at kept
  exact List.pairwise_map.mpr (kept.imp fun before same =>
    before.ne (congrArg Position.index same))

/-- A line of description without the blanks around it. -/
def trimmedLine (line : String) : String := String.ofList (trimBlanks line.toList)

variable {waiting : List String} {token : Located Token} {rest : List (Located Token)}

theorem attach_description {line : String} (described : token.node = .description line) :
    Cursor.attach waiting (token :: rest) = Cursor.attach (waiting ++ [trimmedLine line]) rest := by
  rw [Cursor.attach, described]
  rfl

/-- A token is a description, which waits, or it is handed out. -/
theorem description_or_ordinary (token : Located Token) :
    (∃ line, token.node = .description line) ∨
      (∀ line, token.node ≠ .description line) ∧ token.node.isDescription = false := by
  cases token.node with
  | description line => exact .inl ⟨line, rfl⟩
  | _ => exact .inr ⟨nofun, rfl⟩

/-- Without its descriptions a stream makes the same cursor, but for the descriptions in it. -/
theorem attach_undescribed (waiting : List String) (tokens : List (Located Token)) :
    Cursor.attach [] (tokens.filter fun token => !token.node.isDescription) =
      (Cursor.attach waiting tokens).map fun entry => ⟨entry.token, none⟩ := by
  induction tokens generalizing waiting with
  | nil => rfl
  | cons token rest ih =>
      rcases description_or_ordinary token with ⟨line, described⟩ | ⟨ordinary, visible⟩
      · rw [attach_description described,
          List.filter_cons_of_neg (by simp [described, Token.isDescription])]
        exact ih _
      · rw [attach_ordinary ordinary, List.filter_cons_of_pos (by simp [visible]), List.map_cons,
          ← ih []]
        exact attach_ordinary ordinary _ _

/-- Some lines of description stand right in front of a token, and no more than these. -/
def LinesBefore (tokens : List (Located Token)) (lines : List String) (token : Located Token) :
    Prop :=
  ∃ front comments rest, tokens = front ++ (comments ++ token :: rest) ∧
    comments.map (·.node) = lines.map Token.description ∧ token.node.isDescription = false ∧
      ∀ last ∈ front.getLast?, last.node.isDescription = false

/-- A description is made of the lines in front of its token, and of those that were waiting for it. -/
theorem attach_lines {entry : Entry} (there : entry ∈ Cursor.attach waiting tokens) :
    ∃ (front comments : List (Located Token)) (lines : List String) (rest : List (Located Token)),
      tokens = front ++ (comments ++ entry.token :: rest) ∧
      comments.map (·.node) = lines.map Token.description ∧
        entry.token.node.isDescription = false ∧
          (∀ last ∈ front.getLast?, last.node.isDescription = false) ∧
            entry.description = Cursor.joinLines
              ((if front = [] then waiting else []) ++ lines.map trimmedLine) := by
  induction tokens generalizing waiting with
  | nil => cases there
  | cons token rest ih =>
      rcases description_or_ordinary token with ⟨line, described⟩ | ⟨ordinary, visible⟩
      · rw [attach_description described] at there
        obtain ⟨front, comments, lines, more, rfl, nodes, kept, apart, made⟩ := ih there
        cases front with
        | nil =>
            refine ⟨[], token :: comments, line :: lines, more, rfl, ?_, kept, apart, ?_⟩
            · rw [List.map_cons, List.map_cons, described, nodes]
            · simpa using made
        | cons first others =>
            exact ⟨token :: first :: others, comments, lines, more, rfl, nodes, kept, apart, made⟩
      · rw [attach_ordinary ordinary] at there
        rcases List.mem_cons.mp there with rfl | later
        · exact ⟨[], [], [], rest, rfl, rfl, visible, (fun _ absent => by cases absent), by simp⟩
        · obtain ⟨front, comments, lines, more, rfl, nodes, kept, apart, made⟩ := ih later
          refine ⟨token :: front, comments, lines, more, rfl, nodes, kept, ?_, by simpa using made⟩
          cases front with
          | nil =>
              rintro _ ⟨⟩
              exact visible
          | cons first others => exact apart

theorem entry_lines {entry : Entry} (there : entry ∈ Cursor.attach [] tokens) :
    ∃ lines, LinesBefore tokens lines entry.token ∧
      entry.description = Cursor.joinLines (lines.map trimmedLine) := by
  obtain ⟨front, comments, lines, rest, whole, nodes, kept, apart, made⟩ := attach_lines there
  exact ⟨lines, ⟨front, comments, rest, whole, nodes, kept, apart⟩, by simpa using made⟩

end Cursors

section Documents

variable {text : List Char} {cursor : Cursor}

/-- What a text is read as, if no fault ends its tokens. -/
theorem of_text_complete (complete : (TokenStream.ofText text).fault = none) :
    Document.ofText text =
      Document.ofCursor (Cursor.attach [] (TokenStream.ofText text).tokens) := by
  rw [Document.ofText, Document.ofStream, Cursor.ofStream]
  simp only [complete]

theorem read_complete {document : Document} (read : Document.ofText text = .ok document) :
    (TokenStream.ofText text).fault = none := by
  rw [Document.ofText, Document.ofStream, Cursor.ofStream] at read
  cases complete : (TokenStream.ofText text).fault with
  | none => rfl
  | some fault => simp [complete] at read

/-- A source with other descriptions is read as the same document with other descriptions. -/
theorem of_cursor_told (tell : Position → Option String → Option String) (ended : cursor.Ended) :
    Document.ofCursor (cursor.map fun entry =>
        ⟨entry.token, tell entry.token.span.start entry.description⟩) =
      (Document.ofCursor cursor).map (Document.retold tell) := by
  have told : ∃ told : Retelling, told.Closed ∧ told.tell = tell :=
    ⟨⟨tell, none, nofun⟩, rfl, rfl⟩
  obtain ⟨told, closed, rfl⟩ := told
  exact Document.of_cursor_retold closed (cursors_map closed ended)

/-- A text is read as the text without its descriptions. -/
theorem hushed_document (text : List Char) :
    Document.ofText (hush text) = (Document.ofText text).map Document.undescribed := by
  rw [Document.ofText, stream_hushed, Document.ofText, Document.ofStream, Document.ofStream,
    Cursor.ofStream, Cursor.ofStream]
  cases failed : (TokenStream.ofText text).fault with
  | some fault => simp [TokenStream.undescribed, failed, Except.map]
  | none =>
      have read := of_cursor_told (fun _ => undescribed) (cursor_ended failed)
      simp only [TokenStream.undescribed, failed, attach_undescribed []]
      rw [read]
      exact congrArg (fun change => (Document.ofCursor _).map change) (funext document_undescribed)

/-- What a source describes at a place, or something else where none of its tokens begins. -/
def Cursor.describedAt (cursor : Cursor) (otherwise : Option String) (place : Position) :
    Option String :=
  match cursor.find? fun entry => decide (entry.token.span.start = place) with
  | some entry => entry.description
  | none => otherwise

theorem described_at_entry (apart : (cursor.map fun entry => entry.token.span.start).Nodup)
    (otherwise : Option String) {entry : Entry} (there : entry ∈ cursor) :
    cursor.describedAt otherwise entry.token.span.start = entry.description := by
  rw [Cursor.describedAt]
  cases found : cursor.find? fun other =>
      decide (other.token.span.start = entry.token.span.start) with
  | none => simpa using List.find?_eq_none.mp found entry there
  | some other =>
      have same : other.token.span.start = entry.token.span.start := by
        simpa using List.find?_some found
      exact congrArg Entry.description
        (List.inj_on_of_nodup_map apart (List.mem_of_find?_eq_some found) there same)

/-- A document keeps its descriptions if each is taken from where it is told. -/
theorem descriptions_told {document : Document} (ended : cursor.Ended)
    (apart : (cursor.map fun entry => entry.token.span.start).Nodup)
    (read : Document.ofCursor cursor = .ok document) (otherwise : Option String) :
    ∀ described ∈ document.descriptions,
      cursor.describedAt otherwise described.1 = described.2 := by
  have same : (cursor.map fun entry =>
      ⟨entry.token, cursor.describedAt otherwise entry.token.span.start⟩) = cursor := by
    refine (List.map_congr_left fun entry there => ?_).trans (List.map_id cursor)
    rw [described_at_entry apart otherwise there]
    rfl
  have again := of_cursor_told (fun place _ => cursor.describedAt otherwise place) ended
  rw [same, read] at again
  have kept := congrArg Document.descriptions (Except.ok.inj again)
  rw [document_descriptions_retold] at kept
  intro described there
  have fixed := List.map_inj_left.mp ((List.map_id _).trans kept) described there
  exact (congrArg Prod.snd fixed).symm

/-- The description of a node is that of the token it begins with. -/
theorem described_by_entry {document : Document} (ended : cursor.Ended)
    (apart : (cursor.map fun entry => entry.token.span.start).Nodup)
    (read : Document.ofCursor cursor = .ok document) :
    ∀ described ∈ document.descriptions, ∃ entry ∈ cursor,
      entry.token.span.start = described.1 ∧ entry.description = described.2 := by
  intro described there
  have absent := descriptions_told ended apart read none described there
  have present := descriptions_told ended apart read (some "") described there
  rw [Cursor.describedAt] at absent present
  cases found : cursor.find? fun entry => decide (entry.token.span.start = described.1) with
  | none =>
      rw [found] at absent present
      cases absent.trans present.symm
  | some entry =>
      rw [found] at absent
      have here : entry.token.span.start = described.1 := by simpa using List.find?_some found
      exact ⟨entry, List.mem_of_find?_eq_some found, here, absent⟩

/--
Where descriptions are made comments, a text fails as before or gives the same document without its
descriptions. Whatever can be described in a document has as description the lines that stand right
in front of its first token, without the blanks around them and with a blank between any two.
-/
theorem descriptions_inert (text : List Char) :
    Document.ofText (hush text) = (Document.ofText text).map Document.undescribed ∧
      ∀ document, Document.ofText text = .ok document →
        ∀ described ∈ document.descriptions, ∃ token lines,
          LinesBefore (TokenStream.ofText text).tokens lines token ∧
            token.span.start = described.1 ∧
              described.2 = Cursor.joinLines (lines.map trimmedLine) := by
  refine ⟨hushed_document text, fun document read described there => ?_⟩
  have complete := read_complete read
  rw [of_text_complete complete] at read
  obtain ⟨entry, among, start, same⟩ :=
    described_by_entry (cursor_ended complete) (cursor_starts text) read described there
  obtain ⟨lines, before, made⟩ := entry_lines among
  exact ⟨entry.token, lines, before, start, same.symm.trans made⟩

/-- Two lines in front of a type, one in front of its field and one in front of a value. -/
def talkativeText : List Char :=
  "##  two \n## words \ntype Q \x7b ## of f\n f(a: Int): Int @m(n: ## nothing\n 1) \x7d".toList

theorem talkative_text_read : ∃ document, Document.ofText talkativeText = .ok document ∧
    document.descriptions.map Prod.snd = [some "two words", some "of f", none] ∧
      Document.ofText (hush talkativeText) = .ok document.undescribed ∧
        ∀ described ∈ document.descriptions, ∃ token lines,
          LinesBefore (TokenStream.ofText talkativeText).tokens lines token ∧
            token.span.start = described.1 ∧
              described.2 = Cursor.joinLines (lines.map trimmedLine) := by
  have told : (Document.ofText talkativeText).toOption.map
      (fun document => document.descriptions.map Prod.snd) =
        some [some "two words", some "of f", none] := by decide +kernel
  obtain ⟨hushed, each⟩ := descriptions_inert talkativeText
  cases read : Document.ofText talkativeText with
  | error error =>
      rw [read] at told
      cases told
  | ok document =>
      rw [read] at told hushed
      exact ⟨document, rfl, Option.some.inj told, hushed, each document read⟩

end Documents

end GraphQL
