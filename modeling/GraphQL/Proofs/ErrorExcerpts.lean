import GraphQL.Proofs.ErrorVisibility
import GraphQL.Proofs.Excerpts
import GraphQL.Proofs.SourceNames

/-!
Errors of fields, shown with the source around them.

An error of a field is placed where the name of the field begins. The name that is found there in
the source is all of the token that it was read from, and nothing else. So an error that is rendered
with an excerpt underlines the name of its field.
-/

namespace GraphQL

section Words

/-- A word is scanned up to where it ends. -/
theorem scanned_word_ends {c : Char} {tail left : List Char} {token : Token} {name : String}
    (scanned : scanToken c tail = .ok (token, left)) (named : token.asName? = some name)
    (same : c :: tail = token.text.toList ++ left) :
    Name.isValid name = true ∧ ∀ d ∈ left.head?, isNameContinue d = false := by
  obtain ⟨-, valid⟩ := (scan_token_finds c tail token left scanned).is_word name named
  refine ⟨valid, ?_⟩
  rw [(Token.as_name_text named).1] at same
  unfold Name.isValid at valid
  cases letters : name.toList with
  | nil => simp [letters] at valid
  | cons first rest =>
      simp only [letters, Bool.and_eq_true] at valid
      obtain ⟨rfl, -⟩ := List.cons.inj (letters ▸ same)
      rw [scan_token_word valid.1] at scanned
      cases scanned
      intro d next
      have stops := List.head?_dropWhile_not isNameContinue (c :: tail)
      rw [Option.mem_def.mp next] at stops
      exact stops

/-- Tokens that may stand for names are all of the words that begin where they do. -/
theorem scan_from_words_end {count : Nat} {before text : List Char}
    (complete : before.getLast? ≠ some '\r') :
    ∀ token ∈ (TokenStream.scanFrom count (.behind before) text).tokens, ∀ name,
      token.node.asName? = some name → ∃ front back, text = front ++ (name.toList ++ back) ∧
        token.span = ⟨.behind (before ++ front), .behind (before ++ (front ++ name.toList))⟩ ∧
        Name.isValid name = true ∧ ∀ c ∈ back.head?, isNameContinue c = false := by
  induction count generalizing before text with
  | zero => exact List.forall_mem_nil _
  | succ count ih =>
      obtain ⟨⟨whole, passes⟩, -⟩ := split_ignored_passes text
      have between {space : List Char} : (Position.behind before).past space = .behind (before ++ space) :=
        past_behind fun split => complete split.1
      rw [TokenStream.scanFrom]
      generalize splitIgnored false text = parts at whole passes ⊢
      obtain ⟨space, rest⟩ := parts
      subst whole
      dsimp only at passes ⊢
      rw [between]
      cases passes with
      | ended last => exact List.forall_mem_singleton.mpr fun _ absent => by cases absent
      | @token c tail layout kept comment =>
          have covers := scan_token_covers comment
          dsimp only
          cases scanned : scanToken c tail with
          | error fault => exact List.forall_mem_nil _
          | ok result =>
              rw [scanned] at covers
              obtain ⟨token, left⟩ := result
              obtain ⟨_, ⟨rfl, filled, visible⟩, same, line⟩ := covers
              dsimp only
              rw [past_one_line _ line, same]
              refine List.forall_mem_cons.mpr ⟨fun name named => ?_, fun other member name named => ?_⟩
              · obtain ⟨text, -, -⟩ := Token.as_name_text named
                obtain ⟨valid, stops⟩ := scanned_word_ends scanned named same
                rw [text]
                exact ⟨space, left, rfl, by rw [List.append_assoc], valid, stops⟩
              · have others := ih (line.complete (before ++ space) filled) other member name named
                obtain ⟨front, back, rfl, placed, valid, stops⟩ := others
                refine ⟨space ++ (token.text.toList ++ front), back, by simp, ?_, valid, stops⟩
                simpa using placed

theorem name_letters {name : String} (valid : Name.isValid name = true) :
    name.toList ≠ [] ∧ ∀ c ∈ name.toList, isNameContinue c = true := by
  unfold Name.isValid at valid
  cases letters : name.toList with
  | nil => simp [letters] at valid
  | cons first rest =>
      simp only [letters, Bool.and_eq_true, List.all_eq_true] at valid
      exact ⟨List.cons_ne_nil _ _,
        List.forall_mem_cons.mpr ⟨name_start_continues valid.1, valid.2⟩⟩

/-- Letters, digits and underscores take one byte. -/
theorem name_continue_narrow {c : Char} (inside : isNameContinue c = true) : c.utf8Size = 1 := by
  have ranges : c = '_' ∨ (65 ≤ c.val.toNat ∧ c.val.toNat ≤ 90) ∨
      (97 ≤ c.val.toNat ∧ c.val.toNat ≤ 122) ∨ (48 ≤ c.val.toNat ∧ c.val.toNat ≤ 57) := by
    delta isNameContinue isNameStart Char.isAlpha Char.isUpper Char.isLower Char.isDigit at inside
    simpa [UInt32.le_iff_toNat_le, or_assoc] using inside
  have small : c.val.toNat ≤ 127 := by
    rcases ranges with rfl | upper | lower | digit
    · decide
    all_goals omega
  exact Char.utf8Size_eq_one_iff.mpr (UInt32.le_iff_toNat_le.mpr small)

theorem word_bytes {word : List Char} (inside : ∀ c ∈ word, isNameContinue c = true) :
    byteLength word = word.length := by
  induction word with
  | nil => rfl
  | cons c rest ih =>
      obtain ⟨first, others⟩ := List.forall_mem_cons.mp inside
      rw [byteLength, name_continue_narrow first, ih others, List.length_cons, Nat.add_comm]

/-- Behind a word the position is as many bytes and columns further on. -/
theorem behind_word (before : List Char) {word : List Char}
    (inside : ∀ c ∈ word, isNameContinue c = true) :
    Position.behind (before ++ word) = ⟨(Position.behind before).index + word.length,
      (Position.behind before).line, (Position.behind before).column + word.length⟩ := by
  have one : OneLine word := .of_class (by decide) inside
  have line := one.line_terminators_append before
  have column := congrArg List.length (one.line_before_append before)
  rw [lineBefore, lineBefore, List.length_append] at column
  simp only [Position.behind, byte_length_append, word_bytes inside, line, column]
  congr 1
  omega

/-- The name that is found where a token begins is that token, if it may stand for a name. -/
theorem name_span_exact {source : String} {token : Located Token}
    (member : token ∈ (TokenStream.ofSource source).tokens) {name : String}
    (named : token.node.asName? = some name) :
    ExecutionError.nameSpan source token.span.start = token.span := by
  have complete : ([] : List Char).getLast? ≠ some '\r' := by simp
  obtain ⟨front, back, whole, placed, valid, stops⟩ :=
    scan_from_words_end complete token member name named
  obtain ⟨filled, inside⟩ := name_letters valid
  have found := split_bytes_append front (name.toList ++ back)
  have width : max 1 name.toList.length = name.toList.length :=
    max_eq_right (List.length_pos_iff.mpr filled)
  rw [placed, List.nil_append, List.nil_append, behind_word front inside,
    ExecutionError.nameSpan, whole]
  dsimp only [Position.behind]
  simp only [found, (run_split inside stops).1, width]

end Words

section Fields

variable {field : Located Field}

/-- The names of fields that are selected are parts of the phrases of their selections. -/
theorem Selects.named {selections : List Selection} (selected : Selects field selections)
    {parts : List Phrase} (made : Each SelectionForm selections parts) :
    ∃ part ∈ parts, ∃ token, (Phrase.named field.node.name token).Inside part := by
  induction selected generalizing parts with
  | here member =>
      obtain ⟨own, form, among⟩ := made.member member
      cases form with
      | @field aliasName name token list marks selections span aliasParts =>
          exact ⟨_, among List.mem_cons_self, token, .part (by simp) .whole⟩
  | nested member has _ ih =>
      obtain ⟨own, form, among⟩ := made.member member
      cases form with
      | field before arguments directives set =>
          obtain rfl : _ = some _ := has
          cases set with
          | present set =>
              obtain ⟨inner, each, within⟩ := set.inner
              obtain ⟨part, there, token, inside⟩ := ih each
              exact ⟨_, among List.mem_cons_self, token, .part (by simp [within there]) inside⟩
  | inline member _ ih =>
      obtain ⟨own, form, among⟩ := made.member member
      cases form with
      | inline mark on directives set =>
          obtain ⟨inner, each, within⟩ := set.inner
          obtain ⟨part, there, token, inside⟩ := ih each
          exact ⟨_, among List.mem_cons_self, token, .part (by simp [within there]) inside⟩

/-- The names of fields that are selected in a document are parts of its phrases. -/
theorem Document.Selects.named {document : Document} (selected : document.Selects field)
    {trees : List Phrase} (each : Each DefinitionForm document.definitions trees) :
    ∃ tree ∈ trees, ∃ token, (Phrase.named field.node.name token).Inside tree := by
  -- A selection set is within the node of its definition.
  have within_node {selections : List Selection} (selected : GraphQL.Selects field selections)
      {set parts : List Phrase} {span : Span} (form : SelectionSetForm selections set)
      (among : set ⊆ parts) (there : .node span parts ∈ trees) :
      ∃ tree ∈ trees, ∃ token, (Phrase.named field.node.name token).Inside tree := by
    obtain ⟨inner, each, within⟩ := form.inner
    obtain ⟨part, member, token, inside⟩ := selected.named each
    exact ⟨_, there, token, .part (among (within member)) inside⟩
  rcases selected with ⟨operation, member, selected⟩ | ⟨fragment, member, selected⟩
  · obtain ⟨definition, there, same⟩ := List.mem_filterMap.mp member
    obtain ⟨own, form, among⟩ := each.member there
    cases form with
    | operation node =>
        cases same
        cases node with
        | node form =>
            cases form with
            | bare set =>
                exact within_node selected set (List.Subset.refl _) (among List.mem_cons_self)
            | keyword word named inputs directives set =>
                exact within_node selected set (fun part member => by simp [member])
                  (among List.mem_cons_self)
    | _ => cases same
  · obtain ⟨definition, there, same⟩ := List.mem_filterMap.mp member
    obtain ⟨own, form, among⟩ := each.member there
    cases form with
    | fragment node =>
        cases same
        cases node with
        | node form =>
            cases form with
            | fragment word onWord directives set =>
                exact within_node selected set (fun part member => by simp [member])
                  (among List.mem_cons_self)
    | _ => cases same

/-- The name of a selected field was read from a token of the source. -/
theorem selected_name_read {source : String} {document : Document}
    (read : Document.ofSource source = .ok document) (selected : document.Selects field) :
    ∃ token ∈ (TokenStream.ofSource source).tokens,
      token.node.asName? = some field.node.name.node ∧ field.node.name.span = token.span := by
  obtain ⟨trees, each, placed, among⟩ :=
    Document.of_text_built (show Document.ofText source.toList = .ok document from read)
  obtain ⟨tree, member, token, inside⟩ := selected.named each
  have leaf : token ∈ Phrase.partLeaves trees := by
    rw [part_leaves]
    exact List.mem_flatMap_of_mem member (inside.leaves.subset (List.mem_singleton.mpr rfl))
  cases (placed tree member).inside inside with
  | named same there => exact ⟨token, among.subset leaf, same, there⟩

end Fields

section Errors

variable {σ : Type} {executor : Executor σ} {scope : RequestScope}

theorem OneErrorAtMost.marked {document : Document} {path : FieldPath} {value : Value}
    {journal later : Journal σ} (one : OneErrorAtMost path journal value later)
    (marks : document.Marks path) :
    ∃ added, journal.Gains added later ∧
      ∀ error ∈ added, document.Marks ⟨error.path, error.location⟩ := by
  rcases one with nothing | ⟨-, error, gained⟩
  · exact ⟨[], nothing, List.forall_mem_nil _⟩
  · exact ⟨_, gained, List.forall_mem_singleton.mpr marks⟩

/-- Every error that work records is marked by a field of the document. -/
theorem Runs.errors_marked {work : Work} {journal later : Journal σ}
    {result : Except Bubble Value} (runs : Runs executor scope work journal result later)
    (belongs : work.Belongs scope.document) :
    ∃ added, journal.Gains added later ∧
      ∀ error ∈ added, scope.document.Marks ⟨error.path, error.location⟩ := by
  induction runs with
  | nullable _ _ ih => exact ih belongs
  | absorbed _ _ ih => exact ih belongs
  | present _ _ ih => exact ih belongs
  | violated _ ih =>
      exact Journal.Gains.both (ih belongs) ⟨_, rfl, List.forall_mem_singleton.mpr belongs.1⟩
  | passed _ ih => exact ih belongs
  | absent => exact ⟨[], .nothing _, List.forall_mem_nil _⟩
  | settled _ settles => exact settles.one_error_at_most.marked belongs.1
  | nested _ _ ih => exact ih belongs
  | list _ _ ih => exact ih belongs
  | object _ _ _ ih => exact ih (groups_below_belong belongs.2)
  | noItems => exact ⟨[], .nothing _, List.forall_mem_nil _⟩
  | item _ _ head tail => exact Journal.Gains.both (head belongs) (tail belongs)
  | itemBubbled _ head => exact head belongs
  | itemsBubbled _ _ head tail => exact Journal.Gains.both (head belongs) (tail belongs)
  | noGroups => exact ⟨[], .nothing _, List.forall_mem_nil _⟩
  | undefinedField _ _ ih => exact ih belongs.other_groups
  | field _ resolves _ _ head tail =>
      have own := belongs.first_group
      exact Journal.Gains.both (resolves.one_error_at_most.marked own.1)
        (Journal.Gains.both (head own) (tail belongs.other_groups))
  | fieldBubbled _ resolves _ head =>
      have own := belongs.first_group
      exact Journal.Gains.both (resolves.one_error_at_most.marked own.1) (head own)
  | fieldsBubbled _ resolves _ _ head tail =>
      have own := belongs.first_group
      exact Journal.Gains.both (resolves.one_error_at_most.marked own.1)
        (Journal.Gains.both (head own) (tail belongs.other_groups))

/-- All errors of an operation but those of its variables are marked by fields of the document. -/
theorem operation_errors_marked {depth : Nat} {document : Document} {operation : Located Operation}
    (chosen : operation ∈ document.operations) {root : ObjectType} {inputs : Object} {context : σ}
    {result : Except Bubble Value} {journal : Journal σ}
    (finished : executor.executeOperation (executor.runWithin depth) document operation root inputs
      ⟨context, []⟩ = some (result, journal)) :
    ∀ error ∈ journal.errors, error.path = [] ∨ document.Marks ⟨error.path, error.location⟩ := by
  rw [Executor.executeOperation] at finished
  rcases Action.bind_finished finished with ⟨values, coerced, ran, rest⟩ | ⟨_, -, ran⟩
  · obtain ⟨_, added, _, gained, pathless⟩ := coerce_variables_gains ran
    obtain ⟨outcome, same, runs⟩ := root_data_runs rest
    obtain ⟨others, later, marked⟩ := runs.errors_marked
      (groups_below_belong (List.forall_mem_singleton.mpr (Document.covers_operation chosen)))
    intro error member
    rw [later, gained, List.nil_append] at member
    rcases List.mem_append.mp member with variable_error | field_error
    · exact .inl (pathless error variable_error)
    · exact .inr (marked error field_error)
  · obtain ⟨_, _, impossible, -⟩ := coerce_variables_gains ran
    cases impossible

/-- An error of a field is rendered with an excerpt around the name of the field. -/
theorem marked_error_named {source : String} {document : Document}
    (read : Document.ofSource source = .ok document) {error : ExecutionError}
    (marked : document.Marks ⟨error.path, error.location⟩) :
    ∃ field, document.Selects field ∧ error.path.getLast? = some field.node.responseKey ∧
      field.node.name.span.Shows source field.node.name.node.toList ∧
      error.location = field.node.name.span.start ∧
      ExecutionError.nameSpan source error.location = field.node.name.span := by
  obtain ⟨field, selected, last, placed⟩ := marked
  have place : field.node.name.span.start = error.location := placed
  obtain ⟨token, member, named, there⟩ := selected_name_read read selected
  have shows := (tokens_shown source).1 token member
  obtain ⟨text, visible, -⟩ := Token.as_name_text named
  rw [Token.written, if_neg visible, text] at shows
  have exact_span := name_span_exact member named
  rw [← there] at shows exact_span
  exact ⟨field, selected, last, shows, place.symm, by rw [← place, exact_span]⟩

end Errors

/--
Excerpts underline what they are about. Whatever token or fault is found in a source, where the
lines up to it are counted and cut alike its excerpt shows it on its line, behind the number of the
line and above carets, as many as the token has characters; lines of context have their own numbers.
An error of a field is placed at the name of the field, and its excerpt is that of the name.
-/
theorem excerpts_underline (source : String) :
    (∀ token ∈ (TokenStream.ofSource source).tokens,
      token.span.Shows source token.node.written) ∧
    (∀ fault ∈ (TokenStream.ofSource source).fault, fault.span.Shows source []) ∧
    ∀ (σ : Type) (executor : Executor σ) (depth : Nat) (document : Document)
      (operation : Located Operation) (root : ObjectType) (inputs : Object) (context : σ)
      (result : Except Bubble Value) (journal : Journal σ),
      Document.ofSource source = .ok document → operation ∈ document.operations →
      executor.executeOperation (executor.runWithin depth) document operation root inputs
        ⟨context, []⟩ = some (result, journal) →
      ∀ error ∈ journal.errors, error.path ≠ [] →
        ∃ field, document.Selects field ∧ error.path.getLast? = some field.node.responseKey ∧
          field.node.name.span.Shows source field.node.name.node.toList ∧
          error.location = field.node.name.span.start ∧
          ExecutionError.nameSpan source error.location = field.node.name.span ∧
          error.renderVerbose source = ExecutionError.render
            { error with error :=
              { error.error with message :=
                error.error.message ++ "\n" ++ field.node.name.span.excerpt source } } := by
  obtain ⟨tokens, faults⟩ := tokens_shown source
  refine ⟨tokens, faults, fun σ executor depth document operation root inputs context result
    journal read chosen finished error member pathed => ?_⟩
  have marked := (operation_errors_marked chosen finished error member).resolve_left pathed
  obtain ⟨field, selected, last, shows, place, exact_span⟩ := marked_error_named read marked
  refine ⟨field, selected, last, shows, place, exact_span, ?_⟩
  rw [ExecutionError.renderVerbose, exact_span]

/-- Where a carriage return stands alone, its line is counted and not cut, and nothing is shown. -/
example : Span.excerpt ⟨⟨1, 2, 1⟩, ⟨2, 2, 2⟩⟩ "\r\x7b" = "1|\r\x7b" ∧
    ¬ FeedsFollow "\r\x7b".toList 2 := by
  decide

def dogSource : String := "\x7b\r\n dogs\x7b\n  name\x7d\x7d"

def dogExcerpt : String := "1|\x7b\n2| dogs\x7b\n3|  name\x7d\x7d\n    ^^^^"

theorem dog_source_executed :
    ((Document.ofSource dogSource).toOption.bind fun document =>
      document.operations.head?.bind fun operation =>
        (kennel.executeOperation (kennel.runWithin 2) document operation kennelRoot []
          ⟨(), []⟩).map fun finished =>
            finished.2.errors.map fun error => (error.path, error.location)) =
      some [(["dogs", "name"], ⟨12, 3, 3⟩)] := by
  decide +kernel

/-- The name that the second dog lacks is underlined. -/
theorem nameless_dog_underlined :
    ∃ (document : Document) (operation : Located Operation) (result : Except Bubble Value)
      (journal : Journal Unit) (error : ExecutionError) (field : Located Field)
      (before after : List Char) (back : List (List Char)),
      Document.ofSource dogSource = .ok document ∧ operation ∈ document.operations ∧
      kennel.executeOperation (kennel.runWithin 2) document operation kennelRoot [] ⟨(), []⟩ =
        some (result, journal) ∧
      error ∈ journal.errors ∧ error.path = ["dogs", "name"] ∧ document.Selects field ∧
      field.node.name.span.Covers dogSource.toList before field.node.name.node.toList after ∧
      field.node.name.span.Underlines dogSource before field.node.name.node.toList after back ∧
      field.node.name.span.excerpt dogSource = dogExcerpt := by
  obtain ⟨document, read, rest⟩ := Option.bind_eq_some_iff.mp dog_source_executed
  obtain ⟨operation, first, rest⟩ := Option.bind_eq_some_iff.mp rest
  obtain ⟨⟨result, journal⟩, finished, errors⟩ := Option.map_eq_some_iff.mp rest
  obtain ⟨error, only, same⟩ := List.map_eq_singleton_iff.mp errors
  obtain ⟨path, place⟩ := Prod.mk.inj same
  have read := ok_of_to_option read
  have chosen := List.mem_of_mem_head? first
  have member : error ∈ journal.errors := by
    rw [show journal.errors = [error] from only]
    exact List.mem_singleton.mpr rfl
  have pathed : error.path ≠ [] := by simp [path]
  obtain ⟨field, selected, -, ⟨before, after, covers, underlines⟩, start, exact_span, -⟩ :=
    (excerpts_underline dogSource).2.2 Unit kennel 2 document operation kennelRoot [] () result
      journal read chosen finished error member pathed
  have line : field.node.name.span.start.line = 3 := by rw [← start, place]
  have follow : FeedsFollow dogSource.toList 3 := by decide
  obtain ⟨back, underlined⟩ := underlines (line.symm ▸ follow)
  refine ⟨document, operation, result, journal, error, field, before, after, back, read, chosen,
    finished, member, path, selected, covers, underlined, ?_⟩
  rw [← exact_span, place]
  decide

end GraphQL
