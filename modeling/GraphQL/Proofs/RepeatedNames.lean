import GraphQL.Proofs.ReplacedTypes
import Mathlib.Algebra.Order.BigOperators.Group.List
import Mathlib.Algebra.Order.Ring.Nat
import Mathlib.Order.Fin.Basic

/-!
Documents that are read are well-formed, and a source in which one name repeats is refused.

Reading a source beside itself tells what its document looks like. Beside a source in which one word
stands for another one, it tells that the other one is refused where the word makes a name of some
list repeat, and at which place.
-/

namespace GraphQL

section Tokens

variable {before text : List Char} {tokens : List (Located Token)}
  {fault : Option (Located LexError)}

/-- No token is empty but the one at the end. -/
theorem Scanned.advances (scanned : Scanned before text tokens fault) :
    ∀ token ∈ tokens, token.node ≠ .endOfFile →
      token.span.start.index < token.span.stop.index := by
  induction scanned with
  | ended => exact List.forall_mem_singleton.mpr fun visible => absurd rfl visible
  | faulty => exact List.forall_mem_nil _
  | @token before space token left _ _ _ _ filled _ _ ih =>
      refine List.forall_mem_cons.mpr ⟨fun _ => ?_, ih⟩
      obtain ⟨c, rest, spelled⟩ := List.exists_cons_of_ne_nil filled
      have wide := c.utf8Size_pos
      simp only [Position.behind, byte_length_append, spelled, byteLength]
      omega

theorem Cursor.of_source_orderly {source : String} {cursor : Cursor}
    (found : Cursor.ofStream (.ofSource source) = .ok cursor) : cursor.Orderly := by
  obtain ⟨tokens, front, ending, visible, whole⟩ := cursor_tokens found
  have exact := stream_exact source
  have scanned : Scanned [] source.toList (TokenStream.ofSource source).tokens
      (TokenStream.ofSource source).fault :=
    scan_from_scanned (by simp) (Nat.lt_succ_self _)
  have fewer : cursor.tokens.Sublist (TokenStream.ofSource source).tokens :=
    tokens ▸ List.filter_sublist
  refine ⟨fun token member => scan_from_words _ _ _ token (fewer.subset member), ?_⟩
  have among : front.Sublist (TokenStream.ofSource source).tokens :=
    (whole ▸ List.sublist_append_left front [ending] : front.Sublist cursor.tokens).trans fewer
  rw [whole, List.dropLast_concat]
  refine (exact.ordered.sublist among).imp_of_mem fun {first second} _ member behind => ?_
  exact behind.trans_lt (scanned.advances second (among.subset member) (visible second member))

end Tokens

/-- The tokens of two sources side by side. -/
def Replacement.between (source other : String) (stop : Position) (word : String) : Replacement :=
  ⟨(TokenStream.ofSource source).grammatical.zip (TokenStream.ofSource other).grammatical, stop,
    word⟩

/-- Two sources consist of the same tokens, but for one word, which ends at a place in the first. -/
structure OneWordApart (source other : String) (stop : Position) (word : String) : Prop where
  complete : (TokenStream.ofSource other).fault = none
  tokens : List.Forall₂
    (fun token twin =>
      if token.span.stop = stop then
        token.node.asName?.isSome = true ∧ twin.node.asName? = some word
      else twin.node = token.node)
    (TokenStream.ofSource source).grammatical (TokenStream.ofSource other).grammatical

/--
A list of names is written in a source: in its document, or in a directive of it. Not all directives
are kept in documents.
-/
inductive WrittenIn (source : String) (document : Document) (list : NameList) : Prop where
  | kept (inside : document.Lists list)
  | directive {cursor place left : Cursor} {directive : Located Directive}
      (stream : Cursor.ofStream (.ofSource source) = .ok cursor) (among : place <:+ cursor)
      (read : Reader.directive.run place = .ok directive left)
      (inside : ArgumentsList directive.node.arguments list)

section Reading

variable {source other : String} {document : Document} {cursor : Cursor}

theorem OneWordApart.cursors {stop : Position} {word : String}
    (apart : OneWordApart source other stop word)
    (found : Cursor.ofStream (.ofSource source) = .ok cursor) :
    ∃ twin, Cursor.ofStream (.ofSource other) = .ok twin ∧
      (Replacement.between source other stop word).Cursors cursor twin := by
  obtain ⟨tokens, -⟩ := cursor_tokens found
  have opened : Cursor.ofStream (.ofSource other) =
      .ok (Cursor.attach [] (TokenStream.ofSource other).tokens) := by
    rw [Cursor.ofStream, apart.complete]
  refine ⟨_, opened, ?_⟩
  obtain ⟨copied, -⟩ := cursor_tokens opened
  refine List.forall₂_map_left_iff.mp (List.forall₂_map_right_iff.mp ?_)
  change List.Forall₂ _ cursor.tokens (Cursor.tokens _)
  rw [tokens, copied]
  obtain ⟨lengths, each⟩ := List.forall₂_iff_zip.mp apart.tokens
  refine List.forall₂_iff_zip.mpr ⟨lengths, fun {token twin} paired => ?_⟩
  have related := each paired
  refine ⟨paired, fun (elsewhere : token.span.stop ≠ stop) => ?_,
    fun (here : token.span.stop = stop) => ?_⟩
  · rwa [if_neg elsewhere] at related
  · rwa [if_pos here] at related

theorem exists_place_outside (places : List Position) : ∃ place, place ∉ places := by
  refine ⟨⟨(places.map (·.index)).sum + 1, 0, 0⟩, fun inside => ?_⟩
  have bounded := List.single_le_sum (fun _ _ => Nat.zero_le _) _
    (List.mem_map_of_mem inside : _ ∈ places.map (·.index))
  exact absurd bounded (Nat.not_succ_le_self _)

/-- A cursor beside itself, where no word differs. -/
theorem Cursor.beside_itself (cursor : Cursor) :
    ∃ change : Replacement, change.Cursors cursor cursor := by
  obtain ⟨stop, outside⟩ := exists_place_outside (stops cursor.tokens)
  refine ⟨⟨cursor.tokens.map fun token => (token, token), stop, ""⟩,
    List.forall₂_same.mpr fun entry member => ?_⟩
  have among : entry.token ∈ cursor.tokens := List.mem_map_of_mem member
  refine ⟨List.mem_map_of_mem among, fun _ => rfl, fun here => ?_⟩
  exact absurd (List.mem_map.mpr ⟨_, among, here⟩) outside

theorem Document.of_source_opened (opened : Cursor.ofStream (.ofSource source) = .ok cursor) :
    Document.ofSource source = Document.ofCursor cursor := by
  have stream : Cursor.ofStream (.ofText source.toList) = .ok cursor := opened
  rw [Document.ofSource, Document.ofText, Document.ofStream, stream]

/-- What is known of a document that was read, and of the same reading of another source. -/
theorem Document.of_source_followed (accepted : Document.ofSource source = .ok document) :
    ∃ cursor, Cursor.ofStream (.ofSource source) = .ok cursor ∧ cursor.Orderly ∧
      ∀ (change : Replacement) (twin : Cursor), change.Cursors cursor twin →
        document.WellFormed ∧ ∀ list, WrittenIn source document list → NamesInOrder list.2 ∧
          (change.stop ∈ stops list.2 → ¬ (list.2.map change.text).Nodup →
            ∃ names repeated, List.Forall₂ change.Names list.2 names ∧
              Reader.firstRepeat? [] names = some repeated ∧
              Document.ofCursor twin =
                .error ⟨.duplicate list.1 repeated.node, repeated.span⟩) := by
  unfold Document.ofSource Document.ofText Document.ofStream at accepted
  split at accepted
  · cases accepted
  rename_i cursor found
  have orderly := Cursor.of_source_orderly found
  obtain ⟨-, front, ending, visible, whole⟩ := cursor_tokens found
  refine ⟨cursor, found, orderly, fun change twin cursors => ?_⟩
  unfold Document.ofCursor at accepted
  split at accepted
  · cases accepted
  rename_i definitions left ran
  have ends := Reader.definitions_end ran
  unfold Document.ofDefinitions at accepted
  split at accepted
  · cases accepted
  cases accepted
  obtain ⟨taken, own, lists, told, followed, listed⟩ :=
    (@Reader.definitions_followed change False cursor.length).run cursor twin definitions left
      orderly cursors (fun _ _ => trivial) ran
  have last : left.length ≤ 1 := by
    by_cases filled : left = []
    · simp [filled]
    · have alone := left_at_end visible (whole.symm.trans followed.past.tokens)
        (fun empty => filled (List.map_eq_nil_iff.mp empty)) ends
      simpa [Cursor.tokens] using (congrArg List.length alone).le
  refine ⟨⟨told.good.1, told.good.2⟩, fun list written => ?_⟩
  have member : list ∈ lists := by
    cases written with
    | kept inside => exact told.inside list inside
    | directive stream among read inside =>
        obtain rfl := Except.ok.inj (found.symm.trans stream)
        obtain ⟨mark, middle, begun, -⟩ := Reader.run_bind read
        obtain ⟨entry, next, rest, rfl, -⟩ := expect_ran begun
        exact listed _ among (by simp; omega) _ _ read list inside
  refine ⟨(followed.listed list member).2, fun hit repeats => ?_⟩
  obtain ⟨names, repeated, after, renamed, first, failed⟩ :=
    followed.complains list member hit repeats
  refine ⟨names, repeated, renamed, first, ?_⟩
  rw [Document.ofCursor, ← cursors.length_eq, failed]

theorem Document.of_source_well_formed (accepted : Document.ofSource source = .ok document) :
    document.WellFormed := by
  obtain ⟨cursor, -, -, followed⟩ := Document.of_source_followed accepted
  obtain ⟨change, cursors⟩ := cursor.beside_itself
  exact (followed change cursor cursors).1

/-- Directives are well-formed, also those that are not kept in the document. -/
theorem directive_well_formed {place left : Cursor} {directive : Located Directive}
    (found : Cursor.ofStream (.ofSource source) = .ok cursor) (among : place <:+ cursor)
    (read : Reader.directive.run place = .ok directive left) : directive.node.WellFormed := by
  obtain ⟨front, rfl⟩ := among
  have orderly : place.Orderly :=
    (Cursor.of_source_orderly found).of_tokens ⟨Cursor.tokens front, List.map_append.symm⟩
  obtain ⟨change, cursors⟩ := place.beside_itself
  obtain ⟨_, _, _, told, -⟩ := (@Reader.directive_followed change False fun _ => True).run place
    place directive left orderly cursors (fun _ _ => trivial) read
  exact told.good

end Reading

section Repeating

/-- A name repeats where one like it was seen before. -/
theorem first_repeat_split {seen : List String} {names : List (Located String)}
    {found : Located String} (repeated : Reader.firstRepeat? seen names = some found) :
    ∃ before after, names = before ++ found :: after ∧
      (found.node ∈ seen ∨ found.node ∈ before.map (·.node)) := by
  induction names generalizing seen with
  | nil => cases repeated
  | cons name rest ih =>
      rw [Reader.firstRepeat?] at repeated
      split at repeated
      · rename_i again
        cases repeated
        exact ⟨[], rest, rfl, .inl again⟩
      · obtain ⟨before, after, rfl, earlier⟩ := ih repeated
        refine ⟨name :: before, after, rfl, ?_⟩
        rcases earlier with before_all | between
        · rcases List.mem_cons.mp before_all with same | seen
          · exact .inr (by simp [same])
          · exact .inl seen
        · exact .inr (List.mem_cons_of_mem _ between)

variable {names twins : List (Located String)} {change : Replacement}

/-- Where all entries are told apart by something, it tells at which place they are. -/
theorem index_of_same {α β : Type} {entries : List α} {view : α → β}
    (distinct : (entries.map view).Nodup) {i j : Fin entries.length}
    (same : view entries[i] = view entries[j]) : i = j := by
  apply List.nodup_iff_injective_get.mp (distinct.of_map view)
  exact List.inj_on_of_nodup_map distinct (List.getElem_mem i.isLt) (List.getElem_mem j.isLt) same

/-- Only the name at the place of the word that differs is changed. -/
theorem NamesInOrder.text_at (order : NamesInOrder names) {i : Fin names.length}
    (here : change.stop = names[i].span.stop) (k : Fin names.length) :
    change.text names[k] = if k = i then change.word else names[k].node := by
  rw [Replacement.text]
  by_cases same : k = i
  · rw [if_pos same, if_pos (same ▸ here.symm)]
  · rw [if_neg same, if_neg]
    intro there
    have equal := order.stop_injective (List.getElem_mem k.isLt) (List.getElem_mem i.isLt)
      (there.trans here)
    exact same (index_of_same order.different.distinct (congrArg (·.node) equal))

/-- Where one name is changed into another one, the second of both repeats. -/
theorem NamesInOrder.second_repeats (order : NamesInOrder names) {i j : Fin names.length}
    (here : change.stop = names[i].span.stop) (word : change.word = names[j].node)
    (renamed : List.Forall₂ change.Names names twins) {found : Located String}
    (repeated : Reader.firstRepeat? [] twins = some found) :
    change.Moved names[max i j].span found.span ∧ found.node = names[j].node := by
  obtain ⟨before, after, rfl, earlier⟩ := first_repeat_split repeated
  obtain ⟨first, member, same⟩ := List.mem_map.mp (earlier.resolve_left List.not_mem_nil)
  obtain ⟨m, early, rfl⟩ := List.mem_iff_getElem.mp member
  have lengths := renamed.length_eq
  rw [List.length_append, List.length_cons] at lengths
  have second_named := renamed.get (show before.length < names.length by omega) (by simp)
  have first_named := renamed.get (show m < names.length by omega) (by simp; omega)
  simp only [List.get_eq_getElem, List.getElem_append_left early, List.getElem_append_right le_rfl,
    Nat.sub_self, List.getElem_cons_zero] at first_named second_named
  let one : Fin names.length := ⟨m, by omega⟩
  let two : Fin names.length := ⟨before.length, by omega⟩
  have less : one < two := early
  have texts : change.text names[one] = change.text names[two] :=
    first_named.same.symm.trans (same.trans second_named.same)
  suffices second : max i j = two by
    have named : change.Names (names.get (max i j)) found := by
      rw [second]
      exact second_named
    refine ⟨named.moved, ?_⟩
    have text : found.node = if max i j = i then change.word else (names.get (max i j)).node :=
      named.same.trans (order.text_at here (max i j))
    rw [text]
    split
    · exact word
    · rename_i other
      rw [(max_choice i j).resolve_left other]
      rfl
  rw [order.text_at here, order.text_at here, word] at texts
  split at texts <;> split at texts
  · rename_i first second
    exact absurd (first.trans second.symm) less.ne
  · rename_i first _
    rw [index_of_same order.different.distinct texts, ← first]
    exact max_eq_right less.le
  · rename_i _ second
    rw [← index_of_same order.different.distinct texts, ← second]
    exact max_eq_left less.le
  · exact absurd (index_of_same order.different.distinct texts) less.ne

end Repeating

/--
Accepted documents are well-formed, and so are the directives of their sources. The names of each
list differ and are in order; where another source differs in one of them only, which repeats a
second one there, that source is refused, and the error is at the later one of both.
-/
theorem accepted_documents_well_formed (source : String) (document : Document)
    (accepted : Document.ofSource source = .ok document) :
    document.WellFormed ∧
      (∀ cursor place directive left, Cursor.ofStream (.ofSource source) = .ok cursor →
        place <:+ cursor → Reader.directive.run place = .ok directive left →
          directive.node.WellFormed) ∧
      ∀ list, WrittenIn source document list → NamesInOrder list.2 ∧
        ∀ (i j : Fin list.2.length) (other : String), i ≠ j →
          OneWordApart source other list.2[i].span.stop list.2[j].node →
            ∃ span, (Replacement.between source other list.2[i].span.stop list.2[j].node).Moved
                list.2[max i j].span span ∧
              Document.ofSource other = .error ⟨.duplicate list.1 list.2[j].node, span⟩ := by
  refine ⟨Document.of_source_well_formed accepted, fun _ _ _ _ found among read =>
    directive_well_formed found among read, fun list written => ?_⟩
  obtain ⟨cursor, found, -, followed⟩ := Document.of_source_followed accepted
  obtain ⟨itself, beside⟩ := cursor.beside_itself
  have order := ((followed itself cursor beside).2 list written).1
  refine ⟨order, fun i j other different apart => ?_⟩
  obtain ⟨twin, opened, cursors⟩ := apart.cursors found
  let change := Replacement.between source other list.2[i].span.stop list.2[j].node
  have hit : change.stop ∈ stops list.2 := List.mem_map_of_mem (List.getElem_mem i.isLt)
  have same : change.text list.2[i] = change.text list.2[j] := by
    rw [order.text_at rfl i, order.text_at rfl j, if_pos rfl, if_neg different.symm]
    rfl
  have repeats : ¬ (list.2.map change.text).Nodup :=
    fun distinct => different (index_of_same distinct same)
  obtain ⟨names, repeated, renamed, first, refused⟩ := (followed change twin cursors).2 list written
    |>.2 hit repeats
  obtain ⟨moved, word⟩ := order.second_repeats rfl rfl renamed first
  refine ⟨repeated.span, moved, ?_⟩
  rw [Document.of_source_opened opened, refused, word]

/-- Names of the arguments of the field that an operation selects first. -/
def Definition.firstArguments? : Definition → Option (List (Located String))
  | .operation ⟨⟨_, _, _, _, .field ⟨⟨_, _, some arguments, _, _⟩, _⟩ :: _⟩, _⟩ =>
      some (arguments.node.map (·.name))
  | _ => none

theorem first_arguments_listed {definition : Definition} {names : List (Located String)}
    (first : definition.firstArguments? = some names) : definition.Lists (.argument, names) := by
  unfold Definition.firstArguments? at first
  split at first
  · cases first
    exact .selections ⟨_, List.mem_cons_self, .arguments .names⟩
  · cases first

/-- A word in the first line of a source, with its span. -/
def wordAt (word : String) (start stop : Nat) : Located String :=
  ⟨word, ⟨start, 1, start + 1⟩, ⟨stop, 1, stop + 1⟩⟩

def distinctArguments : String := "\x7bf(a:1,b:2)\x7d"

def repeatingArguments : String := "\x7bf(a:1,a:2)\x7d"

theorem arguments_one_word_apart :
    OneWordApart distinctArguments repeatingArguments (wordAt "b" 7 8).span.stop "a" :=
  ⟨by decide +kernel, by decide +kernel⟩

theorem repeated_argument_refused :
    Document.ofSource repeatingArguments =
      .error ⟨.duplicate .argument "a", (wordAt "a" 7 8).span⟩ := by
  have arguments : (Document.ofSource distinctArguments).toOption.map (fun document =>
      document.definitions.map Definition.firstArguments?) =
      some [some [wordAt "a" 3 4, wordAt "b" 7 8]] := by decide +kernel
  cases read : Document.ofSource distinctArguments with
  | error error =>
      rw [read] at arguments
      cases arguments
  | ok document =>
      rw [read] at arguments
      obtain ⟨definition, only, first⟩ := List.map_eq_singleton_iff.mp (Option.some.inj arguments)
      have written : WrittenIn distinctArguments document
          (.argument, [wordAt "a" 3 4, wordAt "b" 7 8]) :=
        .kept ⟨definition, by simp [only], first_arguments_listed first⟩
      obtain ⟨span, ⟨start, start_paired, stop, stop_paired, there, moved⟩, refused⟩ :=
        ((accepted_documents_well_formed _ _ read).2.2 _ written).2 1 0 repeatingArguments
          (by decide) arguments_one_word_apart
      have places : ∀ start ∈ (Replacement.between distinctArguments repeatingArguments
            (wordAt "b" 7 8).span.stop "a").pairs,
          ∀ stop ∈ (Replacement.between distinctArguments repeatingArguments
            (wordAt "b" 7 8).span.stop "a").pairs,
          (wordAt "b" 7 8).span = ⟨start.1.span.start, stop.1.span.stop⟩ →
            Span.mk start.2.span.start stop.2.span.stop = (wordAt "a" 7 8).span := by
        decide +kernel
      rw [refused, moved, places start start_paired stop stop_paired there]
      rfl

end GraphQL
