import GraphQL.Proofs.TypePhrases

/-!
Spans of a document relocate its source.

All tokens of a source but descriptions are leaves of the phrase of its document, in order. As
tokens are where their texts are, so are the names, and every node of the phrase begins with its
first token, ends with its last one and holds its parts one behind the other. Between the dollar
sign and the name of a variable there may be text that readers pass over.
-/

namespace GraphQL

def Token.isDescription : Token → Bool
  | .description _ => true
  | _ => false

/-- The tokens that the grammar knows, which are all but descriptions. -/
def TokenStream.grammatical (stream : TokenStream) : List (Located Token) :=
  stream.tokens.filter fun token => !token.node.isDescription

/-- Text between two tokens of the grammar: layout, maybe with descriptions in it. -/
inductive Skipped : List Char → Prop where
  | layout {space} (between : Layout space) : Skipped space
  | description {space rest} (between : Layout space) (line : String) (more : Skipped rest) :
      Skipped (space ++ ((Token.description line).text.toList ++ rest))

/-- The span of a phrase, those of its parts and the texts at its names are as they should be. -/
structure Phrase.Relocates (source : String) (phrase : Phrase) : Prop where
  covering : Covering phrase.span phrase.leaves
  inside : ∀ part ∈ phrase.parts, phrase.span.start.index ≤ part.span.start.index ∧
    part.span.stop.index ≤ phrase.span.stop.index
  apart : phrase.parts.Pairwise fun first second => first.span.stop.index ≤ second.span.start.index
  named : ∀ name token, phrase = .named name token → name.span.slice source = name.node
  dollarNamed : ∀ name dollar word, phrase = .dollarNamed name dollar word →
    ∃ gap, gap = Span.slice ⟨dollar.span.stop, word.span.start⟩ source ∧ Skipped gap.toList ∧
      name.span.slice source = "$" ++ gap ++ name.node

/-- A document has a phrase over all its tokens, in which everything relocates its source. -/
def Document.Relocates (document : Document) (source : String) : Prop :=
  ∃ root, DocumentForm document [root] ∧
    root.leaves = (TokenStream.ofSource source).grammatical ∧
    ∀ phrase : Phrase, phrase.Inside root → phrase.Relocates source

section Tokens

variable {before text : List Char} {fault : Option (Located LexError)}

theorem Token.as_name_text {token : Token} {name : String} (named : token.asName? = some name) :
    token.text = name ∧ token ≠ .endOfFile ∧ token.isDescription = false := by
  unfold Token.asName? at named
  split at named <;> cases named <;> exact ⟨rfl, by simp, rfl⟩

/-- Behind some tokens, the next one is where its text is; only descriptions are skipped. -/
theorem Scanned.split {front rest : List (Located Token)} {token : Located Token}
    (scanned : Scanned before text (front ++ token :: rest) fault)
    (visible : token.node ≠ .endOfFile) :
    ∃ more left, text = more ++ (token.node.text.toList ++ left) ∧
      token.span = ⟨.behind (before ++ more), .behind (before ++ (more ++ token.node.text.toList))⟩ ∧
      Scanned (before ++ (more ++ token.node.text.toList)) left rest fault ∧
      ((∀ token ∈ front, token.node.isDescription = true) → Skipped more) := by
  induction front generalizing before text with
  | nil =>
      cases scanned with
      | ended => exact absurd rfl visible
      | @token _ space token left _ _ between _ _ _ others =>
          exact ⟨space, left, rfl, rfl, others, fun _ => .layout between⟩
  | cons first front ih =>
      generalize same : first :: front ++ token :: rest = tokens at scanned
      cases scanned with
      | ended => simp at same
      | faulty => simp at same
      | @token _ space other left _ _ between _ _ _ onward =>
          obtain ⟨rfl, rfl⟩ := List.cons.inj same
          obtain ⟨more, left, rfl, there, later, skipped⟩ := ih onward
          refine ⟨space ++ (other.text.toList ++ more), left, by simp, ?_, ?_, fun passed => ?_⟩
          · simpa using there
          · simpa using later
          · obtain ⟨described, others⟩ := List.forall_mem_cons.mp passed
            cases other with
            | description line => exact .description between line (skipped others)
            | _ => cases described

/-- Where two tokens are next to each other but for descriptions, what is between them is skipped. -/
theorem Scanned.adjacent {source : String} {tokens : List (Located Token)}
    (scanned : Scanned [] source.toList tokens fault) {first second : Located Token}
    (next : [first, second] <:+: tokens.filter fun token => !token.node.isDescription)
    (visible : first.node ≠ .endOfFile ∧ second.node ≠ .endOfFile) :
    ∃ gap, gap = Span.slice ⟨first.span.stop, second.span.start⟩ source ∧ Skipped gap.toList ∧
      Span.slice ⟨first.span.start, second.span.stop⟩ source =
        first.node.text ++ gap ++ second.node.text := by
  obtain ⟨earlier, later, same⟩ := next
  rw [List.append_assoc] at same
  obtain ⟨front, rest, rfl, -, between⟩ := List.filter_eq_append_iff.mp same.symm
  obtain ⟨others, behind, rfl, _, _, following⟩ := List.filter_eq_cons_iff.mp between
  obtain ⟨descriptions, final, rfl, passed, _, -⟩ := List.filter_eq_cons_iff.mp following
  rw [← List.append_assoc] at scanned
  obtain ⟨more, left, whole, there, scanned, -⟩ := scanned.split visible.1
  obtain ⟨gap, last, rfl, also, -, skipped⟩ := scanned.split visible.2
  simp only [List.nil_append, List.append_assoc] at there also
  have gap_text := @slice_behind (more ++ first.node.text.toList) gap
    (second.node.text.toList ++ last) source (by simp [whole])
  have text := @slice_behind more (first.node.text.toList ++ (gap ++ second.node.text.toList)) last
    source (by simp [whole])
  refine ⟨String.ofList gap, ?_, ?_, ?_⟩
  · simpa [there, also] using gap_text.symm
  · rw [String.toList_ofList]
    exact skipped (by simpa using passed)
  · simpa [there, also, String.ofList_append, String.append_assoc] using text

end Tokens

/-- A phrase that is placed over the tokens of a source relocates it. -/
theorem Phrase.Placed.relocates {source : String} {phrase : Phrase} (placed : phrase.Placed)
    (among : phrase.leaves <:+: (TokenStream.ofSource source).grammatical) :
    phrase.Relocates source := by
  have exact := stream_exact source
  have scanned : Scanned [] source.toList (TokenStream.ofSource source).tokens
      (TokenStream.ofSource source).fault :=
    scan_from_scanned (by simp) (Nat.lt_succ_self _)
  have fewer : phrase.leaves.Sublist (TokenStream.ofSource source).tokens :=
    among.sublist.trans List.filter_sublist
  have ordered : InOrder phrase.leaves := (InOrder.mk exact.forward exact.ordered).sublist fewer
  refine ⟨placed.covering, placed.parts_inside ordered, placed.parts_apart ordered, ?_, ?_⟩
  · rintro name token rfl
    cases placed with
    | named same there =>
        obtain ⟨text, visible, -⟩ := Token.as_name_text same
        have member := fewer.subset (List.mem_singleton.mpr rfl : token ∈ _)
        rw [there, exact.spelled token member visible, text]
  · rintro name dollar word rfl
    cases placed with
    | dollarNamed mark same there =>
        obtain ⟨text, visible, -⟩ := Token.as_name_text same
        obtain ⟨gap, between, skipped, spelled⟩ := scanned.adjacent among ⟨by simp [mark], visible⟩
        refine ⟨gap, between, skipped, ?_⟩
        rw [there, spelled, mark, text]
        rfl

section Documents

/-- Descriptions leave the tokens of a cursor. -/
theorem attach_tokens (waiting : List String) (tokens : List (Located Token)) :
    (Cursor.attach waiting tokens).tokens = tokens.filter fun token => !token.node.isDescription := by
  induction tokens generalizing waiting with
  | nil => rfl
  | cons token rest ih =>
      rw [Cursor.attach]
      split
      · rename_i line described
        rw [ih, List.filter_cons_of_neg]
        simp [described, Token.isDescription]
      · rename_i ordinary
        rw [List.filter_cons_of_pos, Cursor.tokens, List.map_cons]
        · exact congrArg (token :: ·) (ih [])
        · cases kind : token.node with
          | description line => exact absurd kind (ordinary line)
          | _ => rfl

theorem cursor_tokens {source : String} {cursor : Cursor}
    (found : Cursor.ofStream (.ofSource source) = .ok cursor) :
    cursor.tokens = (TokenStream.ofSource source).grammatical ∧
      ∃ front ending, (∀ token ∈ front, token.node ≠ .endOfFile) ∧
        cursor.tokens = front ++ [ending] := by
  unfold Cursor.ofStream at found
  split at found
  · cases found
  · rename_i complete
    cases found
    have tokens := attach_tokens [] (TokenStream.ofSource source).tokens
    refine ⟨tokens, ?_⟩
    obtain ⟨front, ordinary, whole⟩ := (stream_exact source).ended complete
    rw [tokens, whole, List.filter_append]
    refine ⟨_, _, fun token member => ordinary token (List.mem_of_mem_filter member), rfl⟩

/-- What is left in front of the end token is that token alone. -/
theorem left_at_end {front taken left : List (Located Token)} {ending : Located Token}
    (ordinary : ∀ token ∈ front, token.node ≠ .endOfFile) (same : front ++ [ending] = taken ++ left)
    (filled : left ≠ []) (ends : ∀ token ∈ left.head?, token.node = .endOfFile) :
    left = [ending] := by
  rcases List.append_eq_append_iff.mp same with ⟨more, -, others⟩ | ⟨more, rfl, others⟩
  · cases more with
    | nil => exact others.symm
    | cons => simp [filled] at others
  · cases more with
    | nil => exact others
    | cons token rest =>
        have last := ends token (by rw [others]; rfl)
        exact absurd last (ordinary token (by simp))

/-- Around its definitions and the end token a document is where these are. -/
theorem document_hull {cursor : Cursor} {trees : List Phrase} {ending : Located Token}
    (placed : ∀ tree ∈ trees, tree.Placed)
    (same : cursor.tokens = Phrase.partLeaves trees ++ [ending]) :
    Hull ⟨(cursor.head?.map fun entry => entry.token.span.start).getD .origin, ending.span.stop⟩
      (trees ++ [.leaf ending]) := by
  have start : cursor.head?.map (fun entry => entry.token.span.start) =
      cursor.tokens.head?.map fun token => token.span.start := by
    simp [Cursor.tokens, Function.comp_def]
  rw [start, same]
  cases trees with
  | nil => rfl
  | cons tree more =>
      obtain ⟨first, begins, last, -, there⟩ := (placed tree List.mem_cons_self).covering
      rw [Phrase.partLeaves, List.head?_append, List.head?_append, Option.mem_def.mp begins,
        List.cons_append, Hull, parts_stop_append, there]
      rfl

/-- A document that is placed over the tokens of a source relocates it. -/
theorem document_relocates {source : String} {definitions : List Definition} {span : Span}
    {trees : List Phrase} {ending : Located Token} (each : Each DefinitionForm definitions trees)
    (ends : ending.node = .endOfFile) (placed : ∀ tree ∈ trees, tree.Placed)
    (hull : Hull span (trees ++ [.leaf ending]))
    (tokens : Phrase.partLeaves trees ++ [ending] = (TokenStream.ofSource source).grammatical) :
    Document.Relocates ⟨definitions, span⟩ source := by
  have root : (Phrase.node span (trees ++ [.leaf ending])).Placed :=
    .node hull (List.forall_mem_append.mpr ⟨placed, List.forall_mem_singleton.mpr .leaf⟩)
  have leaves : (Phrase.node span (trees ++ [.leaf ending])).leaves =
      (TokenStream.ofSource source).grammatical := by
    rw [← tokens, Phrase.leaves, part_leaves_append]
    rfl
  refine ⟨_, .document each ends, leaves, fun phrase inside => ?_⟩
  exact (root.inside inside).relocates (leaves ▸ inside.leaves)

/-- Everything in an accepted document is where its tokens are in the source. -/
theorem accepted_spans_relocate (source : String) (document : Document)
    (accepted : Document.ofSource source = .ok document) : document.Relocates source := by
  unfold Document.ofSource Document.ofText Document.ofStream at accepted
  split at accepted
  · cases accepted
  rename_i cursor found
  obtain ⟨tokens, front, ending, ordinary, whole⟩ := cursor_tokens found
  unfold Document.ofCursor at accepted
  split at accepted
  · cases accepted
  rename_i definitions left ran
  obtain ⟨trees, taken, placed, each, remains⟩ :=
    (Reader.definitions_build _).run cursor definitions left (fun _ _ => trivial) ran
  have ends := Reader.definitions_end ran
  have last : left.tokens = [ending] := by
    refine left_at_end ordinary (whole.symm.trans taken) (remains ?_) ends
    simp [whole]
  unfold Document.ofDefinitions at accepted
  split at accepted
  · cases accepted
  cases accepted
  rw [last] at taken ends
  obtain ⟨entry, rfl, rfl⟩ := List.map_eq_singleton_iff.mp last
  exact document_relocates each (ends _ rfl) placed (document_hull placed taken)
    (taken.symm.trans tokens)

/-- A source of two definitions in which most kinds of nodes of a request occur. -/
def relocatedRequest : String :=
  "query Q($id: [ID!] = [4, \"a\"]) @live \x7b\n  hero(id: $id, at: \x7bx: 1\x7d) \x7b name ...F \x7d\n\x7d\n" ++
    "## Heroes\nfragment F on Hero \x7b id \x7d"

theorem request_relocated :
    ∃ document, Document.ofSource relocatedRequest = .ok document ∧
      document.Relocates relocatedRequest := by
  have accepts : (Document.ofSource relocatedRequest).isOk = true := by decide +kernel
  cases read : Document.ofSource relocatedRequest with
  | error error =>
      rw [read] at accepts
      cases accepts
  | ok document => exact ⟨document, rfl, accepted_spans_relocate _ _ read⟩

end Documents

section Variables

/-- The names under which the operations of a document define variables. -/
def Document.variableNames (document : Document) : List (Located String) :=
  document.operations.flatMap fun operation =>
    match operation.node.variableDefinitions with
    | none => []
    | some list => list.node.map VariableDefinition.name

/-- A variable that is written apart from its dollar sign. -/
def spacedVariable : String := "query($ x:Int)\x7bf\x7d"

/-- Where a blank follows the dollar sign, the span of the name holds it too. -/
theorem spaced_variable_kept :
    ∃ document, Document.ofSource spacedVariable = .ok document ∧
      ∃ name ∈ document.variableNames, name.span.slice spacedVariable = "$ x" ∧
        name.span.slice spacedVariable ≠ "$" ++ name.node := by
  have names : (Document.ofSource spacedVariable).toOption.map (fun document =>
      document.variableNames.map fun name => (name.node, name.span.slice spacedVariable)) =
      some [("x", "$ x")] := by decide +kernel
  cases read : Document.ofSource spacedVariable with
  | error error =>
      rw [read] at names
      cases names
  | ok document =>
      rw [read] at names
      obtain ⟨name, only, same⟩ := List.map_eq_singleton_iff.mp (Option.some.inj names)
      obtain ⟨node, slice⟩ := Prod.mk.inj same
      refine ⟨document, rfl, name, by simp [only], slice, ?_⟩
      rw [slice, node]
      decide

end Variables

end GraphQL
