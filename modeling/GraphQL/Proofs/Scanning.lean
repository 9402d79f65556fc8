import GraphQL.Cursor
import GraphQL.Proofs.TokenGrammar

/-!
Tokens that are scanned back from their texts.

What stands behind a token must not be taken for a part of it. A text is laid out as tokens if it is
made of their texts and of layout, and if each token fits what comes next. Where separators stand
between all tokens it does not matter what comes next: a separator begins with something that is no
part of any token, which for a description is the end of its line.
-/

namespace GraphQL

/-- A text may stand right behind a token. -/
def Token.EndsBefore (token : Token) (rest : List Char) : Prop :=
  match token with
  | .description _ => ∀ c ∈ rest.head?, isLineEnd c = true
  | _ => ∀ c ∈ rest.head?, isIgnored c = true ∨ c = '#'

/-- A token is cut off from its own text, and scanning goes on behind it. -/
structure Token.ScansBack (token : Token) : Prop where
  split : ∃ c tail, token.text.toList = c :: tail ∧
    (∀ rest, splitIgnored false (c :: (tail ++ rest)) = ([], c :: (tail ++ rest))) ∧
    ∀ rest, token.EndsBefore rest → scanToken c (tail ++ rest) = .ok (token, rest)

/-- Tokens and layout one after another, each token fitting the text that comes next. -/
inductive Laid (fits : Token → List Char → Prop) : List Token → List Char → List Char → Prop where
  | nothing {rest} : Laid fits [] rest rest
  | layout {tokens space text rest} (between : Layout space) (more : Laid fits tokens text rest) :
      Laid fits tokens (space ++ text) rest
  | token {token tokens text rest} (fitting : fits token text) (more : Laid fits tokens text rest) :
      Laid fits (token :: tokens) (token.text.toList ++ text) rest

/-- Text that keeps a token apart from the next one. -/
structure Separator (token : Token) (space : List Char) : Prop where
  layout : Layout space
  filled : space ≠ []
  ends : ∀ text, token = .description text → ∀ c ∈ space.head?, isLineEnd c = true

/-- Tokens in a row, each kept apart from the next one in some way, the last maybe from the end. -/
inductive Written (apart : Token → List Char → Prop) : List Token → List Char → Prop where
  | nothing : Written apart [] []
  | last {token} : Written apart [token] token.text.toList
  | token {token space rest text} (gap : apart token space) (others : Written apart rest text) :
      Written apart (token :: rest) (token.text.toList ++ (space ++ text))

theorem Written.mono {apart other : Token → List Char → Prop} {tokens : List Token}
    {text : List Char} (written : Written apart tokens text)
    (wider : ∀ token space, apart token space → other token space) :
    Written other tokens text := by
  induction written with
  | nothing => exact .nothing
  | last => exact .last
  | token gap _ ih => exact .token (wider _ _ gap) ih

section Laying

variable {fits : Token → List Char → Prop} {tokens others : List Token}
  {text middle rest : List Char}

theorem Laid.mono {other : Token → List Char → Prop} (laid : Laid fits tokens text rest)
    (wider : ∀ token ∈ tokens, ∀ rest, fits token rest → other token rest) :
    Laid other tokens text rest := by
  induction laid with
  | nothing => exact .nothing
  | layout between _ ih => exact .layout between (ih wider)
  | token fitting _ ih =>
      refine .token (wider _ List.mem_cons_self _ fitting) (ih fun other member => ?_)
      exact wider other (List.mem_cons_of_mem _ member)

theorem Laid.append (first : Laid fits tokens text middle) (second : Laid fits others middle rest) :
    Laid fits (tokens ++ others) text rest := by
  induction first with
  | nothing => exact second
  | layout between _ ih => exact .layout between (ih second)
  | token fitting _ ih => exact .token fitting (ih second)

/-- The tokens of a text that is laid out are scanned one after another, and then the end token. -/
theorem scan_from_laid (laid : Laid Token.CutOff tokens text []) {space : List Char}
    (between : Layout space) {count : Nat} (position : Position)
    (enough : (space ++ text).length < count) :
    (TokenStream.scanFrom count position (space ++ text)).tokens.map (·.node) =
        tokens ++ [.endOfFile] ∧
      (TokenStream.scanFrom count position (space ++ text)).fault = none := by
  generalize ended : ([] : List Char) = last at laid
  induction laid generalizing space count position with
  | nothing =>
      obtain ⟨less, rfl⟩ := Nat.exists_eq_add_one.mpr (Nat.zero_lt_of_lt enough)
      rw [TokenStream.scanFrom, between.passed, ← ended]
      exact ⟨rfl, rfl⟩
  | layout behind _ ih =>
      rw [← List.append_assoc] at enough ⊢
      exact ih (between.append behind) position enough ended
  | @token token tokens text rest fitting _ ih =>
      obtain ⟨c, tail, same, begins, scanned⟩ := fitting.begins
      obtain ⟨less, rfl⟩ := Nat.exists_eq_add_one.mpr (Nat.zero_lt_of_lt enough)
      have shorter : text.length < less := by
        simp only [same, List.length_append, List.length_cons] at enough
        omega
      obtain ⟨found, none_failed⟩ :=
        ih .nothing ((position.past space).past token.text.toList) shorter ended
      rw [TokenStream.scanFrom, between.passed, same, List.cons_append, begins]
      dsimp only
      rw [scanned, List.append_nil]
      exact ⟨congrArg (token :: ·) found, none_failed⟩

theorem stream_laid (laid : Laid Token.CutOff tokens text []) :
    (TokenStream.ofText text).tokens.map (·.node) = tokens ++ [.endOfFile] ∧
      (TokenStream.ofText text).fault = none :=
  scan_from_laid laid .nothing .origin (Nat.lt_succ_self _)

/-- What ends a token is no letter, digit or dot. -/
theorem ends_no_word {c : Char} (ends : isIgnored c = true ∨ c = '#') :
    isNameContinue c = false ∧ c ≠ '.' := by
  have one_of : c = '\t' ∨ c = ' ' ∨ c = '\n' ∨ c = '\r' ∨ c = ',' ∨ c = '\uFEFF' ∨ c = '#' := by
    simpa [isIgnored, isLineEnd, or_assoc] using ends
  rcases one_of with rfl | rfl | rfl | rfl | rfl | rfl | rfl <;> decide

theorem Token.EndsBefore.stops {token : Token} (ends : token.EndsBefore rest) :
    token.StopsAt rest := by
  cases token with
  | string | punctuator => trivial
  | description => exact ends
  | _ => exact fun c next => ends_no_word (ends c next)

theorem Token.ScansBack.cut_off {token : Token} (back : token.ScansBack)
    (ends : token.EndsBefore rest) : token.CutOff rest := by
  obtain ⟨c, tail, same, begins, scanned⟩ := back.split
  exact ⟨c, tail, same, begins rest, scanned rest ends⟩

/-- Whether something is passed over shows in its first two characters. -/
theorem split_none_append {c : Char} {tail : List Char}
    (kept : splitIgnored false (c :: tail) = ([], c :: tail)) (rest : List Char) :
    splitIgnored false (c :: (tail ++ rest)) = ([], c :: (tail ++ rest)) := by
  rw [splitIgnored] at kept
  simp only [Bool.false_eq_true, if_false] at kept
  split at kept
  · cases (Prod.ext_iff.mp kept).1
  · rename_i meaning
    split at kept
    · cases (Prod.ext_iff.mp kept).1
    · rename_i no_comment
      refine split_none (Bool.eq_false_iff.mpr meaning) fun mark => ?_
      have second : tail.head? = some '#' := by
        by_contra other
        exact no_comment ⟨mark, other⟩
      rw [List.head?_append, second]
      rfl

/-- A token scans back if it is cut off wherever it may end. -/
theorem scans_back_of_cut_off {token : Token}
    (cut : ∀ rest, token.StopsAt rest → token.CutOff rest) : token.ScansBack := by
  have alone : token.StopsAt [] := by
    cases token <;> first | trivial | exact fun _ absent => by cases absent
  obtain ⟨c, tail, same, begins, -⟩ := (cut [] alone).begins
  rw [List.append_nil] at begins
  refine ⟨c, tail, same, split_none_append begins, fun rest ends => ?_⟩
  obtain ⟨first, others, text, -, scanned⟩ := (cut rest ends.stops).begins
  obtain ⟨rfl, rfl⟩ := List.cons.inj (text.symm.trans same)
  exact scanned

theorem Token.WellFormed.scans_back {token : Token} (spelled : token.WellFormed) :
    token.ScansBack := scans_back_of_cut_off fun _ => spelled.cut_off

theorem word_scans_back {name : String} (valid : Name.isValid name = true) :
    (Token.ofWord name).ScansBack := scans_back_of_cut_off fun _ => word_cut_off valid

theorem ends_before_nothing (token : Token) : token.EndsBefore [] := by
  cases token <;> exact fun _ absent => by cases absent

theorem Separator.ends_token {token : Token} {space : List Char} (apart : Separator token space)
    (text : List Char) : token.EndsBefore (space ++ text) := by
  obtain ⟨layout, filled, ends⟩ := apart
  obtain ⟨c, more, rfl⟩ := List.exists_cons_of_ne_nil filled
  cases token with
  | description line => exact ends line rfl
  | _ => exact layout.begins

/-- With separators between them, tokens fit whatever comes next. -/
theorem Written.laid (written : Written Separator tokens text)
    (ended : ∀ token ∈ tokens, ∀ rest, token.EndsBefore rest → fits token rest) :
    Laid fits tokens text [] := by
  induction written with
  | nothing => exact .nothing
  | @last token =>
      rw [← List.append_nil token.text.toList]
      exact .token (ended token List.mem_cons_self [] (ends_before_nothing token)) .nothing
  | @token token space rest text apart _ ih =>
      refine .token (ended token List.mem_cons_self _ (apart.ends_token text)) ?_
      exact .layout apart.layout (ih fun other member => ended other (List.mem_cons_of_mem _ member))

/-- Tokens that scan back are scanned back from a text that is made up of them. -/
theorem stream_written (written : Written Separator tokens text)
    (back : ∀ token ∈ tokens, token.ScansBack) :
    (TokenStream.ofText text).tokens.map (·.node) = tokens ++ [.endOfFile] ∧
      (TokenStream.ofText text).fault = none :=
  stream_laid (written.laid fun token member _ ends => (back token member).cut_off ends)

/--
Tokens of the grammar are scanned from any text that is made up of them and of separators, and then
the end token. Layout may also stand in front of the first token and behind the last one.
-/
theorem scanning_inverts_writing {lead : List Char} (spelled : ∀ token ∈ tokens, token.WellFormed)
    (leading : Layout lead) (written : Written Separator tokens text) :
    (TokenStream.ofText (lead ++ text)).tokens.map (·.node) = tokens ++ [.endOfFile] ∧
      (TokenStream.ofText (lead ++ text)).fault = none := by
  have laid : Laid Token.CutOff tokens text [] :=
    written.laid fun token member _ ends => (spelled token member).cut_off ends.stops
  exact stream_laid (.layout leading laid)

end Laying

def motley : List Token :=
  [.description " a", .keyword .type, .string "\"\\u00e9\\\"\"", .int "-0x1F", .float "1.5e-3",
    .name "_b"]

def motleyText : List Char :=
  "## a\r\n#c\ntype,\"\\u00e9\\\"\"\t-0x1F\uFEFF1.5e-3#,\r_b\n".toList

theorem motley_well_formed : ∀ token ∈ motley, token.WellFormed := by
  have line : ∀ c ∈ " a".toList, isLineEnd c = false := by simp [isLineEnd]
  have body : StringBody "\\u00e9\\\"".toList :=
    @StringBody.code '0' '0' 'e' '9' _ (by simp [isHexDigit]) (.short (by decide) .nothing)
  have digits : IsHexadecimal "0x1F".toList := ⟨'x', ['1', 'F'], by simp [isHexDigit]⟩
  have whole : IsWhole "1".toList := by simp [IsWhole]
  have fraction : IsFraction ".5".toList := ⟨['5'], by simp [Char.isDigit]⟩
  have exponent : IsExponent "e-3".toList := ⟨'e', ['-'], ['3'], by simp [Char.isDigit]⟩
  have float : IsFloating "1.5e-3".toList :=
    ⟨_, _, _, rfl, whole, .inr fraction, .inr exponent, by decide⟩
  have word : (Token.name "_b").WellFormed :=
    ⟨by decide, by decide, fun word => by cases word <;> decide⟩
  simp only [motley, List.forall_mem_cons]
  exact ⟨line, trivial, ⟨_, rfl, body⟩, .inr (.inr ⟨_, rfl, digits⟩), .inl float, word,
    List.forall_mem_nil _⟩

theorem motley_written : Written Separator motley motleyText := by
  have alone {token : Token} {c : Char} (ignored : isIgnored c = true)
      (ordinary : ∀ text, token ≠ .description text) : Separator token [c] :=
    ⟨.ignored ignored .nothing, by simp, fun text same => absurd same (ordinary text)⟩
  have comment {c last : Char} (inside : IsComment [c]) (ends : isLineEnd last = true) :
      Layout ['#', c, last] := @Layout.comment [c] last [] inside ends .nothing
  have letter : Layout "#c\n".toList := comment (by simp [IsComment]; decide) (by decide)
  have comma : Layout "#,\r".toList := comment (by simp [IsComment]; decide) (by decide)
  have lines : Separator (.description " a") "\r\n#c\n".toList :=
    ⟨.ignored (by decide) (.ignored (by decide) letter), by decide, fun _ _ => by simp; decide⟩
  have line : Separator (.float "1.5e-3") "#,\r".toList := ⟨comma, by decide, by simp⟩
  have last : Written Separator [.name "_b"] "_b\n".toList :=
    .token (alone (by decide) (by simp)) .nothing
  have numbers : Written Separator [.float "1.5e-3", .name "_b"] "1.5e-3#,\r_b\n".toList :=
    .token line last
  apply Written.token lines
  apply Written.token (alone (by decide) (by simp))
  apply Written.token (alone (by decide) (by simp))
  exact .token (alone (by decide) (by simp)) numbers

/-- Tokens of all sorts are scanned from between line ends, comments and other separators. -/
theorem motley_tokens_scanned :
    (∀ token ∈ motley, token.WellFormed) ∧ Layout ['\uFEFF'] ∧
      Written Separator motley motleyText ∧
      (TokenStream.ofText ('\uFEFF' :: motleyText)).tokens.map (·.node) = motley ++ [.endOfFile] ∧
      (TokenStream.ofText ('\uFEFF' :: motleyText)).fault = none := by
  have mark : Layout ['\uFEFF'] := .ignored (by decide) .nothing
  exact ⟨motley_well_formed, mark, motley_written,
    scanning_inverts_writing motley_well_formed mark motley_written⟩

/-- Characters that mean nothing, at least one; behind a description the line ends with them. -/
def Spaces (token : Token) (space : List Char) : Prop :=
  ∃ c rest, space = c :: rest ∧ (∀ other ∈ space, isIgnored other = true) ∧
    match token with
    | .description _ => isLineEnd c = true
    | _ => True

theorem layout_ignored {space : List Char} (ignored : ∀ c ∈ space, isIgnored c = true) :
    Layout space := by
  induction space with
  | nil => exact .nothing
  | cons c rest ih =>
      obtain ⟨first, others⟩ := List.forall_mem_cons.mp ignored
      exact .ignored first (ih others)

theorem spaces_separate {token : Token} {space : List Char} (spaces : Spaces token space) :
    Separator token space := by
  obtain ⟨c, rest, rfl, ignored, ends⟩ := spaces
  refine ⟨layout_ignored ignored, List.cons_ne_nil _ _, ?_⟩
  rintro line rfl other next
  cases next
  exact ends

/-- Tokens in a row with a blank behind each, or a line end behind descriptions. -/
def spaced : List Token → List Char
  | [] => []
  | [token] => token.text.toList
  | token :: rest =>
      match token with
      | .description _ => token.text.toList ++ (['\n'] ++ spaced rest)
      | _ => token.text.toList ++ ([' '] ++ spaced rest)

theorem written_spaced (tokens : List Token) : Written Spaces tokens (spaced tokens) := by
  have line_end : isIgnored '\n' = true := by decide
  have blank : isIgnored ' ' = true := by decide
  induction tokens with
  | nil => exact .nothing
  | cons token rest ih =>
      cases rest with
      | nil => exact .last
      | cons other more =>
          cases token with
          | description text =>
              exact .token ⟨'\n', [], rfl, List.forall_mem_singleton.mpr line_end, rfl⟩ ih
          | _ => exact .token ⟨' ', [], rfl, List.forall_mem_singleton.mpr blank, trivial⟩ ih

/-- Descriptions of one line that have no blanks at their ends. -/
def IsDescription (text : String) : Prop :=
  (∀ c ∈ text.toList, isLineEnd c = false) ∧ trimBlanks text.toList = text.toList

/-- A token and the description in front of it, wherever they stand. -/
structure Piece where
  token : Token
  description : Option String

def Token.plain (token : Token) : Piece := ⟨token, none⟩

/-- The tokens of a piece. A description is written on one line, maybe with blanks around it. -/
inductive Piece.Spelled : Piece → List Token → Prop where
  | plain (token : Token) : Spelled ⟨token, none⟩ [token]
  | described (token : Token) {text line : String}
      (one_line : ∀ c ∈ line.toList, isLineEnd c = false)
      (trimmed : trimBlanks line.toList = text.toList) :
      Spelled ⟨token, some text⟩ [.description line, token]

/-- A piece whose token is found again where it is written, and whose description can be written. -/
structure Piece.Proper (piece : Piece) : Prop where
  back : piece.token.ScansBack
  ordinary : ∀ text, piece.token ≠ .description text
  described : ∀ text ∈ piece.description, IsDescription text

/-- A spelling without blanks around the description. -/
def Piece.spelling (piece : Piece) : List Token :=
  match piece.description with
  | none => [piece.token]
  | some text => [.description text, piece.token]

theorem pieces_spelled {pieces : List Piece} (proper : ∀ piece ∈ pieces, piece.Proper) :
    List.Forall₂ Piece.Spelled pieces (pieces.map Piece.spelling) := by
  induction pieces with
  | nil => exact .nil
  | cons piece rest ih =>
      have others := ih fun other member => proper other (List.mem_cons_of_mem _ member)
      have fits := proper piece List.mem_cons_self
      obtain ⟨token, description⟩ := piece
      cases description with
      | none => exact .cons (.plain token) others
      | some text =>
          obtain ⟨one_line, trimmed⟩ := fits.described text rfl
          exact .cons (.described token one_line trimmed) others

def Entry.piece (entry : Entry) : Piece := ⟨entry.token.node, entry.description⟩

/-- What a cursor holds, places aside. -/
def Cursor.pieces (cursor : Cursor) : List Piece := cursor.map Entry.piece

theorem attach_ordinary {token : Located Token} (ordinary : ∀ text, token.node ≠ .description text)
    (waiting : List String) (rest : List (Located Token)) :
    Cursor.attach waiting (token :: rest) =
      ⟨token, Cursor.joinLines waiting⟩ :: Cursor.attach [] rest := by
  rw [Cursor.attach]
  split
  · rename_i line found
    exact absurd found (ordinary line)
  · rfl

/-- Descriptions wait at the tokens behind them. -/
theorem attach_pieces {pieces : List Piece} {spellings : List (List Token)}
    (spelled : List.Forall₂ Piece.Spelled pieces spellings)
    (proper : ∀ piece ∈ pieces, piece.Proper) {located : List (Located Token)}
    (tokens : located.map (·.node) = spellings.flatten ++ [.endOfFile]) :
    Cursor.pieces (Cursor.attach [] located) = pieces ++ [Token.endOfFile.plain] := by
  induction spelled generalizing located with
  | nil =>
      obtain ⟨last, rfl, ended⟩ := List.map_eq_singleton_iff.mp tokens
      rw [attach_ordinary (by rw [ended]; simp)]
      simp [Cursor.attach, Cursor.pieces, Entry.piece, Token.plain, Cursor.joinLines, ended]
  | cons first _ ih =>
      have fits := proper _ List.mem_cons_self
      have others := fun other member => proper other (List.mem_cons_of_mem _ member)
      cases first with
      | plain token =>
          obtain ⟨first, later, rfl, rfl, following⟩ := List.map_eq_cons_iff.mp tokens
          rw [attach_ordinary fits.ordinary, Cursor.pieces, List.map_cons]
          exact congrArg _ (ih others following)
      | @described token text line one_line trimmed =>
          obtain ⟨first, behind, rfl, same_line, following⟩ := List.map_eq_cons_iff.mp tokens
          obtain ⟨second, later, rfl, rfl, last⟩ := List.map_eq_cons_iff.mp following
          have waits : Cursor.attach [] (first :: second :: later) =
              Cursor.attach [text] (second :: later) := by
            rw [Cursor.attach, same_line]
            dsimp only
            rw [trimmed, String.ofList_toList, List.nil_append]
          rw [waits, attach_ordinary fits.ordinary, Cursor.pieces, List.map_cons]
          exact congrArg _ (ih others last)

theorem spelled_scan_back {pieces : List Piece} {spellings : List (List Token)}
    (spelled : List.Forall₂ Piece.Spelled pieces spellings)
    (proper : ∀ piece ∈ pieces, piece.Proper) :
    ∀ token ∈ spellings.flatten, token.ScansBack := by
  induction spelled with
  | nil => exact fun _ absent => by cases absent
  | cons first _ ih =>
      have fits := proper _ List.mem_cons_self
      have others := ih fun other member => proper other (List.mem_cons_of_mem _ member)
      refine List.forall_mem_append.mpr ⟨?_, others⟩
      cases first with
      | plain token => exact List.forall_mem_singleton.mpr fits.back
      | described token one_line trimmed =>
          exact List.forall_mem_cons.mpr
            ⟨Token.WellFormed.scans_back one_line, List.forall_mem_singleton.mpr fits.back⟩

/-- Once the tokens are scanned, the cursor of a text holds the pieces that they spell. -/
theorem cursor_spelled {pieces : List Piece} {spellings : List (List Token)}
    (spelled : List.Forall₂ Piece.Spelled pieces spellings)
    (proper : ∀ piece ∈ pieces, piece.Proper) {stream : TokenStream}
    (scanned : stream.tokens.map (·.node) = spellings.flatten ++ [.endOfFile] ∧
      stream.fault = none) :
    ∃ cursor, Cursor.ofStream stream = .ok cursor ∧
      Cursor.pieces cursor = pieces ++ [Token.endOfFile.plain] := by
  obtain ⟨tokens, none_failed⟩ := scanned
  refine ⟨_, ?_, attach_pieces spelled proper tokens⟩
  rw [Cursor.ofStream, none_failed]

/-- The cursor of a text holds the pieces that it is made up of, and then the end token. -/
theorem cursor_written {pieces : List Piece} {spellings : List (List Token)}
    (spelled : List.Forall₂ Piece.Spelled pieces spellings)
    (proper : ∀ piece ∈ pieces, piece.Proper) {text : List Char}
    (written : Written Spaces spellings.flatten text) :
    ∃ cursor, Cursor.ofStream (.ofText text) = .ok cursor ∧
      Cursor.pieces cursor = pieces ++ [Token.endOfFile.plain] :=
  cursor_spelled spelled proper
    (stream_written (written.mono fun _ _ => spaces_separate) (spelled_scan_back spelled proper))

end GraphQL
