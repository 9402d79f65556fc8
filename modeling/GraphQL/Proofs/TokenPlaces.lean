import GraphQL.Proofs.SourceOffsets
import GraphQL.Proofs.TokenGrammar

/-!
Where tokens and faults are in a source.

A source is made of layout and of the texts of its tokens, up to the end or to the first fault. Each
scanner takes a part of one line off its input, so places are never counted on from inside of a line
terminator, and each of them is what its byte offset says.
-/

namespace GraphQL

/-- A scan takes a part of one line off its input, or reports a fault behind such a part. -/
def Covers {α : Type} (spells : α → List Char → Prop) (input : List Char) : Scan α → Prop
  | .ok (found, left) => ∃ text, spells found text ∧ input = text ++ left ∧ OneLine text
  | .error fault => ∃ left, input = fault.skipped ++ left ∧ OneLine fault.skipped

/-- Some characters are found as they are. -/
def SpellsRun (found text : List Char) : Prop := found = text ∧ text ≠ []

/-- A token is found with its text; the end token never is. -/
structure SpellsToken (token : Token) (text : List Char) : Prop where
  same : token.text.toList = text
  filled : text ≠ []
  visible : token ≠ .endOfFile

/-- Digits that were scanned, and what is scanned behind them. -/
def Scan.andThen (scanned : Scan (List Char)) (next : List Char → List Char → Scan Token) :
    Scan Token :=
  match scanned with
  | .error fault => .error fault
  | .ok (found, left) => next found left

section Scanners

variable {input : List Char}

theorem and_then_covers {scanned : Scan (List Char)} {next : List Char → List Char → Scan Token}
    (first : Covers SpellsRun input scanned)
    (second : ∀ text left, OneLine text → text ≠ [] →
      Covers SpellsToken (text ++ left) (next text left)) :
    Covers SpellsToken input (scanned.andThen next) := by
  cases scanned with
  | error fault => exact first
  | ok result =>
      obtain ⟨text, ⟨rfl, filled⟩, rfl, line⟩ := first
      exact second _ _ line filled

theorem scan_run_covers {inClass : Char → Bool}
    (unended : inClass '\n' = false ∧ inClass '\r' = false) {before : List Char}
    (one : OneLine before) (text : List Char) :
    Covers SpellsRun (before ++ text) (scanRun inClass before text) := by
  unfold scanRun
  split
  · exact ⟨[], rfl, one⟩
  · rename_i c more
    split
    · rename_i belongs
      refine ⟨_, ⟨rfl, ?_⟩, ?_, one.append (.of_class unended fun _ => List.mem_takeWhile_imp)⟩
      · simp [belongs]
      · rw [List.append_assoc, List.takeWhile_append_dropWhile]
    · exact ⟨_, rfl, one⟩

/-- The constructors of number tokens. -/
def IsNumberKind (make : String → Token) : Prop := make = .int ∨ make = .float

theorem IsNumberKind.spelled {make : String → Token} (kind : IsNumberKind make)
    {text : List Char} (filled : text ≠ []) : SpellsToken (make (String.ofList text)) text := by
  rcases kind with rfl | rfl
  · exact ⟨String.toList_ofList, filled, by simp⟩
  · exact ⟨String.toList_ofList, filled, by simp⟩

theorem end_number_covers {make : String → Token} (kind : IsNumberKind make) {digits : List Char}
    (one : OneLine digits) (filled : digits ≠ []) (rest : List Char) :
    Covers SpellsToken (digits ++ rest) (endNumber make digits rest) := by
  unfold endNumber
  split
  · split
    · exact ⟨_, rfl, one⟩
    · exact ⟨_, kind.spelled filled, rfl, one⟩
  · exact ⟨_, kind.spelled filled, rfl, one⟩

theorem digits_unended : Char.isDigit '\n' = false ∧ Char.isDigit '\r' = false := by decide

/-- Behind the mark of an exponent an optional sign is read, and then digits. -/
theorem scan_exponent_marked (make : String → Token) (before : List Char) {mark : Char}
    (marked : mark = 'e' ∨ mark = 'E') (rest : List Char) :
    ∃ sign digits, rest = sign ++ digits ∧ sign ∈ [[], ['+'], ['-']] ∧
      scanExponent make before (mark :: rest) =
        Scan.andThen (scanRun Char.isDigit (before ++ mark :: sign) digits) (endNumber .float) := by
  have unsigned (positive : ∀ tail, rest = '+' :: tail → False)
      (negative : ∀ tail, rest = '-' :: tail → False) :
      scanExponent make before (mark :: rest) =
        Scan.andThen (scanRun Char.isDigit (before ++ [mark]) rest) (endNumber .float) := by
    rw [scanExponent, if_pos marked]
    · rfl
    · exact positive
    · exact negative
  cases rest with
  | nil => exact ⟨[], [], rfl, by simp, unsigned (fun _ => by simp) (fun _ => by simp)⟩
  | cons c tail =>
      by_cases positive : c = '+'
      · subst positive
        exact ⟨['+'], tail, rfl, by simp, by rw [scanExponent, if_pos marked]; rfl⟩
      · by_cases negative : c = '-'
        · subst negative
          exact ⟨['-'], tail, rfl, by simp, by rw [scanExponent, if_pos marked]; rfl⟩
        · refine ⟨[], c :: tail, rfl, by simp, unsigned ?_ ?_⟩
          · exact fun _ same => positive (List.cons.inj same).1
          · exact fun _ same => negative (List.cons.inj same).1

theorem scan_exponent_covers {make : String → Token} (kind : IsNumberKind make)
    {before : List Char} (one : OneLine before) (filled : before ≠ []) (text : List Char) :
    Covers SpellsToken (before ++ text) (scanExponent make before text) := by
  cases text with
  | nil => exact end_number_covers kind one filled []
  | cons mark rest =>
      by_cases marked : mark = 'e' ∨ mark = 'E'
      · obtain ⟨sign, digits, rfl, signed, scanned⟩ :=
          scan_exponent_marked make before marked rest
        have on_line : OneLine [mark] := by
          rcases marked with rfl | rfl <;> exact List.forall_mem_singleton.mpr (by decide)
        have sign_on_line : OneLine sign := by
          simp only [List.mem_cons, List.not_mem_nil, or_false] at signed
          rcases signed with rfl | rfl | rfl
          · exact one_line_nothing
          · exact List.forall_mem_singleton.mpr (by decide)
          · exact List.forall_mem_singleton.mpr (by decide)
        have covered :=
          scan_run_covers digits_unended (one.append (on_line.append sign_on_line)) digits
        rw [scanned]
        rw [List.append_assoc, List.append_assoc] at covered
        exact and_then_covers covered fun _ left one filled => end_number_covers (.inr rfl) one filled left
      · unfold scanExponent
        dsimp only
        rw [if_neg marked]
        exact end_number_covers kind one filled _

theorem scan_fraction_covers {before : List Char} (one : OneLine before) (filled : before ≠ [])
    (text : List Char) :
    Covers SpellsToken (before ++ text) (scanFraction before text) := by
  unfold scanFraction
  split
  · rename_i rest
    have dotted : OneLine (before ++ ['.']) := one.append (List.forall_mem_singleton.mpr (by decide))
    have covered := scan_run_covers digits_unended dotted rest
    rw [List.append_assoc, List.singleton_append] at covered
    exact and_then_covers covered fun _ left one filled => scan_exponent_covers (.inr rfl) one filled left
  · exact scan_exponent_covers (.inl rfl) one filled text

theorem scan_unsigned_covers {sign : List Char} (one : OneLine sign) (text : List Char) :
    Covers SpellsToken (sign ++ text) (scanUnsigned sign text) := by
  unfold scanUnsigned
  split
  · exact ⟨[], rfl, one⟩
  · rename_i mark rest
    have zero : OneLine ['0'] := List.forall_mem_singleton.mpr (by decide)
    split
    · rename_i base
      have prefixed : OneLine (sign ++ ['0', mark]) := by
        have on_line : OneLine [mark] := by
          rcases base with rfl | rfl <;> exact List.forall_mem_singleton.mpr (by decide)
        exact one.append (zero.append on_line)
      have covered := @scan_run_covers isHexDigit (by decide) _ prefixed rest
      rw [List.append_assoc] at covered
      exact and_then_covers covered fun _ left one filled => end_number_covers (.inl rfl) one filled left
    · split
      · exact ⟨mark :: rest, by simp, one.append zero⟩
      · have covered := scan_fraction_covers (one.append zero) (by simp) (mark :: rest)
        rwa [List.append_assoc] at covered
  · rename_i c rest _
    split
    · rename_i digit
      have digits : OneLine (c :: rest.takeWhile Char.isDigit) :=
        .of_class digits_unended (List.forall_mem_cons.mpr ⟨digit, fun _ => List.mem_takeWhile_imp⟩)
      have covered := scan_fraction_covers (one.append digits) (by simp) (rest.dropWhile Char.isDigit)
      rwa [List.append_assoc, List.cons_append, List.takeWhile_append_dropWhile] at covered
    · exact ⟨_, rfl, one_line_nothing⟩

theorem scan_number_covers (text : List Char) : Covers SpellsToken text (scanNumber text) := by
  unfold scanNumber
  split
  · exact scan_unsigned_covers (List.forall_mem_singleton.mpr (by decide)) _
  · exact scan_unsigned_covers one_line_nothing text

/-- What covers an input still does with more in front of both. -/
theorem prepend_covers {front : List Char} (one : OneLine front) {scanned : Scan (List Char)}
    (covers : Covers (fun found text => text = found ++ ['"']) input scanned) :
    Covers (fun found text => text = found ++ ['"']) (front ++ input) (prependScan front scanned) := by
  cases scanned with
  | ok result =>
      obtain ⟨text, rfl, rfl, line⟩ := covers
      exact ⟨_, rfl, by simp, by rw [List.append_assoc]; exact one.append line⟩
  | error fault =>
      obtain ⟨left, rfl, line⟩ := covers
      exact ⟨left, by simp [Fault.after], one.append line⟩

theorem scan_string_covers (input : List Char) :
    Covers (fun found text => text = found ++ ['"']) input (scanString input) := by
  have escape : OneLine ['\\'] := List.forall_mem_singleton.mpr (by decide)
  have code : OneLine ['\\', 'u'] := escape.append (List.forall_mem_singleton.mpr (by decide))
  fun_induction scanString input with
  | case1 => exact ⟨[], rfl, one_line_nothing⟩
  | case2 rest => exact ⟨['"'], rfl, rfl, List.forall_mem_singleton.mpr (by decide)⟩
  | case3 => exact ⟨[], rfl, escape⟩
  | case4 rest digits four ih => exact prepend_covers code ih
  | case5 rest digits other all =>
      obtain ⟨left, same⟩ : digits <+: rest := (List.takeWhile_prefix _).trans (List.take_prefix 4 rest)
      have inside : OneLine digits := .of_class (by decide) fun _ => List.mem_takeWhile_imp
      exact ⟨left, by simp [same], code.append inside⟩
  | case6 rest => exact ⟨'u' :: rest, rfl, escape⟩
  | case7 c rest other short ih =>
      have inside : OneLine [c] := .of_class (by decide) (List.forall_mem_singleton.mpr short)
      exact prepend_covers (escape.append inside) ih
  | case8 c rest | case9 c rest => exact ⟨c :: rest, rfl, escape⟩
  | case10 c rest | case12 c rest => exact ⟨c :: rest, rfl, one_line_nothing⟩
  | case11 c rest _ _ _ inside _ ih =>
      exact prepend_covers (List.forall_mem_singleton.mpr (Bool.eq_false_iff.mpr inside)) ih

theorem scan_spread_covers (rest : List Char) :
    Covers SpellsToken ('.' :: rest) (scanSpread rest) := by
  have dot : OneLine ['.'] := List.forall_mem_singleton.mpr (by decide)
  unfold scanSpread
  split
  · exact ⟨[], rfl, dot⟩
  · exact ⟨[], rfl, dot.append dot⟩
  · exact ⟨['.', '.', '.'], ⟨rfl, by simp, by simp⟩, rfl, dot.append (dot.append dot)⟩
  · exact ⟨_, rfl, one_line_nothing⟩

theorem Token.of_word_visible (text : String) : Token.ofWord text ≠ .endOfFile := by
  unfold Token.ofWord
  split
  · simp
  · split
    · simp
    · split
      · simp
      · cases Keyword.ofText? text <;> simp

theorem Punctuator.of_char_text {c : Char} {mark : Punctuator}
    (found : Punctuator.ofChar? c = some mark) :
    mark.text.toList = [c] ∧ OneLine [c] := by
  unfold Punctuator.ofChar? at found
  split at found <;> cases found
  all_goals exact ⟨rfl, List.forall_mem_singleton.mpr (by decide)⟩

/-- The token that begins with a character is taken off, or a fault is reported in it. -/
theorem scan_token_covers {c : Char} {rest : List Char}
    (comment : c = '#' → rest.head? = some '#') :
    Covers SpellsToken (c :: rest) (scanToken c rest) := by
  unfold scanToken
  split
  · rename_i mark found
    obtain ⟨text, line⟩ := Punctuator.of_char_text found
    exact ⟨[c], ⟨text, by simp, by simp⟩, rfl, line⟩
  · split
    · rename_i number_sign
      obtain ⟨line, rfl⟩ : ∃ line, rest = '#' :: line := List.head?_eq_some_iff.mp (comment number_sign)
      subst number_sign
      have inside : OneLine (line.takeWhile fun c => !isLineEnd c) :=
        .of_class (by decide) fun _ => List.mem_takeWhile_imp
      have marks : OneLine ['#', '#'] := by simp [OneLine, isLineEnd]
      refine ⟨['#', '#'] ++ line.takeWhile fun c => !isLineEnd c, ⟨?_, by simp, by simp⟩, ?_,
        marks.append inside⟩
      · simp [Token.text]
      · rw [List.append_assoc]
        exact congrArg (['#', '#'] ++ ·) List.takeWhile_append_dropWhile.symm
    split
    · rename_i dot
      subst dot
      exact scan_spread_covers rest
    split
    · rename_i quote
      subst quote
      have one : OneLine ['"'] := List.forall_mem_singleton.mpr (by decide)
      have covered := scan_string_covers rest
      split
      · rename_i fault failed
        rw [failed] at covered
        obtain ⟨left, rfl, line⟩ := covered
        exact ⟨left, rfl, one.append line⟩
      · rename_i inside left found
        rw [found] at covered
        obtain ⟨text, rfl, rfl, line⟩ := covered
        exact ⟨'"' :: (inside ++ ['"']), ⟨String.toList_ofList, by simp, by simp⟩, rfl,
          one.append line⟩
    split
    · exact scan_number_covers (c :: rest)
    split
    · rename_i start
      refine ⟨(c :: rest).takeWhile isNameContinue, ⟨?_, ?_, Token.of_word_visible _⟩, ?_, ?_⟩
      · exact (congrArg String.toList (Token.of_word_text _)).trans String.toList_ofList
      · simp [name_start_continues start]
      · exact List.takeWhile_append_dropWhile.symm
      · exact .of_class (by decide) fun _ => List.mem_takeWhile_imp
    · exact ⟨_, rfl, one_line_nothing⟩

end Scanners

/-- Layout that ends a source; a comment there may lack the end of its line. -/
def LastLayout (text : List Char) : Prop :=
  ∃ layout comment, text = layout ++ comment ∧ Layout layout ∧
    (comment = [] ∨ ∃ line, comment = '#' :: line ∧ IsComment line)

/-- What is passed over in a source, and what is left: nothing, or a text that begins a token. -/
inductive Passes : List Char → List Char → Prop where
  | ended {space} (last : LastLayout space) : Passes space []
  | token {space c rest} (between : Layout space) (kept : isIgnored c = false)
      (comment : c = '#' → rest.head? = some '#') : Passes space (c :: rest)

section Passing

variable {space more rest text : List Char}

theorem Passes.behind (passes : Passes more rest) (between : Layout space) :
    Passes (space ++ more) rest := by
  cases passes with
  | ended last =>
      obtain ⟨layout, comment, rfl, inside, ends⟩ := last
      exact .ended ⟨space ++ layout, comment, by rw [List.append_assoc], between.append inside, ends⟩
  | token inside kept comment => exact .token (between.append inside) kept comment

/-- In a comment, the rest of its line is passed over first. -/
inductive PassesComment : List Char → List Char → Prop where
  | ended {line} (one : OneLine line) : PassesComment line []
  | line {line c more rest} (one : OneLine line) (ends : isLineEnd c = true)
      (passes : Passes more rest) : PassesComment (line ++ c :: more) rest

theorem PassesComment.behind (passes : PassesComment more rest) (one : OneLine space) :
    PassesComment (space ++ more) rest := by
  cases passes with
  | ended other => exact .ended (one.append other)
  | line other ends passes =>
      rw [← List.append_assoc]
      exact .line (one.append other) ends passes

theorem PassesComment.passes (passes : PassesComment space rest)
    (opens : space.head? ≠ some '#') : Passes ('#' :: space) rest := by
  cases passes with
  | ended one => exact .ended ⟨[], _, rfl, .nothing, .inr ⟨_, rfl, one, opens⟩⟩
  | @line line c more rest one ends passes =>
      have inside : line.head? ≠ some '#' := by
        cases line with
        | nil => simp
        | cons => exact opens
      have comment : Layout ('#' :: (line ++ [c])) := .comment ⟨one, inside⟩ ends .nothing
      have passed := passes.behind comment
      rwa [List.cons_append, List.append_assoc] at passed

/-- Nothing is lost where text is passed over, and only layout is. -/
theorem split_ignored_passes (text : List Char) :
    ((splitIgnored false text).1 ++ (splitIgnored false text).2 = text ∧
        Passes (splitIgnored false text).1 (splitIgnored false text).2) ∧
      (splitIgnored true text).1 ++ (splitIgnored true text).2 = text ∧
        PassesComment (splitIgnored true text).1 (splitIgnored true text).2 := by
  induction text with
  | nil =>
      refine ⟨⟨rfl, .ended ⟨[], [], rfl, .nothing, .inl rfl⟩⟩, rfl, .ended one_line_nothing⟩
  | cons c rest ih =>
      obtain ⟨⟨whole, passes⟩, commented, in_comment⟩ := ih
      constructor
      · rw [splitIgnored]
        simp only [Bool.false_eq_true, if_false]
        split
        · rename_i meaningless
          exact ⟨congrArg (c :: ·) whole, passes.behind (.ignored meaningless .nothing)⟩
        · rename_i meaning
          split
          · rename_i opens
            obtain ⟨rfl, no_description⟩ := opens
            refine ⟨congrArg ('#' :: ·) commented, in_comment.passes fun described => ?_⟩
            refine no_description ?_
            rw [← commented, List.head?_append, described]
            rfl
          · rename_i no_comment
            refine ⟨rfl, .token .nothing (Bool.eq_false_iff.mpr meaning) fun mark => ?_⟩
            by_contra other
            exact no_comment ⟨mark, other⟩
      · rw [splitIgnored, if_pos rfl]
        cases ends : isLineEnd c with
        | true =>
            exact ⟨congrArg (c :: ·) whole, .line one_line_nothing ends passes⟩
        | false =>
            have first : OneLine [c] := List.forall_mem_singleton.mpr ends
            exact ⟨congrArg (c :: ·) commented, in_comment.behind first⟩

end Passing

/--
How the rest of a source is scanned behind some text: up to its end, up to a fault, or up to a token
and then on behind the token. All places are those behind what was scanned so far.
-/
inductive Scanned : List Char → List Char → List (Located Token) → Option (Located LexError) → Prop
    where
  | ended {before space} (last : LastLayout space) :
      Scanned before space [⟨.endOfFile, .point (.behind (before ++ space))⟩] none
  | faulty {before space skipped left error} (between : Layout space) (one : OneLine skipped)
      (begins : ∃ c ∈ (skipped ++ left).head?, isIgnored c = false) :
      Scanned before (space ++ (skipped ++ left)) []
        (some ⟨error, .point (.behind (before ++ (space ++ skipped)))⟩)
  | token {before space token left tokens fault} (between : Layout space)
      (one : OneLine token.text.toList) (filled : token.text.toList ≠ [])
      (visible : token ≠ .endOfFile)
      (others : Scanned (before ++ (space ++ token.text.toList)) left tokens fault) :
      Scanned before (space ++ (token.text.toList ++ left))
        (⟨token, .behind (before ++ space), .behind (before ++ (space ++ token.text.toList))⟩ :: tokens)
        fault

/-- Scanning from behind a text goes on as it should. -/
theorem scan_from_scanned {count : Nat} {before text : List Char}
    (complete : before.getLast? ≠ some '\r') (enough : text.length < count) :
    Scanned before text (TokenStream.scanFrom count (.behind before) text).tokens
      (TokenStream.scanFrom count (.behind before) text).fault := by
  induction count generalizing before text with
  | zero => omega
  | succ count ih =>
      obtain ⟨⟨whole, passes⟩, -⟩ := split_ignored_passes text
      have between {space : List Char} : (Position.behind before).past space = .behind (before ++ space) :=
        past_behind fun split => complete split.1
      rw [TokenStream.scanFrom]
      generalize splitIgnored false text = parts at whole passes ⊢
      obtain ⟨space, rest⟩ := parts
      subst whole
      dsimp only at passes enough ⊢
      rw [between]
      cases passes with
      | ended last =>
          rw [List.append_nil]
          exact .ended last
      | @token c tail layout kept comment =>
          have covers := scan_token_covers comment
          dsimp only
          cases scanned : scanToken c tail with
          | error fault =>
              rw [scanned] at covers
              obtain ⟨left, same, line⟩ := covers
              dsimp only
              rw [past_one_line _ line, List.append_assoc, same]
              exact .faulty layout line ⟨c, by rw [← same]; rfl, kept⟩
          | ok result =>
              rw [scanned] at covers
              obtain ⟨token, left⟩ := result
              obtain ⟨_, ⟨rfl, filled, visible⟩, same, line⟩ := covers
              have fewer : left.length < count := by
                have width := List.length_pos_iff.mpr filled
                rw [same] at enough
                simp only [List.length_append] at enough
                omega
              have others := ih (line.complete (before ++ space) filled) fewer
              dsimp only
              rw [past_one_line _ line, same]
              rw [List.append_assoc] at others ⊢
              exact .token layout line filled visible others

/-- The text of a source between two places. -/
def textBetween (source : String) (start stop : Position) : List Char :=
  (Span.slice ⟨start, stop⟩ source).toList

/-- Layout stands in front of a token; on the last line of a source that may be an open comment. -/
def LaidBefore (token : Token) (gap : List Char) : Prop :=
  if token = .endOfFile then LastLayout gap else Layout gap

/--
From a place on, a source holds layout and the given tokens. Behind the last of them it is at its end,
or there is more layout and the part of a token in front of a fault.
-/
def OnlyLayout (source : String) (fault : Option (Located LexError)) :
    Position → List (Located Token) → Prop
  | place, [] =>
      match fault with
      | none => place = .behind source.toList
      | some fault =>
          ∃ space begun, textBetween source place fault.span.start = space ++ begun ∧
            Layout space ∧ OneLine begun ∧ ∀ c ∈ begun.head?, isIgnored c = false
  | place, token :: rest =>
      LaidBefore token.node (textBetween source place token.span.start) ∧
        OnlyLayout source fault token.span.stop rest

/-- All the places that a stream tells, those of a token or a fault in a row. -/
def TokenStream.places (stream : TokenStream) : List Position :=
  stream.tokens.flatMap (fun token => [token.span.start, token.span.stop]) ++
    stream.fault.toList.flatMap fun fault => [fault.span.start, fault.span.stop]

/-- A stream shows all of a source, in order and where it is. -/
structure TokenStream.Exact (stream : TokenStream) (source : String) : Prop where
  forward : ∀ token ∈ stream.tokens, token.span.start.index ≤ token.span.stop.index
  ordered : stream.tokens.Pairwise fun first second =>
    first.span.stop.index ≤ second.span.start.index
  spelled : ∀ token ∈ stream.tokens, token.node ≠ .endOfFile →
    token.span.slice source = token.node.text
  laid : OnlyLayout source stream.fault .origin stream.tokens
  ended : stream.fault = none → ∃ front, (∀ token ∈ front, token.node ≠ .endOfFile) ∧
    stream.tokens = front ++ [⟨.endOfFile, .point (.behind source.toList)⟩]
  failed : ∀ fault ∈ stream.fault, ∀ token ∈ stream.tokens, token.node ≠ .endOfFile ∧
    token.span.stop.index ≤ fault.span.start.index
  placed : ∀ place ∈ stream.places, Position.ofOffset? source.toList place.index = some place

section Exactness

variable {before text : List Char} {tokens : List (Located Token)} {fault : Option (Located LexError)}

theorem behind_index_mono (before text : List Char) :
    (Position.behind before).index ≤ (Position.behind (before ++ text)).index := by
  simp [Position.behind, byte_length_append]

/-- Nothing is told to be further in front than what was scanned before. -/
theorem Scanned.later (scanned : Scanned before text tokens fault) :
    (∀ token ∈ tokens, (Position.behind before).index ≤ token.span.start.index) ∧
      ∀ found ∈ fault, (Position.behind before).index ≤ found.span.start.index := by
  induction scanned with
  | ended last =>
      refine ⟨List.forall_mem_singleton.mpr (behind_index_mono _ _), fun _ absent => ?_⟩
      cases absent
  | faulty between one begins =>
      refine ⟨fun _ absent => ?_, fun found same => ?_⟩
      · cases absent
      · cases same
        exact behind_index_mono _ _
  | @token before space token _ _ _ _ _ _ _ _ ih =>
      have onward := behind_index_mono before (space ++ token.text.toList)
      refine ⟨List.forall_mem_cons.mpr ⟨behind_index_mono _ _, fun other member => ?_⟩, ?_⟩
      · exact onward.trans (ih.1 other member)
      · exact fun found same => onward.trans (ih.2 found same)

theorem Scanned.forward (scanned : Scanned before text tokens fault) :
    ∀ token ∈ tokens, token.span.start.index ≤ token.span.stop.index := by
  induction scanned with
  | ended => exact List.forall_mem_singleton.mpr le_rfl
  | faulty => exact fun _ absent => by cases absent
  | @token before space token _ _ _ _ _ _ _ _ ih =>
      have onward := behind_index_mono (before ++ space) token.text.toList
      rw [List.append_assoc] at onward
      exact List.forall_mem_cons.mpr ⟨onward, ih⟩

theorem Scanned.ordered (scanned : Scanned before text tokens fault) :
    tokens.Pairwise fun first second => first.span.stop.index ≤ second.span.start.index := by
  induction scanned with
  | ended => exact List.pairwise_singleton _ _
  | faulty => exact .nil
  | token _ _ _ _ others ih => exact .cons others.later.1 ih

theorem Scanned.spelled (scanned : Scanned before text tokens fault) {source : String}
    (same : source.toList = before ++ text) :
    ∀ token ∈ tokens, token.node ≠ .endOfFile → token.span.slice source = token.node.text := by
  induction scanned with
  | ended => exact List.forall_mem_singleton.mpr fun visible => absurd rfl visible
  | faulty => exact fun _ absent => by cases absent
  | @token before space token left _ _ _ _ _ _ _ ih =>
      refine List.forall_mem_cons.mpr ⟨fun _ => ?_, ih (by simp [same])⟩
      have slice := @slice_behind (before ++ space) token.text.toList left source (by simp [same])
      rw [List.append_assoc, String.ofList_toList] at slice
      exact slice

theorem between_behind (before text after : List Char) {source : String}
    (same : source.toList = before ++ (text ++ after)) :
    textBetween source (.behind before) (.behind (before ++ text)) = text := by
  rw [textBetween, slice_behind before text after same, String.toList_ofList]

theorem Scanned.laid (scanned : Scanned before text tokens fault) {source : String}
    (same : source.toList = before ++ text) : OnlyLayout source fault (.behind before) tokens := by
  induction scanned with
  | @ended before space last =>
      have gap := between_behind before space [] (by simpa using same)
      refine ⟨?_, by rw [OnlyLayout, same]; rfl⟩
      rw [LaidBefore, if_pos rfl]
      exact gap.symm ▸ last
  | @faulty before space skipped left error between one begins =>
      have gap := @between_behind before (space ++ skipped) left source (by simp [same])
      refine ⟨space, skipped, gap, between, one, fun c first => ?_⟩
      obtain ⟨d, second, kept⟩ := begins
      rw [List.head?_append, Option.mem_def.mp first] at second
      cases second
      exact kept
  | @token before space token left _ _ between _ _ visible _ ih =>
      have gap := between_behind before space (token.text.toList ++ left) same
      refine ⟨?_, ih (by simp [same])⟩
      rw [LaidBefore, if_neg visible]
      exact gap.symm ▸ between

theorem Scanned.reaches_end (scanned : Scanned before text tokens fault) (complete : fault = none) :
    ∃ front, (∀ token ∈ front, token.node ≠ .endOfFile) ∧
      tokens = front ++ [⟨.endOfFile, .point (.behind (before ++ text))⟩] := by
  induction scanned with
  | ended => exact ⟨[], List.forall_mem_nil _, rfl⟩
  | faulty => cases complete
  | @token _ _ token _ _ _ _ _ _ visible _ ih =>
      obtain ⟨front, ordinary, rfl⟩ := ih complete
      simp only [List.append_assoc]
      exact ⟨⟨token, _⟩ :: front, List.forall_mem_cons.mpr ⟨visible, ordinary⟩, rfl⟩

theorem Scanned.stops_at_fault (scanned : Scanned before text tokens fault) :
    ∀ found ∈ fault, ∀ token ∈ tokens, token.node ≠ .endOfFile ∧
      token.span.stop.index ≤ found.span.start.index := by
  induction scanned with
  | ended => exact fun _ absent => by cases absent
  | faulty => exact fun _ _ _ absent => by cases absent
  | token _ _ _ visible others ih =>
      intro found same
      exact List.forall_mem_cons.mpr ⟨⟨visible, others.later.2 found same⟩, ih found same⟩

/-- What begins with a character that means something begins with no part of a line terminator. -/
theorem kept_whole {before after : List Char} (begins : ∃ c ∈ after.head?, isIgnored c = false) :
    ¬ SplitsTerminator before after := by
  rintro ⟨-, feed⟩
  obtain ⟨c, first, kept⟩ := begins
  rw [feed] at first
  cases first
  cases kept

/-- What is read of a faulty token begins with no part of a terminator, and neither does the rest. -/
theorem skipped_whole {before space skipped left : List Char} (one : OneLine skipped)
    (begins : ∃ c ∈ (skipped ++ left).head?, isIgnored c = false) :
    ¬ SplitsTerminator (before ++ (space ++ skipped)) left := by
  cases skipped with
  | nil => exact kept_whole begins
  | cons c more =>
      rw [← List.append_assoc]
      exact fun split => one.complete (before ++ space) (by simp) split.1

theorem Scanned.placed (scanned : Scanned before text tokens fault) :
    ∀ place ∈ TokenStream.places ⟨tokens, fault⟩,
      Position.ofOffset? (before ++ text) place.index = some place := by
  induction scanned with
  | @ended before space =>
      have exact_place := @of_offset_behind (before ++ space) [] fun split => by cases split.2
      rw [List.append_nil] at exact_place
      simpa [TokenStream.places, Span.point] using exact_place
  | @faulty before space skipped left error between one begins =>
      have exact_place := of_offset_behind (@skipped_whole before space _ _ one begins)
      simp only [List.append_assoc] at exact_place
      simpa [TokenStream.places, Span.point] using exact_place
  | @token before space token left tokens fault between one filled visible _ ih =>
      have start := of_offset_behind (@OneLine.whole_behind (before ++ space) _ one filled left)
      have stop := @of_offset_behind (before ++ space ++ token.text.toList) left
        fun split => one.complete (before ++ space) filled split.1
      simp only [List.append_assoc] at start stop ih
      simp only [TokenStream.places, List.flatMap_cons, List.append_assoc]
      exact List.forall_mem_append.mpr
        ⟨List.forall_mem_cons.mpr ⟨start, List.forall_mem_singleton.mpr stop⟩, ih⟩

theorem stream_exact (source : String) : (TokenStream.ofSource source).Exact source := by
  have scanned : Scanned [] source.toList (TokenStream.ofSource source).tokens
      (TokenStream.ofSource source).fault :=
    scan_from_scanned (by simp) (Nat.lt_succ_self _)
  exact {
    forward := scanned.forward
    ordered := scanned.ordered
    spelled := scanned.spelled rfl
    laid := scanned.laid rfl
    ended := scanned.reaches_end
    failed := scanned.stops_at_fault
    placed := scanned.placed }

end Exactness

end GraphQL
