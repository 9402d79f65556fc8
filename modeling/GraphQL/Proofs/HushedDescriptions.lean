import GraphQL.Proofs.ScanLocality

/-!
Descriptions that are made comments.

A description begins with two number signs. With a blank for the second one it is a comment, which is
passed over together with the layout around it. All other tokens stay where they are, and so does the
fault that ends them if there is one: up to there the text is scanned as before.
-/

namespace GraphQL

/-- The text of a token, a description being made a comment. -/
def Token.hushed : Token → List Char
  | .description line => '#' :: ' ' :: line.toList
  | token => token.text.toList

/-- A text with its descriptions made comments, up to the first fault; the count bounds the tokens. -/
def hushFrom : Nat → List Char → List Char
  | 0, text => text
  | count + 1, text =>
      let (ignored, rest) := splitIgnored false text
      match rest with
      | [] => text
      | c :: tail =>
          match scanToken c tail with
          | .error _ => text
          | .ok (token, left) => ignored ++ (token.hushed ++ hushFrom count left)

def hush (text : List Char) : List Char := hushFrom (text.length + 1) text

example : hush "## a\nscalar # b\nD ## c".toList = "#  a\nscalar # b\nD #  c".toList := by
  decide +kernel

/-- A stream without its descriptions. -/
def TokenStream.undescribed (stream : TokenStream) : TokenStream where
  tokens := stream.tokens.filter fun token => !token.node.isDescription
  fault := stream.fault

section Places

theorem past_append (place : Position) {first second : List Char}
    (whole : ¬ SplitsTerminator first second) :
    place.past (first ++ second) = (place.past first).past second := by
  fun_induction Position.past place first with
  | case1 => rfl
  | case2 place rest ih =>
      exact ih (later_whole (later_whole whole))
  | case3 place c rest single ends ih =>
      rw [← ih (later_whole whole), List.cons_append, Position.past, if_pos ends]
      exact still_single single whole
  | case4 place c rest single ends ih =>
      rw [← ih (later_whole whole), List.cons_append, Position.past, if_neg ends]
      exact still_single single whole

theorem past_char (place : Position) {c : Char} (inside : isLineEnd c = false) (rest : List Char) :
    place.past (c :: rest) = (place.pastChar c).past rest := by
  have ends : ¬ (c = '\n' ∨ c = '\r') := by
    rintro (rfl | rfl) <;> cases inside
  rw [Position.past, if_neg ends]
  exact fun _ same => absurd (.inr same) ends

end Places

section Tokens

variable {c : Char} {tail left : List Char} {token : Token} {line : String}

/-- A token is as wide as a comment as it was. -/
theorem hushed_past (token : Token) (place : Position) (more : List Char) :
    place.past (token.hushed ++ more) = place.past (token.text.toList ++ more) := by
  cases token with
  | description line =>
      have text : (Token.description line).text.toList = '#' :: '#' :: line.toList := by
        simp [Token.text]
      have sign : isLineEnd '#' = false := by decide
      rw [text, Token.hushed]
      simp only [List.cons_append]
      rw [past_char _ sign, past_char _ sign, past_char _ sign, past_char _ (by decide)]
      rfl
  | _ => rfl

theorem hushed_head (token : Token) (more : List Char) :
    (token.hushed ++ more).head? = (token.text.toList ++ more).head? := by
  cases token with
  | description line =>
      have text : (Token.description line).text.toList = '#' :: '#' :: line.toList := by
        simp [Token.text]
      rw [text]
      rfl
  | _ => rfl

theorem hushed_plain (plain : token.isDescription = false) :
    token.hushed = token.text.toList := by
  cases token with
  | description => cases plain
  | _ => rfl

theorem past_hushed (one : OneLine token.text.toList) (filled : token.text.toList ≠ [])
    {place : Position} {ignored more : List Char} :
    place.past (ignored ++ (token.hushed ++ more)) =
      ((place.past ignored).past token.text.toList).past more := by
  have whole : ¬ SplitsTerminator ignored (token.hushed ++ more) := by
    rw [SplitsTerminator, hushed_head]
    exact one.whole_behind filled
  have complete := one.complete [] filled
  rw [past_append place whole, hushed_past, past_append]
  exact fun split => complete split.1

theorem Token.description_of (described : token.isDescription = true) :
    ∃ line, token = .description line := by
  cases token with
  | description line => exact ⟨line, rfl⟩
  | _ => cases described

/-- A description begins with number signs and ends with its line. -/
theorem description_scanned (comment : c = '#' → tail.head? = some '#')
    (scanned : scanToken c tail = .ok (.description line, left)) :
    c = '#' ∧ OneLine line.toList ∧ ∀ d ∈ left.head?, isLineEnd d = true := by
  have covers := scan_token_covers comment
  rw [scanned] at covers
  obtain ⟨_, ⟨rfl, -, -⟩, whole, one⟩ := covers
  have text : (Token.description line).text.toList = '#' :: '#' :: line.toList := by
    simp [Token.text]
  rw [text] at whole one
  obtain ⟨rfl, rfl⟩ := List.cons.inj whole
  obtain ⟨-, rest⟩ := Prod.mk.inj (Except.ok.inj (scanned : Except.ok (scanDescription _) = _))
  refine ⟨rfl, fun d inside => one d (by simp [inside]), fun d first => ?_⟩
  rw [← rest] at first
  simpa using drop_while_stops (fun c => !isLineEnd c) _ d first

/-- Only descriptions begin with number signs. -/
theorem number_sign_described (scanned : scanToken '#' tail = .ok (token, left)) :
    token.isDescription = true := by
  cases scanned
  rfl

end Tokens

section Streams

/-- An open comment reaches up to the end of its line, or of the text. -/
theorem split_open_comment {line text : List Char} (one : OneLine line)
    (ends : ∀ c ∈ text.head?, isLineEnd c = true) :
    splitIgnored true (line ++ text) =
      (line ++ (splitIgnored false text).1, (splitIgnored false text).2) := by
  cases text with
  | nil =>
      rw [List.append_nil]
      induction line with
      | nil => rfl
      | cons c rest ih =>
          obtain ⟨inside, others⟩ := List.forall_mem_cons.mp one
          have later := ih others
          rw [splitIgnored] at later ⊢
          rw [splitIgnored, if_pos rfl, inside, Bool.not_false, later]
          rfl
  | cons c rest =>
      have ended := ends c rfl
      have meaningless : isIgnored c = true := by
        rw [isIgnored, ended]
        simp
      rw [split_comment one ended, splitIgnored, meaningless]
      rfl

/-- A description that is made a comment is passed over up to the end of its line. -/
theorem split_hushed {line : String} (one : OneLine line.toList) {text : List Char}
    (ends : ∀ c ∈ text.head?, isLineEnd c = true) :
    splitIgnored false ((Token.description line).hushed ++ text) =
      ((Token.description line).hushed ++ (splitIgnored false text).1,
        (splitIgnored false text).2) := by
  have blank : OneLine (' ' :: line.toList) := List.forall_mem_cons.mpr ⟨by decide, one⟩
  have opens : splitIgnored false ((Token.description line).hushed ++ text) =
      ('#' :: (splitIgnored true (' ' :: line.toList ++ text)).1,
        (splitIgnored true (' ' :: line.toList ++ text)).2) := by
    rw [Token.hushed, List.cons_append, splitIgnored]
    simp [show isIgnored '#' = false by decide]
  rw [opens, split_open_comment blank ends]
  rfl

/-- What stands in front of a text is passed over, and so is what is passed over in the text. -/
def PassedIn (space text : List Char) : Prop :=
  splitIgnored false (space ++ text) =
    (space ++ (splitIgnored false text).1, (splitIgnored false text).2)

section PassedIn

variable {space ignored text : List Char}

theorem PassedIn.description {line : String}
    (passed : PassedIn space (ignored ++ ((Token.description line).hushed ++ text)))
    (layout : Layout ignored) (one : OneLine line.toList)
    (ends : ∀ c ∈ text.head?, isLineEnd c = true) :
    PassedIn (space ++ (ignored ++ (Token.description line).hushed)) text := by
  rw [PassedIn, layout.passed, split_hushed one ends] at passed
  simpa [PassedIn] using passed

theorem PassedIn.token {c : Char} (passed : PassedIn space (ignored ++ c :: text))
    (layout : Layout ignored) (kept : isIgnored c = false) (unsigned : c ≠ '#') :
    splitIgnored false (space ++ (ignored ++ c :: text)) = (space ++ ignored, c :: text) := by
  rw [PassedIn, layout.passed, split_none kept fun sign => absurd sign unsigned,
    List.append_nil] at passed
  exact passed

end PassedIn

section Steps

variable {count : Nat} {place : Position} {text ignored tail left : List Char} {c : Char}

theorem scan_from_end (split : splitIgnored false text = (ignored, [])) :
    TokenStream.scanFrom (count + 1) place text =
      ⟨[⟨.endOfFile, .point (place.past ignored)⟩], none⟩ := by
  rw [TokenStream.scanFrom, split]

theorem scan_from_fault {fault : Fault} (split : splitIgnored false text = (ignored, c :: tail))
    (scanned : scanToken c tail = .error fault) :
    TokenStream.scanFrom (count + 1) place text =
      ⟨[], some ⟨fault.error, .point ((place.past ignored).past fault.skipped)⟩⟩ := by
  simp only [TokenStream.scanFrom, split, scanned]

theorem scan_from_token {token : Token} (split : splitIgnored false text = (ignored, c :: tail))
    (scanned : scanToken c tail = .ok (token, left)) :
    TokenStream.scanFrom (count + 1) place text =
      let stop := (place.past ignored).past token.text.toList
      let later := TokenStream.scanFrom count stop left
      ⟨⟨token, ⟨place.past ignored, stop⟩⟩ :: later.tokens, later.fault⟩ := by
  simp only [TokenStream.scanFrom, split, scanned]

theorem hush_end (split : splitIgnored false text = (ignored, [])) :
    hushFrom (count + 1) text = text := by
  rw [hushFrom, split]

theorem hush_fault {fault : Fault} (split : splitIgnored false text = (ignored, c :: tail))
    (scanned : scanToken c tail = .error fault) : hushFrom (count + 1) text = text := by
  simp only [hushFrom, split, scanned]

theorem hush_token {token : Token} (split : splitIgnored false text = (ignored, c :: tail))
    (scanned : scanToken c tail = .ok (token, left)) :
    hushFrom (count + 1) text = ignored ++ (token.hushed ++ hushFrom count left) := by
  simp only [hushFrom, split, scanned]

theorem hush_head (count : Nat) (text : List Char) :
    (hushFrom count text).head? = text.head? := by
  cases count with
  | zero => rfl
  | succ count =>
      obtain ⟨⟨whole, passes⟩, -⟩ := split_ignored_passes text
      generalize split : splitIgnored false text = parts at whole passes
      obtain ⟨ignored, rest⟩ := parts
      cases rest with
      | nil => rw [hush_end split]
      | cons c tail =>
          cases scanned : scanToken c tail with
          | error fault => rw [hush_fault split scanned]
          | ok result =>
              obtain ⟨token, left⟩ := result
              have covers := scan_token_covers (split_ignored_comment (congrArg Prod.snd split))
              rw [scanned] at covers
              obtain ⟨_, ⟨rfl, filled, -⟩, same, -⟩ := covers
              have heads : (token.hushed ++ hushFrom count left).head? =
                  (token.text.toList ++ left).head? := by
                obtain ⟨first, others, spelled⟩ := List.exists_cons_of_ne_nil filled
                rw [hushed_head, spelled]
                rfl
              dsimp only at whole
              rw [hush_token split scanned, ← whole, same, List.head?_append, heads,
                ← List.head?_append]

/-- A token that is no description is scanned as it was, and so is the text behind it. -/
theorem scan_hushed_token {token : Token} {allowed : Nat} {first : Position} {space : List Char}
    (split : splitIgnored false text = (ignored, c :: tail))
    (scanned : scanToken c tail = .ok (token, left)) (plain : token.isDescription = false)
    (passed : PassedIn space (ignored ++ (token.hushed ++ hushFrom count left)))
    (moved : ∀ more, first.past (space ++ more) = place.past more)
    (later : ∀ stop, TokenStream.scanFrom allowed stop (hushFrom count left) =
      (TokenStream.scanFrom count stop left).undescribed) :
    TokenStream.scanFrom (allowed + 1) first
        (space ++ (ignored ++ (token.hushed ++ hushFrom count left))) =
      (TokenStream.scanFrom (count + 1) place text).undescribed := by
  obtain ⟨⟨-, passes⟩, -⟩ := split_ignored_passes text
  rw [split] at passes
  cases passes with
  | token layout kept comment =>
      have covers := scan_token_covers comment
      rw [scanned] at covers
      obtain ⟨_, ⟨rfl, filled, -⟩, same, -⟩ := covers
      have unsigned : c ≠ '#' := by
        rintro rfl
        rw [number_sign_described scanned] at plain
        cases plain
      obtain ⟨_, spelled, letters⟩ := List.exists_cons_of_ne_nil filled
      rw [letters] at same
      obtain ⟨rfl, rfl⟩ := List.cons.inj same
      obtain ⟨again, rest, rescan⟩ := scan_token_local comment scanned
      obtain rfl := List.append_cancel_right rest
      rw [hushed_plain plain, letters, List.cons_append] at passed ⊢
      rw [scan_from_token (passed.token layout kept unsigned)
        (rescan _ (.inl (hush_head count left))), moved, scan_from_token split scanned]
      dsimp only
      rw [later]
      simp [TokenStream.undescribed, plain]

end Steps

/--
A text with its descriptions made comments is scanned as the text without its descriptions. What was
made a comment is passed over in front of the next token, so scanning may begin in front of it.
-/
theorem scan_hushed {count allowed : Nat} {first place : Position} {space text : List Char}
    (fits : text.length < count) (enough : (space ++ hushFrom count text).length < allowed)
    (passed : PassedIn space (hushFrom count text))
    (moved : ∀ more, first.past (space ++ more) = place.past more) :
    TokenStream.scanFrom allowed first (space ++ hushFrom count text) =
      (TokenStream.scanFrom count place text).undescribed := by
  induction count generalizing allowed first place space text with
  | zero => omega
  | succ count ih =>
      obtain ⟨less, rfl⟩ := Nat.exists_eq_add_one.mpr (Nat.zero_lt_of_lt enough)
      obtain ⟨⟨whole, passes⟩, -⟩ := split_ignored_passes text
      generalize split : splitIgnored false text = parts at whole passes
      obtain ⟨ignored, rest⟩ := parts
      cases passes with
      | ended last =>
          rw [PassedIn, hush_end split, split] at passed
          rw [hush_end split, scan_from_end passed, scan_from_end split, moved]
          rfl
      | token layout kept comment =>
          rename_i c tail
          cases scanned : scanToken c tail with
          | error fault =>
              rw [PassedIn, hush_fault split scanned, split] at passed
              rw [hush_fault split scanned, scan_from_fault passed scanned,
                scan_from_fault split scanned, moved]
              rfl
          | ok result =>
              obtain ⟨token, left⟩ := result
              have covers := scan_token_covers comment
              rw [scanned] at covers
              obtain ⟨_, ⟨rfl, filled, -⟩, same, one⟩ := covers
              dsimp only at whole layout
              have fewer : left.length < count := by
                have shorter := token_shortens (congrArg Prod.snd split) scanned
                omega
              rw [hush_token split scanned] at enough passed ⊢
              cases described : token.isDescription with
              | true =>
                  -- The comment is passed over together with what comes behind it.
                  obtain ⟨line, rfl⟩ := Token.description_of described
                  obtain ⟨-, one_line, ends⟩ := description_scanned comment scanned
                  rw [← hush_head count] at ends
                  have moved_on (more : List Char) :
                      first.past (space ++ (ignored ++ (Token.description line).hushed) ++ more) =
                        ((place.past ignored).past
                          (Token.description line).text.toList).past more := by
                    rw [List.append_assoc, List.append_assoc, moved, past_hushed one filled]
                  have room : (space ++ (ignored ++ (Token.description line).hushed) ++
                      hushFrom count left).length < less + 1 := by simpa using enough
                  have later := ih fewer room (passed.description layout one_line ends) moved_on
                  rw [List.append_assoc, List.append_assoc] at later
                  rw [scan_from_token split scanned]
                  exact later
              | false =>
                  refine scan_hushed_token split scanned described passed moved fun stop => ?_
                  refine @ih less stop stop [] left fewer ?_ rfl fun _ => rfl
                  rw [hushed_plain described] at enough
                  have width := List.length_pos_iff.mpr filled
                  simp only [List.length_append, List.length_nil] at enough ⊢
                  omega

theorem stream_hushed (text : List Char) :
    TokenStream.ofText (hush text) = (TokenStream.ofText text).undescribed :=
  @scan_hushed _ _ _ .origin [] text (Nat.lt_succ_self _) (Nat.lt_succ_self _) rfl fun _ => rfl

end Streams

end GraphQL
