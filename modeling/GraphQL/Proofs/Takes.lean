import GraphQL.Proofs.Scanning
import GraphQL.Proofs.Yields

/-!
What readers take off a cursor.

Places aside, a cursor is a list of tokens with the descriptions in front of them. A reader takes
some of them off if it succeeds wherever they stand, leaves the others and yields something of which
a property holds. Readers are followed rule by rule; what they look at without taking it is asked of
the first token that is left.
-/

namespace GraphQL

/-- There is a next token, and it is none of some. -/
def Avoids (tokens : List Token) : List Piece → Prop
  | [] => False
  | piece :: _ => piece.token ∉ tokens

section Avoiding

variable {tokens : List Token} {part rest : List Piece}

theorem Avoids.append (avoids : Avoids tokens part) : Avoids tokens (part ++ rest) := by
  cases part with
  | nil => cases avoids
  | cons piece more => exact avoids

theorem Avoids.ne_nil (avoids : Avoids tokens part) : part ≠ [] := by
  rintro rfl
  cases avoids

theorem Avoids.mono {fewer : List Token} (avoids : Avoids tokens part)
    (contained : ∀ token ∈ fewer, token ∈ tokens) : Avoids fewer part := by
  cases part with
  | nil => cases avoids
  | cons piece more => exact fun found => avoids (contained _ found)

/-- A part that may be missing does not begin with some tokens, and neither does what follows. -/
theorem Avoids.optional (missing : part ≠ [] → Avoids tokens part) (after : Avoids tokens rest) :
    Avoids tokens (part ++ rest) := by
  cases part with
  | nil => exact after
  | cons piece more => exact (missing (List.cons_ne_nil _ _)).append

/-- A name is none of the tokens that cannot be names. -/
theorem Avoids.named {piece : Piece} {text : String} (named : piece.token.asName? = some text)
    (marks : ∀ token ∈ tokens, token.asName? = none) : Avoids tokens (piece :: rest) := by
  intro found
  rw [marks _ found] at named
  cases named

end Avoiding

theorem Token.of_word_name (text : String) : (Token.ofWord text).asName? = some text := by
  unfold Token.ofWord
  split
  · rename_i same
    rw [same]
    rfl
  · split
    · rename_i same
      rw [same]
      rfl
    · split
      · rename_i same
        rw [same]
        rfl
      · cases found : Keyword.ofText? text with
        | none => rfl
        | some word => exact congrArg some (Keyword.of_text_eq found)

/-- Parts that are not empty are at least as many tokens as there are parts. -/
theorem parts_length {γ : Type} {pieces : γ → List Piece} {values : List γ}
    (filled : ∀ value ∈ values, pieces value ≠ []) :
    values.length ≤ (values.flatMap pieces).length := by
  induction values with
  | nil => exact Nat.le_refl 0
  | cons value rest ih =>
      have first := List.length_pos_of_ne_nil (filled value List.mem_cons_self)
      have others := ih fun other member => filled other (List.mem_cons_of_mem _ member)
      rw [List.flatMap_cons, List.length_append, List.length_cons]
      omega

namespace Reader

variable {α β : Type} {property : α → Prop} {input middle rest : List Piece}

/-- On every cursor that holds the input, a reader leaves the rest and yields what it should. -/
structure Takes (reader : Reader α) (input rest : List Piece) (property : α → Prop) : Prop where
  run : ∀ cursor : Cursor, cursor.pieces = input → ∃ value left,
    reader.run cursor = .ok value left ∧ Cursor.pieces left = rest ∧ property value

namespace Takes

theorem pure {value : α} (holds : property value) : Takes (Pure.pure value) input input property :=
  ⟨fun cursor same => ⟨value, cursor, rfl, same, holds⟩⟩

theorem bind {reader : Reader α} {next : α → Reader β} {result : β → Prop}
    (first : Takes reader input middle property)
    (second : ∀ value, property value → Takes (next value) middle rest result) :
    Takes (reader >>= next) input rest result := by
  refine ⟨fun cursor same => ?_⟩
  obtain ⟨value, left, ran, remaining, holds⟩ := first.run cursor same
  obtain ⟨other, last, ended, left_over, final⟩ := (second value holds).run left remaining
  exact ⟨other, last, (run_ok_bind ran).trans ended, left_over, final⟩

theorem mono {goal : α → Prop} {reader : Reader α} (takes : Takes reader input rest property)
    (weaker : ∀ value, property value → goal value) : Takes reader input rest goal := by
  refine ⟨fun cursor same => ?_⟩
  obtain ⟨value, left, ran, remaining, holds⟩ := takes.run cursor same
  exact ⟨value, left, ran, remaining, weaker value holds⟩

/-- Readers see how many tokens are left. -/
theorem count : Takes get input input fun cursor : Cursor => cursor.length = input.length :=
  ⟨fun cursor same => ⟨cursor, cursor, rfl, same, by rw [← same, Cursor.pieces, List.length_map]⟩⟩

section Tokens

variable {piece : Piece} {rest : List Piece}

theorem peek : Takes peek (piece :: rest) (piece :: rest) fun token => token.node = piece.token := by
  refine ⟨fun cursor same => ?_⟩
  match cursor, same with
  | entry :: others, same =>
      obtain ⟨first, -⟩ := List.cons.inj same
      exact ⟨entry.token, entry :: others, rfl, same, congrArg Piece.token first⟩

theorem take_description (token : Token) (description : Option String) :
    Takes takeDescription (⟨token, description⟩ :: rest) (token.plain :: rest)
      fun found => found = description := by
  refine ⟨fun cursor same => ?_⟩
  match cursor, same with
  | entry :: others, same =>
      obtain ⟨first, after⟩ := List.cons.inj same
      refine ⟨entry.description, ⟨entry.token, none⟩ :: others, rfl, ?_,
        congrArg Piece.description first⟩
      exact congrArg₂ List.cons (congrArg Token.plain (congrArg Piece.token first)) after

/-- The last token is never handed out, so something has to follow. -/
theorem next (follows : rest ≠ []) :
    Takes next (piece :: rest) rest fun token => token.node = piece.token := by
  refine ⟨fun cursor same => ?_⟩
  match cursor, same with
  | [_], same => exact absurd (List.cons.inj same).2.symm follows
  | entry :: second :: others, same =>
      obtain ⟨first, after⟩ := List.cons.inj same
      exact ⟨entry.token, second :: others, rfl, after, congrArg Piece.token first⟩

theorem sees (token : Token) : Takes (sees token) (piece :: rest) (piece :: rest)
    fun found => found = decide (piece.token = token) := by
  rw [Reader.sees]
  refine peek.bind fun found same => ?_
  rw [same]
  exact .pure rfl

theorem sees_present (token : Token) {description : Option String} :
    Takes (Reader.sees token) (⟨token, description⟩ :: rest) (⟨token, description⟩ :: rest)
      fun found => found = true :=
  (sees token).mono fun _ same => same.trans (decide_eq_true rfl)

theorem sees_other {token : Token} {tokens : List Token} {input : List Piece}
    (avoids : Avoids tokens input) (among : token ∈ tokens) :
    Takes (Reader.sees token) input input fun found => found = false := by
  match input, avoids with
  | piece :: rest, avoids =>
      refine (sees token).mono fun found same => ?_
      rw [same, decide_eq_false]
      rintro rfl
      exact avoids among

theorem expect (token : Token) {description : Option String} (follows : rest ≠ []) :
    Takes (expect token) (⟨token, description⟩ :: rest) rest fun found => found.node = token := by
  rw [Reader.expect]
  refine peek.bind fun found same => ?_
  rw [if_pos same]
  exact next follows

theorem skip_present {token : Token} {description : Option String} (follows : rest ≠ []) :
    Takes (skip? token) (⟨token, description⟩ :: rest) rest
      fun found => ∃ taken, found = some taken := by
  rw [skip?]
  refine peek.bind fun found same => ?_
  rw [if_pos same]
  exact (next follows).bind fun taken _ => .pure ⟨taken, rfl⟩

/-- A token that is missing is not skipped, as long as the source goes on. -/
theorem skip_missing {token : Token} {tokens : List Token} {input : List Piece}
    (avoids : Avoids tokens input) (among : token ∈ tokens) (goes_on : .endOfFile ∈ tokens) :
    Takes (skip? token) input input fun found => found = none := by
  match input, avoids with
  | piece :: rest, avoids =>
      rw [skip?]
      refine peek.bind fun found same => ?_
      have other : found.node ≠ token := by
        rintro rfl
        exact avoids (same ▸ among)
      have more : found.node ≠ .endOfFile := by
        intro ended
        exact avoids (same ▸ ended ▸ goes_on)
      rw [if_neg other, if_neg more]
      exact .pure rfl

/-- Whatever may be a name is taken as one. -/
theorem name {text : String} (named : piece.token.asName? = some text) (follows : rest ≠ []) :
    Takes name (piece :: rest) rest fun found => found.node = text := by
  rw [Reader.name]
  refine peek.bind fun found same => ?_
  have more : found.node ≠ .endOfFile := by
    intro ended
    rw [← same, ended] at named
    cases named
  rw [if_neg more, same]
  simp only [named]
  exact (next follows).bind fun taken _ => .pure rfl

/-- Names that are distinct are let through. -/
theorem reject_repeats (kind : NameKind) {names : List (Located String)} {input : List Piece}
    (distinct : (names.map (·.node)).Nodup) :
    Takes (rejectRepeats kind names) input input fun _ => True := by
  rw [rejectRepeats, first_repeat_distinct distinct fun _ _ absent => by cases absent]
  exact .pure trivial

end Tokens

section Lists

variable {γ δ : Type} {item : Reader α} {closing : Token} {pieces : γ → List Piece}
  {view : α → δ} {goal : γ → δ} {avoided : List Token} {bound : Nat}

/-- Behind an item stands the next one, or the closing token. -/
theorem follows_items {values : List γ}
    (begins : ∀ value ∈ values, Avoids (closing :: .endOfFile :: avoided) (pieces value))
    (closes : closing ∉ avoided) (rest : List Piece) :
    Avoids avoided (values.flatMap pieces ++ closing.plain :: rest) := by
  cases values with
  | nil => exact closes
  | cons value others =>
      have start := (begins value List.mem_cons_self).mono fun token member =>
        List.mem_cons_of_mem closing (List.mem_cons_of_mem .endOfFile member)
      rw [List.flatMap_cons, List.append_assoc]
      exact start.append

/--
Items are read up to a closing token, if each of them is read in front of whatever may follow it: the
next item, or the closing token.
-/
theorem items_until {values : List γ}
    (each : ∀ value ∈ values, ∀ rest, Avoids avoided rest →
      Takes item (pieces value ++ rest) rest fun found => view found = goal value)
    (begins : ∀ value ∈ values, Avoids (closing :: .endOfFile :: avoided) (pieces value))
    (closes : closing ∉ avoided) (enough : values.length < bound) (follows : rest ≠ []) :
    Takes (itemsUntil closing item bound) (values.flatMap pieces ++ closing.plain :: rest) rest
      fun found => found.1.map view = values.map goal := by
  induction values generalizing bound with
  | nil =>
      obtain ⟨count, rfl⟩ := Nat.exists_eq_add_one.mpr (Nat.zero_lt_of_lt enough)
      rw [itemsUntil]
      refine (skip_present follows).bind fun found present => ?_
      obtain ⟨token, rfl⟩ := present
      exact .pure rfl
  | cons value others ih =>
      obtain ⟨count, rfl⟩ := Nat.exists_eq_add_one.mpr (Nat.zero_lt_of_lt enough)
      have start := begins value List.mem_cons_self
      have later := ih (fun other member => each other (List.mem_cons_of_mem _ member))
        (fun other member => begins other (List.mem_cons_of_mem _ member))
        (Nat.lt_of_succ_lt_succ enough)
      have after := follows_items (fun other member => begins other (List.mem_cons_of_mem _ member))
        closes rest
      rw [itemsUntil, List.flatMap_cons, List.append_assoc]
      have no_end : Avoids (closing :: .endOfFile :: avoided)
          (pieces value ++ (others.flatMap pieces ++ closing.plain :: rest)) := start.append
      refine (skip_missing no_end (by simp) (by simp)).bind fun found missing => ?_
      rw [missing]
      refine (each value List.mem_cons_self _ after).bind fun first same => ?_
      refine later.bind fun rest same_rest => .pure ?_
      rw [List.map_cons, List.map_cons, same, same_rest]

variable {opening : Token}

theorem delimited {values : List γ}
    (each : ∀ value ∈ values, ∀ rest, Avoids avoided rest →
      Takes item (pieces value ++ rest) rest fun found => view found = goal value)
    (begins : ∀ value ∈ values, Avoids (closing :: .endOfFile :: avoided) (pieces value))
    (closes : closing ∉ avoided) (follows : rest ≠ []) :
    Takes (Reader.delimited opening item closing)
      (opening.plain :: (values.flatMap pieces ++ closing.plain :: rest)) rest
      fun found => found.node.map view = values.map goal := by
  have shorter := parts_length fun value member => (begins value member).ne_nil
  rw [Reader.delimited]
  refine (expect opening (by simp)).bind fun start _ => ?_
  refine count.bind fun cursor counted => ?_
  have enough : values.length < cursor.length := by
    rw [counted, List.length_append, List.length_cons]
    omega
  refine (items_until each begins closes enough follows).bind fun found same => ?_
  exact .pure same

theorem delimited_nonempty {values : List γ} (filled : values ≠ [])
    (each : ∀ value ∈ values, ∀ rest, Avoids avoided rest →
      Takes item (pieces value ++ rest) rest fun found => view found = goal value)
    (begins : ∀ value ∈ values, Avoids (closing :: .endOfFile :: avoided) (pieces value))
    (closes : closing ∉ avoided) (follows : rest ≠ []) :
    Takes (delimitedNonempty opening item closing)
      (opening.plain :: (values.flatMap pieces ++ closing.plain :: rest)) rest
      fun found => found.node.map view = values.map goal := by
  match values, filled with
  | value :: others, _ =>
      have begins_later := fun other member => begins other (List.mem_cons_of_mem value member)
      have shorter := parts_length fun other member => (begins_later other member).ne_nil
      have after := follows_items begins_later closes rest
      rw [delimitedNonempty, List.flatMap_cons, List.append_assoc]
      refine (expect opening (begins value List.mem_cons_self).append.ne_nil).bind fun start _ => ?_
      refine (each value List.mem_cons_self _ after).bind fun first same => ?_
      refine count.bind fun cursor counted => ?_
      have enough : others.length < cursor.length := by
        rw [counted, List.length_append, List.length_cons]
        omega
      refine (items_until (fun other member => each other (List.mem_cons_of_mem _ member))
        begins_later closes enough follows).bind fun found same_rest => .pure ?_
      exact congrArg₂ List.cons same same_rest

end Lists

end Takes

/-- On every cursor that holds the input, a reader fails in some way. -/
structure Fails (reader : Reader α) (input : List Piece) (error : ParseError) : Prop where
  run : ∀ cursor : Cursor, cursor.pieces = input → ∃ span left,
    reader.run cursor = .error ⟨error, span⟩ left

namespace Fails

variable {error : ParseError}

theorem bind {reader : Reader α} {next : α → Reader β} (first : Fails reader input error) :
    Fails (reader >>= next) input error := by
  refine ⟨fun cursor same => ?_⟩
  obtain ⟨span, left, ran⟩ := first.run cursor same
  exact ⟨span, left, run_error_bind ran⟩

/-- What is read first does not keep a reader from failing afterwards. -/
theorem after {reader : Reader α} {next : α → Reader β}
    (first : Takes reader input middle property)
    (second : ∀ value, property value → Fails (next value) middle error) :
    Fails (reader >>= next) input error := by
  refine ⟨fun cursor same => ?_⟩
  obtain ⟨value, left, ran, remaining, holds⟩ := first.run cursor same
  obtain ⟨span, last, failed⟩ := (second value holds).run left remaining
  exact ⟨span, last, (run_ok_bind ran).trans failed⟩

/-- At the end of the source nothing is skipped, and that is an error. -/
theorem skip_at_end {token : Token} (other : token ≠ .endOfFile) {rest : List Piece} :
    Fails (skip? token) (Token.endOfFile.plain :: rest) .unexpectedEnd := by
  rw [skip?]
  refine after Takes.peek fun found same => ⟨fun cursor _ => ?_⟩
  have ended : found.node = .endOfFile := same
  rw [ended, if_neg (Ne.symm other), if_pos rfl]
  exact ⟨_, _, rfl⟩

end Fails

end Reader

end GraphQL
