import GraphQL.Proofs.SourceSpans
import GraphQL.Proofs.TokenRuns

/-!
Cursors move forward and never run dry.

Readers are made of a few operations: one looks at the next token, one takes the description in front
of it, one takes the token itself unless it is the last one, and some fail. What such readers leave,
be it after a failure, is a suffix of the tokens with the last one in it. How many tokens are taken
for certain is told by the way in which a reader is made.
-/

namespace GraphQL

/-- What is left behind a reading: a suffix of the tokens that holds the last one. -/
structure Cursor.Onward (least : Nat) (cursor left : Cursor) : Prop where
  suffix : left.tokens <:+ cursor.tokens
  filled : left ≠ []
  fewer : left.length + least ≤ cursor.length

namespace Cursor.Onward

variable {least more : Nat} {cursor middle left : Cursor}

theorem here (filled : cursor ≠ []) : Onward 0 cursor cursor :=
  ⟨List.suffix_rfl, filled, le_rfl⟩

theorem trans (first : Onward least cursor middle) (second : Onward more middle left) :
    Onward (least + more) cursor left := by
  refine ⟨second.suffix.trans first.suffix, second.filled, ?_⟩
  have taken := first.fewer
  have behind := second.fewer
  omega

theorem mono (onward : Onward more cursor left) (fewer : least ≤ more) :
    Onward least cursor left :=
  ⟨onward.suffix, onward.filled, (Nat.add_le_add_left fewer _).trans onward.fewer⟩

end Cursor.Onward

/--
Readers that are made of operations on a cursor, with a number of tokens that they take at least
when they succeed. Of the cursor itself they get to see no more than its length.
-/
inductive Operates : {α : Type} → Nat → Reader α → Prop where
  | pure {α : Type} (value : α) : Operates 0 (Pure.pure value : Reader α)
  | fail {α : Type} {least : Nat} (span : Span) (error : ParseError) :
      Operates least (Reader.fail span error : Reader α)
  | peek : Operates 0 Reader.peek
  | description : Operates 0 Reader.takeDescription
  | next : Operates 1 Reader.next
  | counted {α : Type} {least : Nat} {reader : Cursor → Reader α}
      (each : ∀ cursor, Operates least (reader cursor))
      (blind : ∀ cursor other : Cursor, cursor.length = other.length →
        reader cursor = reader other) : Operates least (get >>= reader)
  | bind {α β : Type} {least more : Nat} {first : Reader α} {next : α → Reader β}
      (before : Operates least first) (behind : ∀ value, Operates more (next value)) :
      Operates (least + more) (first >>= next)
  | mono {α : Type} {least more : Nat} {reader : Reader α} (operates : Operates more reader)
      (fewer : least ≤ more) : Operates least reader

/-- What a reader leaves of a cursor, whether it succeeds or fails. -/
def Reader.leftBy {α : Type} (reader : Reader α) (cursor : Cursor) : Cursor :=
  match reader.run cursor with
  | .ok _ left => left
  | .error _ left => left

section Moving

variable {α β : Type} {least more : Nat} {reader : Reader α} {continued : α → Reader β}

/-- A reader takes some tokens when it succeeds, and never the last one. -/
structure Reader.Moves (least : Nat) (reader : Reader α) : Prop where
  succeeds : ∀ (cursor : Cursor) value left, cursor ≠ [] → reader.run cursor = .ok value left →
    Cursor.Onward least cursor left
  fails : ∀ (cursor : Cursor) error left, cursor ≠ [] → reader.run cursor = .error error left →
    Cursor.Onward 0 cursor left

namespace Reader.Moves

theorem bind (before : Moves least reader) (behind : ∀ value, Moves more (continued value)) :
    Moves (least + more) (reader >>= continued) where
  succeeds cursor value left filled ran := by
    obtain ⟨found, middle, first, second⟩ := run_bind ran
    have passed := before.succeeds cursor found middle filled first
    exact passed.trans ((behind found).succeeds middle value left passed.filled second)
  fails cursor error left filled ran := by
    cases first : reader.run cursor with
    | error found middle =>
        rw [run_error_bind first] at ran
        cases ran
        exact before.fails cursor error left filled first
    | ok found middle =>
        rw [run_ok_bind first] at ran
        have passed := before.succeeds cursor found middle filled first
        exact (passed.mono (Nat.zero_le _)).trans
          ((behind found).fails middle error left passed.filled ran)

theorem pure (value : α) : Moves 0 (Pure.pure value : Reader α) where
  succeeds _ _ _ filled ran := by
    cases ran
    exact .here filled
  fails _ _ _ _ ran := by cases ran

theorem fail (span : Span) (error : ParseError) :
    Moves least (Reader.fail span error : Reader α) where
  succeeds _ _ _ _ ran := by cases ran
  fails _ _ _ filled ran := by
    cases ran
    exact .here filled

theorem peek : Moves 0 Reader.peek where
  succeeds cursor value left filled ran := by
    cases cursor with
    | nil => exact absurd rfl filled
    | cons entry rest =>
        cases ran
        exact .here filled
  fails cursor error left filled ran := by
    cases cursor <;> cases ran

theorem description : Moves 0 Reader.takeDescription where
  succeeds cursor value left filled ran := by
    cases cursor with
    | nil => exact absurd rfl filled
    | cons entry rest =>
        cases ran
        exact ⟨List.suffix_rfl, List.cons_ne_nil _ _, le_rfl⟩
  fails cursor error left filled ran := by
    cases cursor <;> cases ran

theorem next : Moves 1 Reader.next where
  succeeds cursor value left filled ran := by
    match cursor with
    | [] | [_] => cases ran
    | entry :: other :: rest =>
        cases ran
        exact ⟨List.suffix_cons _ _, List.cons_ne_nil _ _, le_rfl⟩
  fails cursor error left filled ran := by
    match cursor with
    | [] => exact absurd rfl filled
    | [last] =>
        cases ran
        exact .here filled
    | entry :: other :: rest => cases ran

theorem counted {reader : Cursor → Reader α} (each : ∀ cursor, Moves least (reader cursor)) :
    Moves least (get >>= reader) where
  succeeds cursor := (each cursor).succeeds cursor
  fails cursor := (each cursor).fails cursor

end Reader.Moves

/-- Whatever is made of operations moves cursors as they do. -/
theorem Operates.moves (operates : Operates least reader) : reader.Moves least := by
  induction operates with
  | pure value => exact .pure value
  | fail span error => exact .fail span error
  | peek => exact .peek
  | description => exact .description
  | next => exact .next
  | counted _ _ each => exact .counted each
  | bind _ _ before behind => exact before.bind behind
  | mono _ fewer ih =>
      exact ⟨fun _ _ _ filled ran => (ih.succeeds _ _ _ filled ran).mono fewer, ih.fails⟩

theorem Operates.left_by (operates : Operates least reader) {cursor : Cursor}
    (filled : cursor ≠ []) : Cursor.Onward 0 cursor (reader.leftBy cursor) := by
  rw [Reader.leftBy]
  split
  · rename_i ran
    exact (operates.moves.succeeds _ _ _ filled ran).mono (Nat.zero_le _)
  · rename_i ran
    exact operates.moves.fails _ _ _ filled ran

end Moving

/-- Cursors that are reached from another one by operations in a row, also behind failures. -/
inductive Cursor.Reached (start : Cursor) : Cursor → Prop where
  | start : Reached start start
  | step {α : Type} {least : Nat} {cursor : Cursor} {reader : Reader α}
      (before : Reached start cursor) (operates : Operates least reader) :
      Reached start (reader.leftBy cursor)

theorem Cursor.Reached.onward {start cursor : Cursor} (reached : start.Reached cursor)
    (filled : start ≠ []) : start.Onward 0 cursor := by
  induction reached with
  | start => exact .here filled
  | step _ operates ih => exact ih.trans (operates.left_by ih.filled)

namespace Operates

variable {α β : Type} {least more : Nat} {first : Reader α} {continued : α → Reader β}

/-- Whatever comes first, what comes behind it takes its tokens. -/
theorem look (before : Operates least first) (behind : ∀ value, Operates more (continued value)) :
    Operates more (first >>= continued) :=
  .mono (.bind before behind) (Nat.le_add_left _ _)

/-- What comes first takes its tokens, whatever comes behind it. -/
theorem take (before : Operates least first) (behind : ∀ value, Operates 0 (continued value)) :
    Operates least (first >>= continued) := .bind before behind

theorem any {reader : Reader α} (operates : Operates least reader) : Operates 0 reader :=
  operates.mono (Nat.zero_le _)

theorem branch {condition : Prop} [Decidable condition] {yes no : Reader α}
    (holds : Operates least yes) (fails : Operates least no) :
    Operates least (if condition then yes else no) := by
  split
  · exact holds
  · exact fails

theorem reject (error : Token → ParseError) : Operates least (Reader.reject error : Reader α) :=
  next.look fun _ => .fail _ _

theorem expect (token : Token) : Operates 1 (Reader.expect token) :=
  peek.look fun _ => .branch next (reject _)

theorem skip (token : Token) : Operates 0 (Reader.skip? token) :=
  peek.look fun _ => .branch (next.look fun _ => .pure _) (.branch (.fail _ _) (.pure _))

theorem sees (token : Token) : Operates 0 (Reader.sees token) := peek.look fun _ => .pure _

theorem name : Operates 1 Reader.name := by
  refine peek.look fun found => .branch (.fail _ _) ?_
  split
  · exact next.take fun _ => .pure _
  · exact reject _

theorem reject_repeats (kind : NameKind) (names : List (Located String)) :
    Operates 0 (Reader.rejectRepeats kind names) := by
  unfold Reader.rejectRepeats
  split
  · exact .pure _
  · exact .fail _ _

end Operates

end GraphQL
