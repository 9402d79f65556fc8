import GraphQL.Proofs.PhraseGrammar
import GraphQL.Proofs.Yields

/-!
Readers build phrases from the tokens that they take.

Whenever a reader succeeds, the tokens that it took are the leaves of phrases that are placed, and
what it yields has the form that it should have. Readers that only look ahead take nothing; what
they saw is then known of the next token.
-/

namespace GraphQL

/-- The tokens of a cursor, without the descriptions in front of them. -/
def Cursor.tokens (cursor : Cursor) : List (Located Token) := cursor.map Entry.token

/-- A token that was asked for. -/
def IsLeaf (token : Token) : Form (Located Token) :=
  fun found parts => parts = [.leaf found] ∧ found.node = token

namespace Reader

variable {α β : Type} {ahead : Located Token → Prop} {form : Form α} {goal : Form β}

/--
Where a fact holds of the next token, a reader builds phrases of a form if it succeeds. It leaves at
least one token if there was one.
-/
structure Builds (ahead : Located Token → Prop) (reader : Reader α) (form : Form α) : Prop where
  run : ∀ cursor value left, (∀ token ∈ cursor.tokens.head?, ahead token) →
    reader.run cursor = .ok value left →
    ∃ parts, cursor.tokens = Phrase.partLeaves parts ++ left.tokens ∧
      (∀ part ∈ parts, part.Placed) ∧ form value parts ∧
      (cursor.tokens ≠ [] → left.tokens ≠ [])

/-- Nothing is known of the next token. -/
abbrev Parses (reader : Reader α) (form : Form α) : Prop := Builds (fun _ => True) reader form

/-- A reader takes no tokens, whether it succeeds or not. -/
structure Looks (reader : Reader α) : Prop where
  run : ∀ cursor value left, reader.run cursor = .ok value left → left.tokens = cursor.tokens

namespace Builds

theorem pure {value : α} (holds : form value []) : Builds ahead (Pure.pure value) form := by
  refine ⟨fun cursor found left _ ran => ?_⟩
  cases ran
  exact ⟨[], rfl, List.forall_mem_nil _, holds, id⟩

/-- What is read next is read behind the parts that are there. -/
theorem bind {reader : Reader α} {next : α → Reader β} (first : Builds ahead reader form)
    (second : ∀ value parts, form value parts →
      Parses (next value) fun result more => goal result (parts ++ more)) :
    Builds ahead (reader >>= next) goal := by
  refine ⟨fun cursor result left known ran => ?_⟩
  obtain ⟨value, middle, begun, ended⟩ := run_bind ran
  obtain ⟨parts, taken, placed, holds, remains⟩ := first.run cursor value middle known begun
  obtain ⟨more, others, more_placed, final, still_remains⟩ :=
    (second value parts holds).run middle result left (fun _ _ => trivial) ended
  refine ⟨parts ++ more, ?_, List.forall_mem_append.mpr ⟨placed, more_placed⟩, final,
    fun there => still_remains (remains there)⟩
  rw [taken, others, part_leaves_append, List.append_assoc]

/-- What is yielded at the end takes no more tokens. -/
theorem map {reader : Reader α} {finish : α → β} (builds : Builds ahead reader form)
    (final : ∀ value parts, form value parts → goal (finish value) parts) :
    Builds ahead (reader >>= fun value => Pure.pure (finish value)) goal := by
  refine builds.bind fun value parts holds => pure ?_
  rw [List.append_nil]
  exact final value parts holds

/-- The same tokens may be grouped in another way. -/
theorem regroup {reader : Reader α} {other : Form α} (builds : Builds ahead reader form)
    (change : ∀ value parts, (∀ part ∈ parts, part.Placed) → form value parts →
      ∃ others, Phrase.partLeaves others = Phrase.partLeaves parts ∧
        (∀ part ∈ others, part.Placed) ∧ other value others) : Builds ahead reader other := by
  refine ⟨fun cursor value left known ran => ?_⟩
  obtain ⟨parts, taken, placed, holds, remains⟩ := builds.run cursor value left known ran
  obtain ⟨others, same, others_placed, final⟩ := change value parts placed holds
  exact ⟨others, by rw [same, taken], others_placed, final, remains⟩

theorem mono {reader : Reader α} {other : Form α} (builds : Builds ahead reader form)
    (weaker : ∀ value parts, form value parts → other value parts) : Builds ahead reader other :=
  builds.regroup fun value parts placed holds => ⟨parts, rfl, placed, weaker value parts holds⟩

theorem knowing {reader : Reader α} {known : Located Token → Prop}
    (builds : Builds ahead reader form)
    (stronger : ∀ token, known token → ahead token) : Builds known reader form :=
  ⟨fun cursor value left holds ran =>
    builds.run cursor value left (fun token first => stronger token (holds token first)) ran⟩

/-- What is where its parts are becomes a node. -/
theorem gather {reader : Reader α} {span : α → Span} {other : Form α}
    (builds : Builds ahead reader fun found parts =>
      other found [.node (span found) parts] ∧ Hull (span found) parts) :
    Builds ahead reader other := by
  refine builds.regroup fun found parts placed holds => ?_
  refine ⟨[.node (span found) parts], ?_, List.forall_mem_singleton.mpr (.node holds.2 placed),
    holds.1⟩
  simp [Phrase.partLeaves, Phrase.leaves]

theorem node {reader : Reader (Located α)}
    (builds : Builds ahead reader (There form)) : Builds ahead reader (Node form) :=
  gather (builds.mono fun _ _ holds => ⟨.node holds.1, holds.2⟩)

/-- A reader that never succeeds builds whatever is wanted. -/
theorem absurd {reader : Reader α}
    (fails : ∀ cursor value left, reader.run cursor ≠ .ok value left) :
    Builds ahead reader form :=
  ⟨fun cursor value left _ ran => (fails cursor value left ran).elim⟩

theorem fail (span : Span) (error : ParseError) : Builds ahead (Reader.fail span error) form :=
  absurd fun _ _ _ ran => by cases ran

end Builds

namespace Looks

/-- What is known of the next token still is behind a look. -/
theorem bind {reader : Reader α} {next : α → Reader β} (looks : Looks reader)
    (second : ∀ value, Builds ahead (next value) goal) : Builds ahead (reader >>= next) goal := by
  refine ⟨fun cursor result left known ran => ?_⟩
  obtain ⟨value, middle, begun, ended⟩ := run_bind ran
  have same := looks.run cursor value middle begun
  rw [← same] at known ⊢
  exact (second value).run middle result left known ended

theorem peek : Looks peek := by
  refine ⟨fun cursor value left ran => ?_⟩
  cases cursor with
  | nil =>
      cases ran
      rfl
  | cons entry rest =>
      cases ran
      rfl

theorem count : Looks (get : Reader Cursor) := by
  refine ⟨fun cursor value left ran => ?_⟩
  cases ran
  rfl

theorem description : Looks takeDescription := by
  refine ⟨fun cursor value left ran => ?_⟩
  cases cursor with
  | nil =>
      cases ran
      rfl
  | cons entry rest =>
      cases ran
      rfl

theorem sees (token : Token) : Looks (sees token) := by
  refine ⟨fun cursor value left ran => ?_⟩
  obtain ⟨found, middle, looked, ended⟩ := run_bind ran
  have same := peek.run cursor found middle looked
  cases ended
  exact same

theorem repeats (kind : NameKind) (names : List (Located String)) :
    Looks (rejectRepeats kind names) := by
  refine ⟨fun cursor value left ran => ?_⟩
  unfold rejectRepeats at ran
  split at ran
  · cases ran
    rfl
  · cases ran

end Looks

namespace Builds

/-- What was looked at is the next token. -/
theorem peek {next : Located Token → Reader β}
    (second : ∀ found, Builds (fun token => token = found) (next found) goal) :
    Builds ahead (Reader.peek >>= next) goal := by
  refine ⟨fun cursor result left _ ran => ?_⟩
  obtain ⟨found, middle, begun, ended⟩ := run_bind ran
  cases cursor with
  | nil =>
      cases begun
      exact (second _).run [] result left (fun _ absent => by cases absent) ended
  | cons entry rest =>
      cases begun
      refine (second entry.token).run (entry :: rest) result left (fun token first => ?_) ended
      cases first
      rfl

/-- A token that is seen is the next one. -/
theorem sees {token : Token} {next : Bool → Reader β}
    (present : Builds (fun found => found.node = token) (next true) goal)
    (other : Builds ahead (next false) goal) : Builds ahead (Reader.sees token >>= next) goal := by
  refine ⟨fun cursor result left known ran => ?_⟩
  obtain ⟨found, middle, begun, ended⟩ := run_bind ran
  obtain ⟨first, same, looked, told⟩ := run_bind begun
  cases told
  by_cases equal : first.node = token
  · rw [decide_eq_true equal] at ended
    cases cursor with
    | nil =>
        cases looked
        exact present.run [] result left (fun _ absent => by cases absent) ended
    | cons entry rest =>
        cases looked
        refine present.run (entry :: rest) result left (fun token first => ?_) ended
        cases first
        exact equal
  · rw [decide_eq_false equal] at ended
    have kept := Looks.peek.run cursor first _ looked
    rw [← kept] at known ⊢
    exact other.run _ result left known ended

theorem next : Builds ahead next fun found parts => parts = [.leaf found] ∧ ahead found := by
  refine ⟨fun cursor value left known ran => ?_⟩
  cases cursor with
  | nil => cases ran
  | cons entry rest =>
      cases rest with
      | nil => cases ran
      | cons other more =>
          cases ran
          exact ⟨[.leaf entry.token], rfl, List.forall_mem_singleton.mpr .leaf, ⟨rfl, known _ rfl⟩,
            fun _ => List.cons_ne_nil _ _⟩

theorem reject (error : Token → ParseError) : Builds ahead (Reader.reject error) form :=
  next.bind fun _ _ _ => fail _ _

theorem expect (token : Token) : Builds ahead (Reader.expect token) (IsLeaf token) := by
  rw [Reader.expect]
  refine peek fun found => ?_
  split
  · rename_i same
    refine next.mono fun value parts taken => ⟨taken.1, ?_⟩
    rw [taken.2, same]
  · exact reject _

/-- A token that may be missing. -/
theorem skip (token : Token) : Builds ahead (skip? token) (Maybe (IsLeaf token)) := by
  rw [skip?]
  refine peek fun found => ?_
  split
  · rename_i same
    refine next.bind fun value parts taken => .pure ?_
    rw [List.append_nil]
    exact .present ⟨taken.1, by rw [taken.2, same]⟩
  · split
    · exact fail _ _
    · exact .pure .absent

theorem name : Builds ahead Reader.name Named := by
  rw [Reader.name]
  refine peek fun found => ?_
  split
  · exact fail _ _
  · split
    · rename_i text named
      have taken : Builds (fun token => token = found) Reader.next fun value parts =>
          parts = [.leaf value] ∧ value = found := next
      refine (taken.bind fun value parts same => .pure ?_ : Builds _ _ fun result parts =>
        parts = [.leaf found] ∧ result = found.map fun _ => text).regroup ?_
      · rw [List.append_nil, same.1, same.2]
        exact ⟨rfl, rfl⟩
      · rintro value parts - ⟨rfl, rfl⟩
        exact ⟨[.named _ found], rfl, List.forall_mem_singleton.mpr (.named named rfl), .name⟩
    · exact reject _

/-- A name behind a certain token. -/
theorem marked_name {mark : Token} {next : Located Token → Located String → Reader α}
    (second : ∀ start name token, start.node = mark →
      Parses (next start name) fun result more =>
        form result (.leaf start :: .named name token :: more)) :
    Builds ahead
      (do
        let start ← Reader.expect mark
        let name ← Reader.name
        next start name)
      form := by
  refine (expect mark).bind fun start parts taken => ?_
  obtain ⟨rfl, marked⟩ := taken
  refine name.bind fun found parts named => ?_
  cases named with
  | @name _ token => exact second start found token marked

end Builds

section Lists

variable {item : Reader α}

/-- Items and the closing token behind them, which ends at a place. -/
inductive ItemsForm (closing : Token) (form : Form α) : Form (List α × Position) where
  | items {values inside last} (each : Each form values inside) (closes : last.node = closing) :
      ItemsForm closing form (values, last.span.stop) (inside ++ [.leaf last])

theorem items_until_builds (closing : Token) (builds : Parses item form) (count : Nat) :
    Parses (itemsUntil closing item count) (ItemsForm closing form) := by
  induction count with
  | zero =>
      rw [itemsUntil]
      exact .peek fun found => .fail _ _
  | succ count ih =>
      rw [itemsUntil]
      refine (Builds.skip closing).bind fun found parts skipped => ?_
      cases skipped with
      | present taken =>
          obtain ⟨rfl, closes⟩ := taken
          exact .pure (.items .nil closes)
      | absent =>
          refine builds.bind fun first parts holds => ?_
          refine ih.bind fun rest more others => .pure ?_
          cases others with
          | items each closes =>
              rw [List.nil_append, List.append_nil, ← List.append_assoc]
              exact .items (.cons holds each) closes

theorem enclosed_there {opening closing : Punctuator} {first last : Located Token} {value : α}
    {inside : List Phrase} (opens : first.node = .punctuator opening)
    (closes : last.node = .punctuator closing) (there : form value inside) :
    There (Enclosed opening closing form) (.between first.span.start last.span.stop value)
      (.leaf first :: (inside ++ [.leaf last])) := by
  refine ⟨.marks opens closes there, ?_⟩
  simp [Hull, Located.between, Phrase.span]

variable {opening closing : Punctuator}

theorem delimited_builds (builds : Parses item form) :
    Builds ahead (delimited (.punctuator opening) item (.punctuator closing))
      (There (Enclosed opening closing (Each form))) := by
  rw [delimited]
  refine (Builds.expect _).bind fun start parts opens => ?_
  obtain ⟨rfl, opens⟩ := opens
  refine Looks.count.bind fun cursor => ?_
  refine (items_until_builds _ builds _).bind fun found parts rest => .pure ?_
  cases rest with
  | items each closes =>
      rw [List.append_nil]
      exact enclosed_there opens closes each

theorem delimited_nonempty_builds (builds : Parses item form) :
    Builds ahead (delimitedNonempty (.punctuator opening) item (.punctuator closing))
      (There (Enclosed opening closing (Each form))) := by
  rw [delimitedNonempty]
  refine (Builds.expect _).bind fun start parts opens => ?_
  obtain ⟨rfl, opens⟩ := opens
  refine builds.bind fun first parts holds => ?_
  refine Looks.count.bind fun cursor => ?_
  refine (items_until_builds _ builds _).bind fun found more rest => .pure ?_
  cases rest with
  | items each closes =>
      rw [List.append_nil, ← List.append_assoc parts]
      exact enclosed_there opens closes (Each.cons holds each)

end Lists

end Reader

end GraphQL
