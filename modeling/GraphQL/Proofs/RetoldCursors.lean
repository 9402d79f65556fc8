import GraphQL.Proofs.TokenRuns

/-!
Reading a source a second time, with other descriptions.

The second source has the tokens of the first one at the same places. Its descriptions may be other
ones, and more may stand where the first source ends. Readers are compared by what they do to both: a
reader that succeeds on the first source does so on the second one. Where both end alike it also fails
on both, for the same reason and at the same place.

A reader that could stop at the end of the first source could go on in the second one. None does, as
the second one goes on with a keyword, which no reader looks for where it may stop.
-/

namespace GraphQL

/-- Other descriptions for a source, and what stands in place of its end token if anything does. -/
structure Retelling where
  tell : Position → Option String → Option String
  more : Option Cursor
  begins : ∀ cursor ∈ more, ∃ word span description rest,
    cursor = ⟨⟨.keyword word, span⟩, description⟩ :: rest

namespace Retelling

variable (told : Retelling)

/-- Both sources have the same tokens up to the end. -/
def Closed : Prop := told.more = none

def entry (entry : Entry) : Entry :=
  ⟨entry.token, told.tell entry.token.span.start entry.description⟩

/-- The rest of a source, and that of the source that is read in its place. -/
inductive Cursors : Cursor → Cursor → Prop where
  | last {entry} (closed : told.Closed) : Cursors [entry] [told.entry entry]
  | onward {entry more} (goes : told.more = some more) (ended : entry.token.node = .endOfFile) :
      Cursors [entry] more
  | cons {entry cursor other} (visible : entry.token.node ≠ .endOfFile)
      (rest : Cursors cursor other) : Cursors (entry :: cursor) (told.entry entry :: other)

/--
In both sources the same token is next, the descriptions in front of it being whatever they are. The
first source may also be at its end, where failing is all that is left.
-/
inductive Facing (placed : Position → Prop) : Cursor → Cursor → Prop where
  | last {token first second} (there : placed token.span.start) :
      Facing placed [⟨token, first⟩] [⟨token, second⟩]
  | ended {entry other} (unclosed : ¬ told.Closed) (ended : entry.token.node = .endOfFile) :
      Facing placed [entry] other
  | cons {token first second cursor other} (there : placed token.span.start)
      (rest : told.Cursors cursor other) :
      Facing placed (⟨token, first⟩ :: cursor) (⟨token, second⟩ :: other)

/-- What comes next in both sources, where their rests are related in some way. -/
def Heads (placed : Position → Prop) (before : Cursor → Cursor → Prop) : Prop :=
  ∀ cursor other, before cursor other →
    (∃ token first second rest more, cursor = ⟨token, first⟩ :: rest ∧
      other = ⟨token, second⟩ :: more ∧ placed token.span.start) ∨
    ¬ told.Closed ∧ ∃ entry, cursor = [entry] ∧ entry.token.node = .endOfFile

/-- A number of items or levels that may be read goes with another one for the second source. -/
def Allows (count other : Nat) : Prop := count ≤ other ∧ (told.Closed → count = other)

variable {told} {cursor other : Cursor}

theorem unclosed {more : Cursor} (goes : told.more = some more) : ¬ told.Closed :=
  fun closed => nomatch goes.symm.trans closed

theorem Cursors.facing (cursors : told.Cursors cursor other) :
    told.Facing (fun _ => True) cursor other := by
  cases cursors with
  | last => exact .last trivial
  | onward goes ended => exact .ended (unclosed goes) ended
  | cons _ rest => exact .cons trivial rest

theorem facing_heads (told : Retelling) {placed : Position → Prop} :
    told.Heads placed (told.Facing placed) := by
  intro cursor other facing
  cases facing with
  | last there => exact .inl ⟨_, _, _, _, _, rfl, rfl, there⟩
  | ended unclosed ended => exact .inr ⟨unclosed, _, rfl, ended⟩
  | cons there => exact .inl ⟨_, _, _, _, _, rfl, rfl, there⟩

theorem cursors_heads (told : Retelling) : told.Heads (fun _ => True) told.Cursors := by
  intro cursor other cursors
  cases cursors with
  | last => exact .inl ⟨_, _, _, _, _, rfl, rfl, trivial⟩
  | onward goes ended => exact .inr ⟨unclosed goes, _, rfl, ended⟩
  | cons => exact .inl ⟨_, _, _, _, _, rfl, rfl, trivial⟩

theorem Cursors.allows (cursors : told.Cursors cursor other) :
    told.Allows cursor.length other.length := by
  induction cursors with
  | last => exact ⟨Nat.le_refl 1, fun _ => rfl⟩
  | onward goes =>
      obtain ⟨word, span, description, rest, rfl⟩ := told.begins _ goes
      exact ⟨Nat.succ_le_succ (Nat.zero_le _), fun closed => absurd closed (unclosed goes)⟩
  | cons _ _ ih => exact ⟨Nat.succ_le_succ ih.1, fun closed => congrArg (· + 1) (ih.2 closed)⟩

theorem Cursors.filled (cursors : told.Cursors cursor other) : cursor ≠ [] := by
  cases cursors <;> exact List.cons_ne_nil _ _

/-- More is allowed for the second source only where failures are not compared. -/
theorem Allows.pred {count others : Nat} (allows : told.Allows (count + 1) others) :
    ∃ less, others = less + 1 ∧ told.Allows count less := by
  obtain ⟨fewer, same⟩ := allows
  obtain ⟨less, rfl⟩ := Nat.exists_eq_add_one.mpr (Nat.lt_of_lt_of_le (Nat.succ_pos _) fewer)
  exact ⟨less, rfl, Nat.le_of_succ_le_succ fewer, fun closed => Nat.succ.inj (same closed)⟩

end Retelling

namespace Reader

variable {α β : Type}

/-- A result on the first source goes with one on the second source. -/
def Echo (told : Retelling) (after : Cursor → Cursor → Prop) (same : α → α → Prop) :
    EStateM.Result (Located ParseError) Cursor α →
      EStateM.Result (Located ParseError) Cursor α → Prop
  | .ok value left, result =>
      ∃ copy other, result = .ok copy other ∧ same value copy ∧ after left other
  | .error error _, result => told.Closed → ∃ other, result = .error error other

/-- Where the cursors are related before reading, the results are, and the cursors afterwards. -/
structure Echoes (told : Retelling) (before after : Cursor → Cursor → Prop) (same : α → α → Prop)
    (reader twin : Reader α) : Prop where
  run : ∀ cursor other, before cursor other →
    Echo told after same (reader.run cursor) (twin.run other)

/-- What is read a second time is made of what was read first. -/
def Copied (copy : α → α) (value made : α) : Prop := made = copy value

/-- A reader does not succeed where nothing but the end token is left. -/
def FailsAtEnd (reader : Reader α) : Prop :=
  ∀ entry, entry.token.node = .endOfFile → ∀ value left, reader.run [entry] ≠ .ok value left

theorem FailsAtEnd.first {reader : Reader α} {next : α → Reader β} (fails : FailsAtEnd reader) :
    FailsAtEnd (reader >>= next) := by
  intro entry ended value left ran
  obtain ⟨first, middle, begun, -⟩ := run_bind ran
  exact fails entry ended first middle begun

theorem FailsAtEnd.fail {span : Span} {error : ParseError} :
    FailsAtEnd (Reader.fail span error : Reader α) := fun _ _ _ _ ran => by cases ran

theorem FailsAtEnd.next : FailsAtEnd next := fun _ _ _ _ ran => by cases ran

theorem FailsAtEnd.reject {error : Token → ParseError} :
    FailsAtEnd (Reader.reject error : Reader α) := FailsAtEnd.next.first

theorem expect_fails_at_end (token : Token) : FailsAtEnd (expect token) := by
  intro entry ended value left ran
  obtain ⟨found, next, rest, there, -⟩ := expect_ran ran
  cases there

theorem name_fails_at_end : FailsAtEnd name := by
  intro entry ended value left ran
  obtain ⟨found, next, rest, _, there, -⟩ := name_ran ran
  cases there

section Rules

variable {told : Retelling} {before middle after : Cursor → Cursor → Prop} {placed : Position → Prop}
  {same : α → α → Prop} {alike : β → β → Prop} {reader twin : Reader α}

/-- The second reader starts where the first one succeeded, which it did on both sources. -/
theorem Echo.bind {next further : α → Reader β} {cursor other : Cursor}
    (first : Echo told middle same (reader.run cursor) (twin.run other))
    (second : ∀ value copy left later, reader.run cursor = .ok value left →
      twin.run other = .ok copy later → same value copy → middle left later →
        Echo told after alike ((next value).run left) ((further copy).run later)) :
    Echo told after alike ((reader >>= next).run cursor) ((twin >>= further).run other) := by
  cases ran : reader.run cursor with
  | ok value left =>
      rw [ran] at first
      obtain ⟨copy, later, also, like, cursors⟩ := first
      rw [run_ok_bind ran, run_ok_bind also]
      exact second value copy left later ran also like cursors
  | error error left =>
      rw [ran] at first
      rw [run_error_bind ran]
      intro closed
      obtain ⟨later, also⟩ := first closed
      exact ⟨later, run_error_bind also⟩

theorem Echo.mono {like : α → α → Prop}
    {result final : EStateM.Result (Located ParseError) Cursor α}
    (echo : Echo told after same result final)
    (weaker : ∀ value copy, same value copy → like value copy) :
    Echo told after like result final := by
  cases result with
  | ok value left =>
      obtain ⟨copy, other, ran, both, cursors⟩ := echo
      exact ⟨copy, other, ran, weaker value copy both, cursors⟩
  | error error left => exact echo

namespace Echoes

theorem pure {value copy : α} (both : same value copy) :
    Echoes told before before same (Pure.pure value) (Pure.pure copy) :=
  ⟨fun _ other cursors => ⟨copy, other, rfl, both, cursors⟩⟩

theorem bind {next further : α → Reader β} (first : Echoes told before middle same reader twin)
    (second : ∀ value copy, same value copy →
      Echoes told middle after alike (next value) (further copy)) :
    Echoes told before after alike (reader >>= next) (twin >>= further) :=
  ⟨fun cursor other cursors => (first.run cursor other cursors).bind
    fun value copy left later _ _ both behind => (second value copy both).run left later behind⟩

/-- The same is read on both sources before what is compared. -/
theorem step {next further : α → Reader β}
    (first : Echoes told before middle (Copied id) reader twin)
    (second : ∀ value, Echoes told middle after alike (next value) (further value)) :
    Echoes told before after alike (reader >>= next) (twin >>= further) :=
  first.bind fun value _ same => same ▸ second value

theorem mono {like : α → α → Prop} (echoes : Echoes told before after same reader twin)
    (weaker : ∀ value copy, same value copy → like value copy) :
    Echoes told before after like reader twin :=
  ⟨fun cursor other cursors => (echoes.run cursor other cursors).mono weaker⟩

theorem fail {span : Span} {error : ParseError} :
    Echoes told before after same (Reader.fail span error) (Reader.fail span error) :=
  ⟨fun _ other _ _ => ⟨other, rfl⟩⟩

/-- Nothing need be known of descriptions in front of the next token. -/
theorem widen (echoes : Echoes told (told.Facing fun _ => True) after same reader twin) :
    Echoes told told.Cursors after same reader twin :=
  ⟨fun cursor other cursors => echoes.run cursor other cursors.facing⟩

/-- What is next is the same token, unless the first source is at its end. -/
theorem peek {next further : Located Token → Reader α} (heads : told.Heads placed before)
    (each : ∀ found, placed found.span.start →
      Echoes told before after same (next found) (further found))
    (ends : ∀ found, found.node = .endOfFile → FailsAtEnd (next found)) :
    Echoes told before after same (Reader.peek >>= next) (Reader.peek >>= further) := by
  refine ⟨fun cursor other related => ?_⟩
  rcases heads cursor other related with
    ⟨token, first, second, rest, more, rfl, rfl, there⟩ | ⟨unclosed, entry, rfl, ended⟩
  · exact (each token there).run _ _ related
  · change Echo told after same ((next entry.token).run [entry]) _
    cases ran : (next entry.token).run [entry] with
    | ok value left => exact absurd ran (ends entry.token ended entry ended value left)
    | error => exact fun closed => absurd closed unclosed

/-- The description in front of the next token is told anew. -/
theorem describe {next further : Option String → Reader α}
    (each : ∀ start text, Echoes told (told.Facing (· = start)) after same (next text)
      (further (told.tell start text)))
    (ends : ∀ text, FailsAtEnd (next text)) :
    Echoes told told.Cursors after same (takeDescription >>= next)
      (takeDescription >>= further) := by
  refine ⟨fun cursor other cursors => ?_⟩
  cases cursors with
  | @last entry closed => exact (each _ entry.description).run [_] [_] (.last rfl)
  | @onward entry more goes ended =>
      change Echo told after same ((next entry.description).run [⟨entry.token, none⟩]) _
      cases ran : (next entry.description).run [⟨entry.token, none⟩] with
      | ok value left => exact absurd ran (ends _ ⟨entry.token, none⟩ ended value left)
      | error => exact fun closed => absurd closed (Retelling.unclosed goes)
  | @cons entry cursor other _ rest =>
      exact (each _ entry.description).run (_ :: cursor) (_ :: other) (.cons rfl rest)

/-- How much is left bounds what may be read. -/
theorem count {next further : Cursor → Reader α}
    (each : ∀ cursor other : Cursor, told.Allows cursor.length other.length →
      Echoes told told.Cursors after same (next cursor) (further other)) :
    Echoes told told.Cursors after same (get >>= next) (get >>= further) :=
  ⟨fun cursor other cursors => (each cursor other cursors.allows).run cursor other cursors⟩

theorem count_placed {next further : Cursor → Reader α}
    (each : ∀ cursor other : Cursor, told.Allows cursor.length other.length →
      Echoes told (told.Facing placed) after same (next cursor) (further other))
    (ends : ∀ cursor, FailsAtEnd (next cursor)) :
    Echoes told (told.Facing placed) after same (get >>= next) (get >>= further) := by
  refine ⟨fun cursor other facing => ?_⟩
  cases facing with
  | @last token first second there =>
      have allows : told.Allows 1 1 := ⟨Nat.le_refl 1, fun _ => rfl⟩
      exact (each [⟨token, first⟩] [⟨token, second⟩] allows).run _ _ (.last there)
  | @ended entry other unclosed ended =>
      change Echo told after same ((next [entry]).run [entry]) _
      cases ran : (next [entry]).run [entry] with
      | ok value left => exact absurd ran (ends [entry] entry ended value left)
      | error => exact fun closed => absurd closed unclosed
  | @cons token first second cursor other there rest =>
      obtain ⟨fewer, same⟩ := rest.allows
      have allows : told.Allows (cursor.length + 1) (other.length + 1) :=
        ⟨Nat.succ_le_succ fewer, fun closed => congrArg (· + 1) (same closed)⟩
      exact (each (_ :: cursor) (_ :: other) allows).run (_ :: cursor) (_ :: other)
        (.cons there rest)

/-- A reader that fails at once, as nothing may be read. -/
abbrev depleted : Reader α := Reader.peek >>= fun found => Reader.fail found.span .unexpectedEnd

theorem exhausted (heads : told.Heads placed before) :
    Echoes told before after same depleted depleted :=
  peek heads (fun _ _ => fail) fun _ _ => .fail

/-- Where nothing may be read of the first source, failures are compared or nothing is. -/
theorem none_allowed (twins : Nat → Reader α) (heads : told.Heads placed before) {other : Nat}
    (allows : told.Allows 0 other) (start : reader = depleted) (also : twins 0 = depleted) :
    Echoes told before after same reader (twins other) := by
  subst start
  cases other with
  | zero =>
      rw [also]
      exact exhausted heads
  | succ other =>
      have unclosed : ¬ told.Closed := fun closed => Nat.noConfusion (allows.2 closed)
      exact ⟨fun cursor _ _ => by cases cursor <;> exact fun closed => absurd closed unclosed⟩

end Echoes

end Rules

section Tokens

variable {told : Retelling} {after : Cursor → Cursor → Prop} {placed : Position → Prop}
  {same : α → α → Prop}

/-- What is taken is the next token, wherever it may be. -/
abbrev Taken (placed : Position → Prop) (value copy : Located α) : Prop :=
  copy = value ∧ placed value.span.start

theorem next_placed :
    Echoes told (told.Facing placed) told.Cursors (Taken placed) next next := by
  refine ⟨fun cursor other facing => ?_⟩
  cases facing with
  | last => exact fun _ => ⟨_, rfl⟩
  | ended unclosed => exact fun closed => absurd closed unclosed
  | @cons token first second cursor other there rest =>
      cases rest with
      | last closed => exact ⟨token, _, rfl, ⟨rfl, there⟩, .last closed⟩
      | @onward entry more goes ended =>
          obtain ⟨word, span, description, behind, rfl⟩ := told.begins _ goes
          exact ⟨token, _, rfl, ⟨rfl, there⟩, .onward goes ended⟩
      | cons visible rest => exact ⟨token, _, rfl, ⟨rfl, there⟩, .cons visible rest⟩

theorem reject_placed (error : Token → ParseError) :
    Echoes told (told.Facing placed) after same (reject error) (reject error) :=
  next_placed.bind fun _ _ taken => taken.1 ▸ .fail

theorem expect_placed (token : Token) :
    Echoes told (told.Facing placed) told.Cursors (Taken placed) (expect token)
      (expect token) := by
  refine .peek told.facing_heads (fun found _ => ?_) fun found _ => ?_
  · split
    · exact next_placed
    · exact reject_placed _
  · split
    · exact .next
    · exact .reject

theorem name_placed :
    Echoes told (told.Facing placed) told.Cursors (Taken placed) name name := by
  refine .peek told.facing_heads (fun found _ => ?_) fun found ended => ?_
  · split
    · exact .fail
    · cases found.node.asName? with
      | some text =>
          refine next_placed.bind fun token _ taken => ?_
          obtain ⟨rfl, there⟩ := taken
          exact .pure ⟨rfl, there⟩
      | none => exact reject_placed _
  · rw [if_pos ended]
    exact .fail

theorem next_echoes : Echoes told told.Cursors told.Cursors (Copied id) next next :=
  .widen (next_placed.mono fun _ _ taken => taken.1)

theorem reject_echoes (error : Token → ParseError) :
    Echoes told told.Cursors after same (reject error) (reject error) :=
  .widen (reject_placed error)

theorem expect_echoes (token : Token) :
    Echoes told told.Cursors told.Cursors (Copied id) (expect token) (expect token) :=
  .widen ((expect_placed token).mono fun _ _ taken => taken.1)

theorem name_echoes : Echoes told told.Cursors told.Cursors (Copied id) name name :=
  .widen (name_placed.mono fun _ _ taken => taken.1)

theorem skip_echoes (token : Token) :
    Echoes told told.Cursors told.Cursors (Copied id) (skip? token) (skip? token) := by
  refine .peek told.cursors_heads (fun found _ => ?_) fun found ended => ?_
  · split
    · exact next_echoes.step fun _ => .pure rfl
    · split
      · exact .fail
      · exact .pure rfl
  · split
    · exact FailsAtEnd.next.first
    · exact .fail

/-- A mark is next in both sources or in neither. -/
theorem ahead_echoes {cursor other : Cursor} (cursors : told.Cursors cursor other)
    (mark : Punctuator) : ahead? other = .punctuator mark ↔ ahead? cursor = .punctuator mark := by
  cases cursors with
  | last => exact Iff.rfl
  | cons => exact Iff.rfl
  | @onward entry more goes ended =>
      obtain ⟨word, span, description, rest, rfl⟩ := told.begins _ goes
      change Token.keyword word = _ ↔ entry.token.node = _
      rw [ended]
      constructor <;> rintro ⟨⟩

theorem Echoes.sees {mark : Punctuator} {next further : Bool → Reader α}
    (each : ∀ seen, Echoes told told.Cursors after same (next seen) (further seen)) :
    Echoes told told.Cursors after same (Reader.sees (.punctuator mark) >>= next)
      (Reader.sees (.punctuator mark) >>= further) := by
  refine ⟨fun cursor other cursors => ?_⟩
  rw [sees_run, sees_run, decide_eq_decide.mpr (ahead_echoes cursors mark)]
  exact (each _).run cursor other cursors

end Tokens

section Lists

variable {told : Retelling} {item twin : Reader α} {copy : α → α}

theorem items_until_echoes (closing : Token)
    (each : Echoes told told.Cursors told.Cursors (Copied copy) item twin) {count other : Nat}
    (allows : told.Allows count other) :
    Echoes told told.Cursors told.Cursors (Copied fun read => (read.1.map copy, read.2))
      (itemsUntil closing item count) (itemsUntil closing twin other) := by
  induction count generalizing other with
  | zero => exact .none_allowed (itemsUntil closing twin) told.cursors_heads allows rfl rfl
  | succ count ih =>
      obtain ⟨less, rfl, fewer⟩ := allows.pred
      refine (skip_echoes closing).step fun closed => ?_
      cases closed with
      | some token => exact .pure rfl
      | none =>
          refine each.bind fun first _ same => ?_
          cases same
          refine (ih fewer).bind fun rest _ same => ?_
          cases same
          exact .pure rfl

/-- What is between the ends of a list is copied item by item. -/
abbrev listCopy (copy : α → α) : Located (List α) → Located (List α) := Located.map (List.map copy)

theorem list_copy_same : listCopy (id : α → α) = id := by
  funext list
  rw [listCopy, List.map_id_fun]
  rfl

/-- Where copies have the same names, so do the items of a list. -/
theorem list_copy_keys {γ : Type} {key : α → γ} (kept : ∀ value, key (copy value) = key value)
    (list : Located (List α)) : (listCopy copy list).node.map key = list.node.map key := by
  rw [listCopy, Located.map, List.map_map]
  exact List.map_congr_left fun value _ => kept value

theorem delimited_echoes (opening closing : Token)
    (each : Echoes told told.Cursors told.Cursors (Copied copy) item twin) :
    Echoes told told.Cursors told.Cursors (Copied (listCopy copy)) (delimited opening item closing)
      (delimited opening twin closing) := by
  refine (expect_echoes opening).step fun start => .count fun cursor other allows => ?_
  refine (items_until_echoes closing each allows).bind fun read _ same => ?_
  cases same
  exact .pure rfl

theorem delimited_nonempty_placed {placed : Position → Prop} (opening closing : Token)
    (each : Echoes told told.Cursors told.Cursors (Copied copy) item twin) :
    Echoes told (told.Facing placed) told.Cursors (Copied (listCopy copy))
      (delimitedNonempty opening item closing) (delimitedNonempty opening twin closing) := by
  refine (expect_placed opening).bind fun start _ taken => each.bind fun first _ same => ?_
  obtain ⟨rfl, -⟩ := taken
  cases same
  refine .count fun cursor other allows => ?_
  refine (items_until_echoes closing each allows).bind fun read _ same => ?_
  cases same
  exact .pure rfl

theorem delimited_nonempty_echoes (opening closing : Token)
    (each : Echoes told told.Cursors told.Cursors (Copied copy) item twin) :
    Echoes told told.Cursors told.Cursors (Copied (listCopy copy))
      (delimitedNonempty opening item closing) (delimitedNonempty opening twin closing) :=
  .widen (delimited_nonempty_placed opening closing each)

theorem repeats_echoes (kind : NameKind) (names : List (Located String)) :
    Echoes told told.Cursors told.Cursors (Copied id) (rejectRepeats kind names)
      (rejectRepeats kind names) := by
  rw [rejectRepeats]
  split
  · exact .pure rfl
  · exact .fail

/-- A nonempty list whose items have names that must not repeat; copies have the same names. -/
theorem named_list_echoes (opening closing : Token) (kind : NameKind) {key : α → Located String}
    (kept : ∀ value, key (copy value) = key value)
    (each : Echoes told told.Cursors told.Cursors (Copied copy) item twin) :
    Echoes told told.Cursors told.Cursors (Copied (listCopy copy))
      (do
        let list ← delimitedNonempty opening item closing
        rejectRepeats kind (list.node.map key)
        pure list)
      (do
        let list ← delimitedNonempty opening twin closing
        rejectRepeats kind (list.node.map key)
        pure list) := by
  refine (delimited_nonempty_echoes opening closing each).bind fun list _ same => ?_
  cases same
  rw [list_copy_keys kept]
  exact (repeats_echoes kind _).step fun _ => .pure rfl

end Lists

end Reader

end GraphQL
