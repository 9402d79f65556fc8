import GraphQL.Proofs.TokenRuns
import Mathlib.Data.List.Forall2

/-!
Reading two sources that differ in one word.

Where a reader succeeds on the first source, it succeeds on the second one as well unless it takes
the word that differs. A name that is still to be compared with others may be taken though; and once
the names of a list were found to repeat in the second source, reading it fails there. What is
compared in the first source is kept in lists, so that no list is forgotten whatever becomes of its
names.
-/

namespace GraphQL

/-- Tokens of two sources side by side; the word that ends at a place stands for another one. -/
structure Replacement where
  pairs : List (Located Token × Located Token)
  stop : Position
  word : String

namespace Replacement

/-- Tokens that are next to each other. -/
structure Tokens (change : Replacement) (token twin : Located Token) : Prop where
  paired : (token, twin) ∈ change.pairs
  kept : token.span.stop ≠ change.stop → twin.node = token.node
  replaced : token.span.stop = change.stop →
    token.node.asName?.isSome = true ∧ twin.node.asName? = some change.word

abbrev Cursors (change : Replacement) (cursor twin : Cursor) : Prop :=
  List.Forall₂ (fun entry other => change.Tokens entry.token other.token) cursor twin

/-- What a name of the first source is in the second one. -/
def text (change : Replacement) (name : Located String) : String :=
  if name.span.stop = change.stop then change.word else name.node

/-- From a token up to another one, in both sources. -/
def Moved (change : Replacement) (span twin : Span) : Prop :=
  ∃ first ∈ change.pairs, ∃ last ∈ change.pairs,
    span = ⟨first.1.span.start, last.1.span.stop⟩ ∧ twin = ⟨first.2.span.start, last.2.span.stop⟩

structure Names (change : Replacement) (name twin : Located String) : Prop where
  same : twin.node = change.text name
  moved : change.Moved name.span twin.span

/-- A list is refused in the second source, where the first of its names repeats. -/
def Complains {α : Type} (change : Replacement) (list : NameList)
    (result : EStateM.Result (Located ParseError) Cursor α) : Prop :=
  ∃ names repeated left, List.Forall₂ change.Names list.2 names ∧
    Reader.firstRepeat? [] names = some repeated ∧
    result = .error ⟨.duplicate list.1 repeated.node, repeated.span⟩ left

end Replacement

/-- A mark is where it was in the other source. -/
theorem Replacement.Tokens.mark {change : Replacement} {token twin : Located Token}
    (tokens : change.Tokens token twin) {mark : Token} (unnamed : mark.asName? = none) :
    twin.node = mark ↔ token.node = mark := by
  by_cases here : token.span.stop = change.stop
  · obtain ⟨named, word⟩ := tokens.replaced here
    constructor <;> rintro rfl
    · rw [unnamed] at word
      cases word
    · rw [unnamed] at named
      cases named
  · rw [tokens.kept here]

theorem Replacement.Tokens.moved {change : Replacement} {token twin : Located Token}
    (tokens : change.Tokens token twin) : change.Moved token.span twin.span :=
  ⟨_, tokens.paired, _, tokens.paired, rfl, rfl⟩

namespace Reader

variable {α β : Type}

/--
What is known where a reader takes some tokens of the first source: of its own names, which are
still to be compared, of the lists of names that were, and of what happens in the second source.
-/
structure Followed (change : Replacement) (apt bare : Prop) (twin : Reader α) (same : α → α → Prop)
    (cursor other left : Cursor) (value : α) (taken : List (Located Token))
    (own : List (Located String)) (lists : List NameList) : Prop where
  past : Cursor.Past taken cursor left
  names : (stops own).Sublist (stops taken)
  listed : ∀ list ∈ lists, (stops list.2).Sublist (stops taken) ∧ NamesInOrder list.2
  unlisted : ∀ token ∈ taken.head?, ∀ list ∈ lists, token.span.stop ∉ stops list.2
  bared : bare → taken ≠ [] ∧ ∀ token ∈ taken.head?, token.span.stop ∉ stops own
  goes_on : ∃ copy later, same value copy ∧ change.Cursors left later ∧
    ((change.stop ∈ stops taken → apt ∧ change.stop ∈ stops own) →
      twin.run other = .ok copy later)
  complains : ∀ list ∈ lists, change.stop ∈ stops list.2 → ¬ (list.2.map change.text).Nodup →
    change.Complains list (twin.run other)

section Followed

variable {change : Replacement} {apt bare : Prop} {twin : Reader α} {same : α → α → Prop}
  {alike : β → β → Prop} {cursor other middle left : Cursor} {value : α} {result : β}
  {taken more : List (Located Token)} {own others : List (Located String)}
  {lists further : List NameList}

theorem complains_bind {next : α → Reader β} {list : NameList}
    (complains : change.Complains list (twin.run cursor)) :
    change.Complains list ((twin >>= next).run cursor) := by
  obtain ⟨names, repeated, later, renamed, found, failed⟩ := complains
  exact ⟨names, repeated, later, renamed, found, run_error_bind failed⟩

/-- What is read next in both sources is read behind what was taken. -/
theorem Followed.bind {next : α → Reader β} (orderly : cursor.Orderly)
    (first : Followed change apt bare twin same cursor other middle value taken own lists) :
    ∃ copy later, same value copy ∧ change.Cursors middle later ∧
      ∀ {more others further bared}, Followed change apt bared (next copy) alike middle later left
          result more others further →
        Followed change apt bare (twin >>= next) alike cursor other left result (taken ++ more)
          (own ++ others) (lists ++ further) := by
  obtain ⟨copy, later, copied, cursors, went_on⟩ := first.goes_on
  refine ⟨copy, later, copied, cursors, fun {more others further bared} second => ?_⟩
  have apart {stop : Position} (before : stop ∈ stops taken) : stop ∉ stops more :=
    orderly.apart first.past second.past before
  refine ⟨first.past.trans second.past, ?_, ?_, ?_, ?_, ?_, ?_⟩
  · rw [stops_append, stops_append]
    exact first.names.append second.names
  · rw [stops_append]
    refine List.forall_mem_append.mpr ⟨fun list member => ?_, fun list member => ?_⟩
    · exact ⟨(first.listed list member).1.trans (List.sublist_append_left _ _),
        (first.listed list member).2⟩
    · exact ⟨(second.listed list member).1.trans (List.sublist_append_right _ _),
        (second.listed list member).2⟩
  · cases taken with
    | nil =>
        refine fun token begins => List.forall_mem_append.mpr ⟨fun list member there => ?_, ?_⟩
        · exact List.not_mem_nil ((first.listed list member).1.subset there)
        · exact second.unlisted token begins
    | cons token rest =>
        rintro _ ⟨⟩
        refine List.forall_mem_append.mpr ⟨first.unlisted token rfl, fun list member there => ?_⟩
        exact apart List.mem_cons_self ((second.listed list member).1.subset there)
  · intro holds
    obtain ⟨filled, unowned⟩ := first.bared holds
    cases taken with
    | nil => exact absurd rfl filled
    | cons token rest =>
        refine ⟨List.cons_ne_nil _ _, ?_⟩
        rintro _ ⟨⟩
        rw [stops_append, List.mem_append, not_or]
        exact ⟨unowned token rfl, fun there =>
          apart List.mem_cons_self (second.names.subset there)⟩
  · obtain ⟨last, final, like, last_cursors, ended⟩ := second.goes_on
    refine ⟨last, final, like, last_cursors, fun spared => ?_⟩
    rw [stops_append, stops_append, List.mem_append, List.mem_append] at spared
    rw [run_ok_bind (went_on fun here => ?_)]
    · refine ended fun there => ?_
      obtain ⟨fits, owned⟩ := spared (.inr there)
      refine ⟨fits, owned.resolve_left fun before => ?_⟩
      exact apart (first.names.subset before) there
    · obtain ⟨fits, owned⟩ := spared (.inl here)
      exact ⟨fits, owned.resolve_right fun there => apart here (second.names.subset there)⟩
  · refine List.forall_mem_append.mpr ⟨fun list member hit repeats => ?_,
      fun list member hit repeats => ?_⟩
    · exact complains_bind (first.complains list member hit repeats)
    · have there := (second.listed list member).1.subset hit
      rw [run_ok_bind (went_on fun here => absurd there (apart here))]
      exact second.complains list member hit repeats

/-- A reader that takes nothing and does the same in both sources. -/
theorem Followed.nothing {copy : α} (like : same value copy) (cursors : change.Cursors cursor other)
    (ran : twin.run other = .ok copy other) :
    Followed change apt False twin same cursor other cursor value [] [] [] where
  past := .here cursor
  names := List.Sublist.slnil
  listed := List.forall_mem_nil _
  unlisted := fun _ absent => by cases absent
  bared := False.elim
  goes_on := ⟨copy, other, like, cursors, fun _ => ran⟩
  complains := List.forall_mem_nil _

/-- A token that is no name, unless it is the word that differs. -/
theorem Followed.token {entry next : Entry} {rest later : Cursor} (copy : α)
    (like : same value copy) (cursors : change.Cursors (next :: rest) later)
    (ran : entry.token.span.stop ≠ change.stop → twin.run other = .ok copy later) :
    Followed change apt bare twin same (entry :: next :: rest) other (next :: rest) value
      [entry.token] [] [] where
  past := .one entry next rest
  names := List.nil_sublist _
  listed := List.forall_mem_nil _
  unlisted := fun _ _ => List.forall_mem_nil _
  bared := fun _ => ⟨List.cons_ne_nil _ _, fun _ _ => List.not_mem_nil⟩
  goes_on := by
    refine ⟨copy, later, like, cursors, fun spared => ran fun here => ?_⟩
    exact absurd (spared (List.mem_singleton.mpr here.symm)).2 List.not_mem_nil
  complains := List.forall_mem_nil _

/-- A name that is to be compared with others may be the word that differs. -/
theorem Followed.named {entry next : Entry} {rest later : Cursor} {name : Located String}
    (there : name.span = entry.token.span) (copy : α) (like : same value copy)
    (cursors : change.Cursors (next :: rest) later) (ran : twin.run other = .ok copy later) :
    Followed change apt False twin same (entry :: next :: rest) other (next :: rest) value
      [entry.token] [name] [] where
  past := .one entry next rest
  names := by
    rw [stops, List.map_singleton, there]
    exact List.Sublist.refl _
  listed := List.forall_mem_nil _
  unlisted := fun _ _ => List.forall_mem_nil _
  bared := False.elim
  goes_on := ⟨copy, later, like, cursors, fun _ => ran⟩
  complains := List.forall_mem_nil _

end Followed

/--
Where a fact holds of the next token of the first source, a reader is followed if it succeeds there.
It tells what it yields, which names of it are still to be compared, and which lists were.
-/
structure FollowsFrom (change : Replacement) (apt : Prop) (ahead : Located Token → Prop)
    (bare : Prop) (reader twin : Reader α) (same : α → α → Prop)
    (tells : α → List (Located String) → List NameList → Prop) : Prop where
  run : ∀ cursor other value left, cursor.Orderly → change.Cursors cursor other →
    (∀ token ∈ cursor.tokens.head?, ahead token) → reader.run cursor = .ok value left →
    ∃ taken own lists, tells value own lists ∧
      Followed change apt bare twin same cursor other left value taken own lists ∧
      DirectivesListed cursor left lists

/-- Nothing is known of the next token. -/
abbrev Follows (change : Replacement) (apt bare : Prop) (reader twin : Reader α)
    (same : α → α → Prop) (tells : α → List (Located String) → List NameList → Prop) : Prop :=
  FollowsFrom change apt (fun _ => True) bare reader twin same tells

/-- A reader that takes nothing yields what it would in the other source. -/
structure Glances (change : Replacement) (reader twin : Reader α) (same : α → α → Prop) :
    Prop where
  run : ∀ cursor other value left, change.Cursors cursor other →
    reader.run cursor = .ok value left →
    Cursor.Past [] cursor left ∧ ∃ copy later, same value copy ∧ change.Cursors left later ∧
      twin.run other = .ok copy later

/-- Something is yielded of which no name is to be compared, and no list was compared in it. -/
def Plain (good : α → Prop) (value : α) (own : List (Located String)) (lists : List NameList) :
    Prop :=
  own = [] ∧ lists = [] ∧ good value

section Rules

variable {change : Replacement} {apt bare : Prop} {ahead : Located Token → Prop}
  {reader twin : Reader α} {same : α → α → Prop} {alike : β → β → Prop}
  {tells : α → List (Located String) → List NameList → Prop}
  {goal : β → List (Located String) → List NameList → Prop}

theorem FollowsFrom.pure {value copy : α} (like : same value copy) (told : tells value [] []) :
    FollowsFrom change apt ahead False (Pure.pure value) (Pure.pure copy) same tells := by
  refine ⟨fun cursor other found left orderly cursors _ ran => ?_⟩
  cases ran
  exact ⟨[], [], [], told, .nothing like cursors rfl, .here cursor⟩

theorem FollowsFrom.never (fails : ∀ cursor value left, reader.run cursor ≠ .ok value left) :
    FollowsFrom change apt ahead bare reader twin same tells :=
  ⟨fun cursor _ value left _ _ _ ran => (fails cursor value left ran).elim⟩

theorem FollowsFrom.fail {span : Span} {error : ParseError} :
    FollowsFrom change apt ahead bare (Reader.fail span error) twin same tells :=
  never fun _ _ _ ran => by cases ran

theorem FollowsFrom.reject {error : Token → ParseError} :
    FollowsFrom change apt ahead bare (Reader.reject error) twin same tells := by
  refine never fun cursor value left ran => ?_
  obtain ⟨_, _, _, failed⟩ := run_bind ran
  cases failed

theorem FollowsFrom.bind {next further : α → Reader β}
    (first : FollowsFrom change apt ahead bare reader twin same tells)
    (second : ∀ value copy own lists, same value copy → tells value own lists →
      Follows change apt False (next value) (further copy) alike
        fun result others more => goal result (own ++ others) (lists ++ more)) :
    FollowsFrom change apt ahead bare (reader >>= next) (twin >>= further) alike goal := by
  refine ⟨fun cursor other result left orderly cursors known ran => ?_⟩
  obtain ⟨value, middle, begun, ended⟩ := run_bind ran
  obtain ⟨taken, own, lists, told, followed, listed⟩ :=
    first.run cursor other value middle orderly cursors known begun
  obtain ⟨copy, later, like, later_cursors, continued⟩ := followed.bind orderly
  obtain ⟨more, others, further_lists, final, behind, listed_behind⟩ :=
    (second value copy own lists like told).run middle later result left
      (orderly.behind followed.past) later_cursors (fun _ _ => trivial) ended
  exact ⟨_, _, _, final, continued behind, listed.trans followed.past listed_behind⟩

/-- What is told does not change behind something plain. -/
theorem FollowsFrom.step {good : α → Prop} {next further : α → Reader β}
    (first : FollowsFrom change apt ahead bare reader twin same (Plain good))
    (second : ∀ value copy, same value copy → good value →
      Follows change apt False (next value) (further copy) alike goal) :
    FollowsFrom change apt ahead bare (reader >>= next) (twin >>= further) alike goal := by
  refine first.bind fun value copy own lists like told => ?_
  obtain ⟨rfl, rfl, holds⟩ := told
  exact second value copy like holds

theorem FollowsFrom.knowing {known : Located Token → Prop}
    (follows : FollowsFrom change apt ahead bare reader twin same tells)
    (stronger : ∀ token, known token → ahead token) :
    FollowsFrom change apt known bare reader twin same tells :=
  ⟨fun cursor other value left orderly cursors holds => follows.run cursor other value left orderly
    cursors fun token first => stronger token (holds token first)⟩

theorem FollowsFrom.less {bared : Prop}
    (follows : FollowsFrom change apt ahead bare reader twin same tells) (fewer : bared → bare) :
    FollowsFrom change apt ahead bared reader twin same tells := by
  refine ⟨fun cursor other value left orderly cursors known ran => ?_⟩
  obtain ⟨taken, own, lists, told, followed, listed⟩ :=
    follows.run cursor other value left orderly cursors known ran
  exact ⟨taken, own, lists, told,
    { followed with bared := fun holds => followed.bared (fewer holds) }, listed⟩

/-- Names need not be compared, and less may be told. -/
theorem FollowsFrom.mono {like : α → α → Prop}
    {told : α → List (Located String) → List NameList → Prop}
    (follows : FollowsFrom change apt ahead bare reader twin same tells)
    (weaker : ∀ value own lists, tells value own lists →
      ∃ kept, (stops kept).Sublist (stops own) ∧ told value kept lists)
    (similar : ∀ value copy, same value copy → like value copy) :
    FollowsFrom change apt ahead bare reader twin like told := by
  refine ⟨fun cursor other value left orderly cursors known ran => ?_⟩
  obtain ⟨taken, own, lists, holds, followed, listed⟩ :=
    follows.run cursor other value left orderly cursors known ran
  obtain ⟨kept, among, final⟩ := weaker value own lists holds
  refine ⟨taken, kept, lists, final, ?_, listed⟩
  obtain ⟨copy, later, copied, later_cursors, went_on⟩ := followed.goes_on
  exact {
    past := followed.past
    names := among.trans followed.names
    listed := followed.listed
    unlisted := followed.unlisted
    bared := fun holds =>
      have ⟨filled, unowned⟩ := followed.bared holds
      ⟨filled, fun token begins there => unowned token begins (among.subset there)⟩
    goes_on := ⟨copy, later, similar _ _ copied, later_cursors, fun spared =>
      went_on fun here => ⟨(spared here).1, among.subset (spared here).2⟩⟩
    complains := followed.complains }

/-- Where no name is to be compared any more, it does not matter which word is compared. -/
theorem FollowsFrom.settled {fits : Prop}
    (follows : FollowsFrom change apt ahead bare reader twin same tells)
    (settled : ∀ value own lists, tells value own lists → own = []) :
    FollowsFrom change fits ahead bare reader twin same tells := by
  refine ⟨fun cursor other value left orderly cursors known ran => ?_⟩
  obtain ⟨taken, own, lists, holds, followed, listed⟩ :=
    follows.run cursor other value left orderly cursors known ran
  obtain rfl := settled value own lists holds
  refine ⟨taken, [], lists, holds, ?_, listed⟩
  obtain ⟨copy, later, copied, later_cursors, went_on⟩ := followed.goes_on
  exact { followed with
    goes_on := ⟨copy, later, copied, later_cursors, fun spared =>
      went_on fun here => absurd (spared here).2 List.not_mem_nil⟩ }

/-- It only matters what the other reader comes to where it is run. -/
theorem Followed.run_same {cursor other start left : Cursor} {value : α} {copier : Reader α}
    {taken : List (Located Token)} {own : List (Located String)} {lists : List NameList}
    (followed : Followed change apt bare twin same cursor other left value taken own lists)
    (ran : copier.run start = twin.run other) :
    Followed change apt bare copier same cursor start left value taken own lists := by
  obtain ⟨copy, later, like, cursors, went_on⟩ := followed.goes_on
  exact { followed with
    goes_on := ⟨copy, later, like, cursors, fun spared => ran.trans (went_on spared)⟩
    complains := fun list member hit repeats => by
      rw [ran]
      exact followed.complains list member hit repeats }

/-- Behind a look a reader is followed as it would be without it. -/
theorem Glances.bind {next further : α → Reader β} (first : Glances change reader twin same)
    (second : ∀ value copy, same value copy →
      FollowsFrom change apt ahead bare (next value) (further copy) alike goal) :
    FollowsFrom change apt ahead bare (reader >>= next) (twin >>= further) alike goal := by
  refine ⟨fun cursor other result left orderly cursors known ran => ?_⟩
  obtain ⟨value, middle, begun, ended⟩ := run_bind ran
  obtain ⟨past, copy, later, like, later_cursors, seen⟩ :=
    first.run cursor other value middle cursors begun
  have tokens := past.tokens
  rw [List.nil_append] at tokens
  obtain ⟨taken, own, lists, told, followed, listed⟩ :=
    (second value copy like).run middle later result left (orderly.behind past) later_cursors
      (tokens ▸ known) ended
  refine ⟨taken, own, lists, told, ?_, ?_⟩
  · have ran : (twin >>= further).run other = (further copy).run later := run_ok_bind seen
    exact { followed.run_same ran with
      past := List.nil_append taken ▸ past.trans followed.past }
  · have early : DirectivesListed cursor middle [] := by
      intro place among longer
      have lengths := past.length
      exact absurd among.length_le (by simp at lengths; omega)
    exact early.trans past listed

namespace Glances

theorem count :
    Glances change get get fun (cursor other : Cursor) => cursor.length = other.length := by
  refine ⟨fun cursor other value left cursors ran => ?_⟩
  cases ran
  exact ⟨.here _, other, other, cursors.length_eq, cursors, rfl⟩

theorem description : Glances change takeDescription takeDescription fun _ _ => True := by
  refine ⟨fun cursor other value left cursors ran => ?_⟩
  cases cursors with
  | nil =>
      cases ran
      exact ⟨.here _, none, [], trivial, .nil, rfl⟩
  | cons first others =>
      cases ran
      refine ⟨⟨⟨[], _, rfl, rfl, rfl, rfl⟩, fun _ => List.cons_ne_nil _ _⟩, _, _, trivial, ?_, rfl⟩
      exact .cons first others

end Glances

/-- What is seen next is the same, unless it is a word and taken as no name. -/
theorem FollowsFrom.peek {next further : Located Token → Reader β}
    (each : ∀ found copy, found.node.IsWord → copy.node = found.node →
      FollowsFrom change apt (fun token => token = found)
        (found.node.asName?.isSome = true ∨ bare) (next found) (further copy) alike goal) :
    FollowsFrom change apt ahead bare (Reader.peek >>= next) (Reader.peek >>= further) alike
      goal := by
  refine ⟨fun cursor other result left orderly cursors known ran => ?_⟩
  obtain ⟨found, middle, begun, ended⟩ := run_bind ran
  cases cursors with
  | nil =>
      cases begun
      obtain ⟨taken, own, lists, told, followed, listed⟩ :=
        (each (.unplaced .endOfFile) (.unplaced .endOfFile) (Token.is_word_of_none rfl) rfl).run []
          [] result left orderly .nil (fun _ absent => by cases absent) ended
      refine ⟨taken, own, lists, told, ?_, listed⟩
      exact { followed.run_same rfl with bared := fun holds => followed.bared (.inr holds) }
  | @cons entry copied rest others first behind =>
      cases begun
      have word := orderly.words entry.token List.mem_cons_self
      have at_once : ∀ token ∈ (Cursor.tokens (entry :: rest)).head?, token = entry.token := by
        intro token there
        cases there
        rfl
      by_cases here : entry.token.span.stop = change.stop
      · -- The word that differs is taken here, and neither compared nor listed.
        obtain ⟨taken, own, lists, told, followed, listed⟩ :=
          (each entry.token entry.token word rfl).run _ _ result left orderly
            (.cons first behind) at_once ended
        refine ⟨taken, own, lists, told, ?_, listed⟩
        obtain ⟨filled, unowned⟩ := followed.bared (.inl (first.replaced here).1)
        have begins := followed.past.starts filled
        obtain ⟨copy, later, like, later_cursors, -⟩ := followed.goes_on
        exact { followed with
          bared := fun holds => followed.bared (.inr holds)
          goes_on := by
            refine ⟨copy, later, like, later_cursors, fun spared => ?_⟩
            have owned := spared (here ▸ List.mem_map_of_mem (List.mem_of_mem_head? begins))
            exact absurd (here ▸ owned.2) (unowned _ begins)
          complains := fun list member hit =>
            absurd (here ▸ hit) (followed.unlisted _ begins list member) }
      · obtain ⟨taken, own, lists, told, followed, listed⟩ :=
          (each entry.token copied.token word (first.kept here)).run _ _ result left orderly
            (.cons first behind) at_once ended
        refine ⟨taken, own, lists, told, ?_, listed⟩
        exact { followed.run_same rfl with bared := fun holds => followed.bared (.inr holds) }

/--
What is seen next may be the word that differs and a name that is to be compared, if the word is one
that can be.
-/
theorem FollowsFrom.peek_named {next further : Located Token → Reader β}
    (each : ∀ found copy, found.node.IsWord →
      copy.node = found.node ∨ apt ∧ copy.node.asName? = some change.word →
      FollowsFrom change apt (fun token => token = found) bare (next found) (further copy) alike
        goal)
    (owned : ∀ result own lists, goal result own lists → own ≠ []) :
    FollowsFrom change apt ahead bare (Reader.peek >>= next) (Reader.peek >>= further) alike
      goal := by
  refine ⟨fun cursor other result left orderly cursors known ran => ?_⟩
  obtain ⟨found, middle, begun, ended⟩ := run_bind ran
  cases cursors with
  | nil =>
      cases begun
      obtain ⟨taken, own, lists, told, followed, listed⟩ :=
        (each (.unplaced .endOfFile) (.unplaced .endOfFile) (Token.is_word_of_none rfl)
          (.inl rfl)).run [] [] result left orderly .nil (fun _ absent => by cases absent) ended
      exact ⟨taken, own, lists, told, followed.run_same rfl, listed⟩
  | @cons entry copied rest others first behind =>
      cases begun
      have word := orderly.words entry.token List.mem_cons_self
      have at_once : ∀ token ∈ (Cursor.tokens (entry :: rest)).head?, token = entry.token := by
        intro token there
        cases there
        rfl
      have going (copy : Located Token)
          (like : copy.node = entry.token.node ∨ apt ∧ copy.node.asName? = some change.word) :=
        (each entry.token copy word like).run _ _ result left orderly (.cons first behind) at_once
          ended
      by_cases here : entry.token.span.stop = change.stop
      · by_cases fits : apt
        · obtain ⟨taken, own, lists, told, followed, listed⟩ :=
            going copied.token (.inr ⟨fits, (first.replaced here).2⟩)
          exact ⟨taken, own, lists, told, followed.run_same rfl, listed⟩
        · -- The word that differs is taken as a name here, which is then not to be compared.
          obtain ⟨taken, own, lists, told, followed, listed⟩ := going entry.token (.inl rfl)
          refine ⟨taken, own, lists, told, ?_, listed⟩
          have filled : taken ≠ [] := by
            rintro rfl
            exact owned result own lists told (List.map_eq_nil_iff.mp
              (List.sublist_nil.mp followed.names))
          have begins := followed.past.starts filled
          obtain ⟨copy, later, like, later_cursors, -⟩ := followed.goes_on
          exact { followed with
            goes_on := by
              refine ⟨copy, later, like, later_cursors, fun spared => ?_⟩
              have there : entry.token.span.stop ∈ stops taken :=
                List.mem_map_of_mem (List.mem_of_mem_head? begins)
              exact absurd (spared (here ▸ there)).1 fits
            complains := fun list member hit =>
              absurd (here ▸ hit) (followed.unlisted _ begins list member) }
      · obtain ⟨taken, own, lists, told, followed, listed⟩ :=
          going copied.token (.inl (first.kept here))
        exact ⟨taken, own, lists, told, followed.run_same rfl, listed⟩

/-- A mark is seen in both sources or in none, and then it is the next token. -/
theorem FollowsFrom.sees {mark : Token} (unnamed : mark.asName? = none)
    {next further : Bool → Reader β}
    (present : FollowsFrom change apt (fun found => found.node = mark) bare (next true)
      (further true) alike goal)
    (other : FollowsFrom change apt ahead bare (next false) (further false) alike goal) :
    FollowsFrom change apt ahead bare (Reader.sees mark >>= next) (Reader.sees mark >>= further)
      alike goal := by
  refine ⟨fun cursor copy result left orderly cursors known ran => ?_⟩
  have agree : ahead? copy = mark ↔ ahead? cursor = mark := by
    cases cursors with
    | nil => exact Iff.rfl
    | cons first others => exact first.mark unnamed
  have copied := @sees_run _ mark further copy
  rw [sees_run] at ran
  by_cases here : ahead? cursor = mark
  · rw [decide_eq_true here] at ran
    rw [decide_eq_true (agree.mpr here)] at copied
    have next_token : ∀ token ∈ cursor.tokens.head?, token.node = mark := by
      intro token first
      rw [ahead?, Option.mem_def.mp first] at here
      exact here
    obtain ⟨taken, own, lists, told, followed, listed⟩ :=
      present.run cursor copy result left orderly cursors next_token ran
    exact ⟨taken, own, lists, told, followed.run_same copied, listed⟩
  · rw [decide_eq_false here] at ran
    rw [decide_eq_false (agree.not.mpr here)] at copied
    obtain ⟨taken, own, lists, told, followed, listed⟩ :=
      other.run cursor copy result left orderly cursors known ran
    exact ⟨taken, own, lists, told, followed.run_same copied, listed⟩

theorem FollowsFrom.next (plain : ∀ token, ahead token → token.node ≠ .punctuator .at) :
    FollowsFrom change apt ahead bare Reader.next Reader.next change.Tokens (Plain ahead) := by
  refine ⟨fun cursor other value left orderly cursors known ran => ?_⟩
  match cursor, ran with
  | [], ran => cases ran
  | [_], ran => cases ran
  | entry :: next :: rest, ran =>
      cases ran
      have here := known _ rfl
      cases cursors with
      | cons first behind =>
          refine ⟨_, _, _, ⟨rfl, rfl, here⟩, .token _ first behind fun _ => ?_,
            .one (plain _ here) _⟩
          cases behind with
          | cons => rfl

theorem FollowsFrom.expect {token : Token} (plain : token ≠ .punctuator .at) :
    FollowsFrom change apt ahead bare (Reader.expect token) (Reader.expect token) change.Tokens
      (Plain fun _ => True) := by
  refine ⟨fun cursor other value left orderly cursors known ran => ?_⟩
  obtain ⟨entry, next, rest, rfl, rfl, rfl, rfl⟩ := expect_ran ran
  cases cursors with
  | cons first behind =>
      refine ⟨_, _, _, ⟨rfl, rfl, trivial⟩, .token _ first behind fun here => ?_, .one plain _⟩
      cases behind with
      | cons => exact expect_run (first.kept here) _ _

/-- A mark that may be missing is there in both sources, or in none. -/
theorem FollowsFrom.skip {mark : Token} (unnamed : mark.asName? = none)
    (plain : mark ≠ .punctuator .at) :
    FollowsFrom change apt ahead False (skip? mark) (skip? mark)
      (fun found copy => found.isSome = copy.isSome) (Plain fun _ => True) := by
  refine ⟨fun cursor other value left orderly cursors known ran => ?_⟩
  rcases skip_ran ran with ⟨entry, next, rest, rfl, marked, rfl, rfl⟩ |
    ⟨entry, rest, rfl, unmarked, visible, rfl, rfl⟩
  · cases cursors with
    | @cons _ copy _ _ first behind =>
        refine ⟨_, _, _, ⟨rfl, rfl, trivial⟩, .token (some copy.token) rfl behind fun here => ?_,
          .one (marked ▸ plain) _⟩
        cases behind with
        | cons => exact skip_run ((first.kept here).trans marked) _ _
  · cases cursors with
    | cons first behind =>
        refine ⟨_, _, _, ⟨rfl, rfl, trivial⟩, Followed.nothing rfl (.cons first behind) ?_, .here _⟩
        exact skip_run_other ((first.mark unnamed).not.mpr unmarked)
          ((first.mark rfl).not.mpr visible) _

/-- What is read next may depend on whether a mark is there. -/
theorem FollowsFrom.skip_cases {mark : Token} (unnamed : mark.asName? = none)
    (plain : mark ≠ .punctuator .at) {next further : Option (Located Token) → Reader β}
    (present : ∀ found copy,
      Follows change apt False (next (some found)) (further (some copy)) alike goal)
    (absent : Follows change apt False (next none) (further none) alike goal) :
    FollowsFrom change apt ahead False (skip? mark >>= next) (skip? mark >>= further) alike
      goal := by
  refine (FollowsFrom.skip unnamed plain).step fun found copy like _ => ?_
  cases found with
  | none =>
      cases copy with
      | none => exact absent
      | some => cases like
  | some =>
      cases copy with
      | none => cases like
      | some => exact present _ _

/-- Where a keyword is missing, a mark has to be next, so it is missing in both sources. -/
theorem FollowsFrom.skip_word {word : Keyword} {next further : Option (Located Token) → Reader β}
    (opens : ∀ cursor value left, (next none).run cursor = .ok value left →
      ∀ token ∈ cursor.tokens.head?, token.node.asName? = none)
    (absent : Follows change apt False (next none) (further none) alike goal)
    (present : ∀ found copy, copy.isSome = true →
      Follows change apt False (next (some found)) (further copy) alike goal) :
    FollowsFrom change apt ahead False (skip? (.keyword word) >>= next)
      (skip? (.keyword word) >>= further) alike goal := by
  refine ⟨fun cursor other result left orderly cursors known ran => ?_⟩
  obtain ⟨found, middle, begun, ended⟩ := run_bind ran
  rcases skip_ran begun with ⟨entry, second, rest, rfl, worded, rfl, rfl⟩ |
    ⟨entry, rest, rfl, missing, visible, rfl, rfl⟩
  · cases cursors with
    | @cons _ copy _ others first behind =>
        have taken : Followed change apt False (skip? (.keyword word))
            (fun found copy => found.isSome = copy.isSome) (entry :: second :: rest)
            (copy :: others) (second :: rest) (some entry.token) [entry.token] [] [] := by
          refine .token (some copy.token) rfl behind fun here => ?_
          cases behind with
          | cons => exact skip_run ((first.kept here).trans worded) _ _
        obtain ⟨copied, later, like, later_cursors, continued⟩ := taken.bind orderly
        obtain ⟨more, own, lists, told, followed, listed⟩ := (present entry.token copied
          like.symm).run _ later result left (orderly.behind taken.past) later_cursors
          (fun _ _ => trivial) ended
        refine ⟨_, _, _, told, continued followed, ?_⟩
        exact (DirectivesListed.one (by simp [worded]) _).trans taken.past listed
  · cases cursors with
    | @cons _ copy _ others first behind =>
        have unnamed := opens _ _ _ ended entry.token rfl
        have same : copy.token.node = entry.token.node := by
          refine first.kept fun here => ?_
          have named := (first.replaced here).1
          rw [unnamed] at named
          cases named
        obtain ⟨taken, own, lists, told, followed, listed⟩ := absent.run _ (copy :: others) result
          left orderly (.cons first behind) (fun _ _ => trivial) ended
        refine ⟨taken, own, lists, told, followed.run_same (run_ok_bind ?_), listed⟩
        exact skip_run_other (same ▸ missing) (same ▸ visible) _

/-- A name that is to be compared with others. -/
theorem FollowsFrom.name : FollowsFrom change apt ahead False Reader.name Reader.name change.Names
    fun found own lists => own = [found] ∧ lists = [] ∧ found.Valid ∧
      ∃ token, ahead token ∧ token.node = .ofWord found.node := by
  refine ⟨fun cursor other value left orderly cursors known ran => ?_⟩
  obtain ⟨entry, next, rest, text, rfl, named, rfl, rfl⟩ := name_ran ran
  obtain ⟨word, valid⟩ := orderly.words entry.token List.mem_cons_self text named
  have plain : entry.token.node ≠ .punctuator .at := by
    intro mark
    rw [mark] at named
    cases named
  cases cursors with
  | @cons _ copy _ _ first behind =>
      have copied : copy.token.node.asName? =
          some (change.text (entry.token.map fun _ => text)) := by
        rw [Replacement.text]
        split
        · rename_i here
          exact (first.replaced here).2
        · rename_i here
          rw [first.kept here]
          exact named
      have like : change.Names (entry.token.map fun _ => text)
          (copy.token.map fun _ => change.text (entry.token.map fun _ => text)) :=
        ⟨rfl, first.moved⟩
      refine ⟨_, _, _, ⟨rfl, rfl, valid, entry.token, known _ rfl, word⟩,
        .named rfl _ like behind ?_, .one plain _⟩
      cases behind with
      | cons => exact name_run copied _ _

/-- A name that is compared with no others is the same in both sources, as far as they agree. -/
theorem FollowsFrom.bare_name : FollowsFrom change apt ahead bare Reader.name Reader.name
    (fun found copy => copy.node = found.node) (Plain Located.Valid) := by
  refine ⟨fun cursor other value left orderly cursors known ran => ?_⟩
  obtain ⟨entry, next, rest, text, rfl, named, rfl, rfl⟩ := name_ran ran
  have valid := (orderly.words entry.token List.mem_cons_self text named).2
  have plain : entry.token.node ≠ .punctuator .at := by
    intro mark
    rw [mark] at named
    cases named
  cases cursors with
  | @cons _ copy _ _ first behind =>
      refine ⟨_, _, _, ⟨rfl, rfl, valid⟩,
        .token (copy.token.map fun _ => text) rfl behind fun here => ?_,
        .one plain _⟩
      cases behind with
      | cons => exact name_run ((first.kept here).symm ▸ named) _ _

end Rules

end Reader

end GraphQL
