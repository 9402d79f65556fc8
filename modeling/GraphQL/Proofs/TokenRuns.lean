import GraphQL.Proofs.SourceNames
import GraphQL.Proofs.WellFormedDocuments

/-!
Runs of tokens that readers take.

A cursor is moved past the tokens that a reader takes, and only the description in front of the next
one may be gone from what is left. The tokens of a source are in order, so what is taken first ends
before what is taken later.
-/

namespace GraphQL

/-- The places where some things end. -/
def stops {α : Type} (parts : List (Located α)) : List Position := parts.map (·.span.stop)

@[simp] theorem stops_append {α : Type} (parts more : List (Located α)) :
    stops (parts ++ more) = stops parts ++ stops more := List.map_append

/-- Words one behind the other; the last token is never taken, and may be empty. -/
structure Cursor.Orderly (cursor : Cursor) : Prop where
  words : ∀ token ∈ cursor.tokens, token.node.IsWord
  ordered : cursor.tokens.dropLast.Pairwise fun first second =>
    first.span.stop.index < second.span.stop.index

/-- A cursor is moved past some tokens; the description in front of the next one may be gone. -/
structure Cursor.Past (taken : List (Located Token)) (cursor left : Cursor) : Prop where
  split : ∃ front rest, cursor = front ++ rest ∧ Cursor.tokens front = taken ∧
    left.tokens = Cursor.tokens rest ∧ left.tail = List.tail rest
  remains : taken ≠ [] → left ≠ []

/-- The arguments of directives that begin in front of what is left are among some lists. -/
def DirectivesListed (cursor left : Cursor) (lists : List NameList) : Prop :=
  ∀ rest, rest <:+ cursor → left.length < rest.length → ∀ found after,
    Reader.directive.run rest = .ok found after →
      ∀ list, ArgumentsList found.node.arguments list → list ∈ lists

section Cursors

variable {cursor middle left : Cursor} {taken more : List (Located Token)}

theorem Cursor.Past.here (cursor : Cursor) : Cursor.Past [] cursor cursor :=
  ⟨⟨[], cursor, rfl, rfl, rfl, rfl⟩, fun filled => absurd rfl filled⟩

theorem Cursor.Past.one (entry next : Entry) (rest : Cursor) :
    Cursor.Past [entry.token] (entry :: next :: rest) (next :: rest) :=
  ⟨⟨[entry], next :: rest, rfl, rfl, rfl, rfl⟩, fun _ => List.cons_ne_nil _ _⟩

theorem Cursor.Past.tokens (past : Cursor.Past taken cursor left) :
    cursor.tokens = taken ++ left.tokens := by
  obtain ⟨front, rest, rfl, rfl, same, -⟩ := past.split
  rw [same, Cursor.tokens, Cursor.tokens, Cursor.tokens, List.map_append]

theorem Cursor.Past.trans (first : Cursor.Past taken cursor middle)
    (second : Cursor.Past more middle left) : Cursor.Past (taken ++ more) cursor left := by
  obtain ⟨⟨front, rest, rfl, rfl, same, behind⟩, remains⟩ := first
  obtain ⟨⟨others, final, rfl, rfl, left_same, left_behind⟩, still_remains⟩ := second
  cases others with
  | nil =>
      refine ⟨⟨front, rest, rfl, (List.append_nil _).symm, left_same.trans same, ?_⟩, ?_⟩
      · exact left_behind.trans behind
      · rintro filled rfl
        refine remains (by simpa [Cursor.tokens] using filled) ?_
        exact List.map_eq_nil_iff.mp left_same.symm
  | cons entry others =>
      -- Only the first entry of the middle may differ from what stands in the cursor.
      cases rest with
      | nil => cases same
      | cons kept rest =>
          obtain ⟨token, -⟩ := List.cons.inj same
          obtain rfl : others ++ final = rest := behind
          refine ⟨⟨front ++ kept :: others, final, by simp, ?_, left_same, left_behind⟩,
            fun _ => still_remains (List.cons_ne_nil _ _)⟩
          simp [Cursor.tokens, token]

theorem Cursor.Past.length (past : Cursor.Past taken cursor left) :
    cursor.length = taken.length + left.length := by
  have lengths := congrArg List.length past.tokens
  simpa [Cursor.tokens] using lengths

/-- What is taken begins with the next token. -/
theorem Cursor.Past.starts {entry : Entry} {rest : Cursor}
    (past : Cursor.Past taken (entry :: rest) left) (filled : taken ≠ []) :
    entry.token ∈ taken.head? := by
  have tokens := past.tokens
  cases taken with
  | nil => exact absurd rfl filled
  | cons token more =>
      obtain ⟨same, -⟩ := List.cons.inj tokens
      rw [same]
      rfl

/-- The tokens that are taken are none of them the last one. -/
theorem Cursor.Past.before_last (past : Cursor.Past taken cursor left) (filled : taken ≠ []) :
    cursor.tokens.dropLast = taken ++ left.tokens.dropLast := by
  rw [past.tokens, List.dropLast_append_of_ne_nil]
  exact fun empty => past.remains filled (List.map_eq_nil_iff.mp empty)

theorem Cursor.Orderly.of_tokens (orderly : cursor.Orderly)
    (fewer : left.tokens <:+ cursor.tokens) : left.Orderly := by
  refine ⟨fun token member => orderly.words token (fewer.subset member), ?_⟩
  by_cases filled : left.tokens = []
  · rw [filled]
    exact .nil
  · obtain ⟨taken, whole⟩ := fewer
    have ordered := orderly.ordered
    rw [← whole, List.dropLast_append_of_ne_nil filled] at ordered
    exact ordered.sublist (List.sublist_append_right _ _)

theorem Cursor.Orderly.behind (orderly : cursor.Orderly) (past : Cursor.Past taken cursor left) :
    left.Orderly :=
  orderly.of_tokens ⟨taken, past.tokens.symm⟩

/-- Tokens that are taken follow one another. -/
theorem Cursor.Orderly.in_order (orderly : cursor.Orderly) (past : Cursor.Past taken cursor left) :
    taken.Pairwise fun first second => first.span.stop.index < second.span.stop.index := by
  by_cases filled : taken = []
  · rw [filled]
    exact .nil
  · have ordered := orderly.ordered
    rw [past.before_last filled] at ordered
    exact ordered.sublist (List.sublist_append_left _ _)

/-- No token that is taken ends where another one does that is taken later. -/
theorem Cursor.Orderly.apart (orderly : cursor.Orderly) (past : Cursor.Past taken cursor middle)
    (later : Cursor.Past more middle left) {stop : Position} (before : stop ∈ stops taken) :
    stop ∉ stops more := by
  intro behind
  obtain ⟨first, member, rfl⟩ := List.mem_map.mp before
  obtain ⟨second, among, same⟩ := List.mem_map.mp behind
  have ordered := List.pairwise_append.mp (orderly.in_order (past.trans later))
  exact absurd (congrArg Position.index same) (ordered.2.2 first member second among).ne'

/-- A token that is expected is taken where another one follows. -/
theorem expect_run {token : Token} {entry : Entry} (same : entry.token.node = token) (next : Entry)
    (rest : Cursor) :
    (Reader.expect token).run (entry :: next :: rest) = .ok entry.token (next :: rest) := by
  change (if entry.token.node = token then Reader.next else _ : Reader (Located Token)).run _ = _
  rw [if_pos same]
  rfl

/-- A token that was expected was the next one, and another one follows. -/
theorem expect_ran {token : Token} {found : Located Token}
    (ran : (Reader.expect token).run cursor = .ok found left) :
    ∃ entry next rest, cursor = entry :: next :: rest ∧ entry.token.node = token ∧
      found = entry.token ∧ left = next :: rest := by
  obtain ⟨seen, before, looked, taken⟩ := Reader.run_bind ran
  by_cases equal : seen.node = token
  · rw [if_pos equal] at taken
    match cursor, looked with
    | [], looked =>
        cases looked
        cases taken
    | [entry], looked =>
        cases looked
        cases taken
    | entry :: next :: rest, looked =>
        cases looked
        cases taken
        exact ⟨entry, next, rest, rfl, equal, rfl, rfl⟩
  · rw [if_neg equal] at taken
    obtain ⟨_, _, _, failed⟩ := Reader.run_bind taken
    cases failed

/-- A name that is read was the next token, and another one follows. -/
theorem name_ran {name : Located String} (ran : Reader.name.run cursor = .ok name left) :
    ∃ entry next rest text, cursor = entry :: next :: rest ∧
      entry.token.node.asName? = some text ∧ name = entry.token.map (fun _ => text) ∧
      left = next :: rest := by
  obtain ⟨seen, before, looked, taken⟩ := Reader.run_bind ran
  split at taken
  · cases taken
  · split at taken
    · rename_i text named
      obtain ⟨token, after, handed, ended⟩ := Reader.run_bind taken
      match cursor, looked with
      | [], looked =>
          cases looked
          cases named
      | [entry], looked =>
          cases looked
          cases handed
      | entry :: next :: rest, looked =>
          cases looked
          cases handed
          cases ended
          exact ⟨entry, next, rest, text, rfl, named, rfl, rfl⟩
    · obtain ⟨_, _, _, failed⟩ := Reader.run_bind taken
      cases failed

theorem name_run {entry : Entry} {text : String} (named : entry.token.node.asName? = some text)
    (next : Entry) (rest : Cursor) :
    Reader.name.run (entry :: next :: rest) =
      .ok (entry.token.map fun _ => text) (next :: rest) := by
  have visible : entry.token.node ≠ .endOfFile := by
    intro ended
    rw [ended] at named
    cases named
  change (if entry.token.node = .endOfFile then _ else _ : Reader (Located String)).run _ = _
  rw [if_neg visible]
  simp only [named]
  rfl

/-- A token that may be missing is the next one, or another one is. -/
theorem skip_ran {mark : Token} {found : Option (Located Token)}
    (ran : (Reader.skip? mark).run cursor = .ok found left) :
    (∃ entry next rest, cursor = entry :: next :: rest ∧ entry.token.node = mark ∧
        found = some entry.token ∧ left = next :: rest) ∨
      ∃ entry rest, cursor = entry :: rest ∧ entry.token.node ≠ mark ∧
        entry.token.node ≠ .endOfFile ∧ found = none ∧ left = cursor := by
  obtain ⟨seen, before, looked, taken⟩ := Reader.run_bind ran
  by_cases equal : seen.node = mark
  · rw [if_pos equal] at taken
    obtain ⟨token, after, handed, ended⟩ := Reader.run_bind taken
    match cursor, looked with
    | [], looked =>
        cases looked
        cases handed
    | [entry], looked =>
        cases looked
        cases handed
    | entry :: next :: rest, looked =>
        cases looked
        cases handed
        cases ended
        exact .inl ⟨entry, next, rest, rfl, equal, rfl, rfl⟩
  · rw [if_neg equal] at taken
    by_cases visible : seen.node = .endOfFile
    · rw [if_pos visible] at taken
      cases taken
    · rw [if_neg visible] at taken
      cases taken
      match cursor, looked with
      | [], looked =>
          cases looked
          exact absurd rfl visible
      | entry :: rest, looked =>
          cases looked
          exact .inr ⟨entry, rest, rfl, equal, visible, rfl, rfl⟩

theorem skip_run {mark : Token} {entry : Entry} (same : entry.token.node = mark) (next : Entry)
    (rest : Cursor) :
    (Reader.skip? mark).run (entry :: next :: rest) = .ok (some entry.token) (next :: rest) := by
  change (if entry.token.node = mark then _ else _ : Reader (Option (Located Token))).run _ = _
  rw [if_pos same]
  rfl

theorem skip_run_other {mark : Token} {entry : Entry} (other : entry.token.node ≠ mark)
    (visible : entry.token.node ≠ .endOfFile) (rest : Cursor) :
    (Reader.skip? mark).run (entry :: rest) = .ok none (entry :: rest) := by
  change (if entry.token.node = mark then _ else _ : Reader (Option (Located Token))).run _ = _
  rw [if_neg other, if_neg visible]
  rfl

/-- The description in front of a directive does not matter to it. -/
theorem directive_run_token {entry other : Entry} (same : entry.token = other.token)
    {found : Located Directive} (ran : Reader.directive.run (entry :: cursor) = .ok found left) :
    Reader.directive.run (other :: cursor) = .ok found left := by
  obtain ⟨mark, before, begun, ended⟩ := Reader.run_bind ran
  obtain ⟨_, next, rest, here, marked, rfl, rfl⟩ := expect_ran begun
  obtain ⟨rfl, rfl⟩ := List.cons.inj here
  have begins := expect_run (same ▸ marked) next rest
  rw [same] at ended
  change EStateM.bind (Reader.expect _) _ _ = _
  change Reader.expect _ _ = _ at begins
  rw [EStateM.bind, begins]
  exact ended

theorem directive_at {found : Located Directive}
    (ran : Reader.directive.run cursor = .ok found left) :
    ∃ entry rest, cursor = entry :: rest ∧ entry.token.node = .punctuator .at := by
  obtain ⟨mark, before, begun, -⟩ := Reader.run_bind ran
  obtain ⟨entry, next, rest, rfl, marked, -⟩ := expect_ran begun
  exact ⟨entry, next :: rest, rfl, marked⟩

variable {lists others : List NameList}

theorem DirectivesListed.here (cursor : Cursor) : DirectivesListed cursor cursor [] :=
  fun _ place shorter => absurd place.length_le (Nat.not_le.mpr shorter)

/-- A token that begins no directive. -/
theorem DirectivesListed.one {entry : Entry} (other : entry.token.node ≠ .punctuator .at)
    (rest : Cursor) : DirectivesListed (entry :: rest) rest [] := by
  intro place among longer found after ran
  rcases List.suffix_cons_iff.mp among with rfl | inside
  · obtain ⟨_, _, same, marked⟩ := directive_at ran
    cases same
    exact absurd marked other
  · exact absurd inside.length_le (Nat.not_le.mpr longer)

theorem DirectivesListed.trans (past : Cursor.Past taken cursor middle)
    (first : DirectivesListed cursor middle lists) (second : DirectivesListed middle left others) :
    DirectivesListed cursor left (lists ++ others) := by
  intro place among longer found after ran list inside
  by_cases early : middle.length < place.length
  · exact List.mem_append_left _ (first place among early found after ran list inside)
  · apply List.mem_append_right
    obtain ⟨front, rest, rfl, -, same, behind⟩ := past.split
    have lengths : middle.length = rest.length := by
      simpa [Cursor.tokens] using congrArg List.length same
    have there : place <:+ rest :=
      List.suffix_of_suffix_length_le among (List.suffix_append _ _)
        (lengths ▸ Nat.not_lt.mp early)
    cases rest with
    | nil =>
        rw [List.suffix_nil.mp there] at longer
        cases longer
    | cons entry rest =>
        cases middle with
        | nil => cases lengths
        | cons kept middle =>
            obtain rfl : middle = rest := behind
            have token : kept.token = entry.token := (List.cons.inj same).1
            rcases List.suffix_cons_iff.mp there with rfl | inner
            · exact second (kept :: middle) List.suffix_rfl longer found after
                (directive_run_token token.symm ran) list inside
            · exact second place (inner.trans (List.suffix_cons _ _)) longer found after ran list
                inside

end Cursors

namespace Reader

variable {β : Type}

/-- What a look sees, an end token standing in where there is nothing. -/
def ahead? (cursor : Cursor) : Token := (cursor.tokens.head?.map (·.node)).getD .endOfFile

theorem sees_run {mark : Token} {next : Bool → Reader β} (cursor : Cursor) :
    (Reader.sees mark >>= next).run cursor = (next (decide (ahead? cursor = mark))).run cursor := by
  cases cursor <;> rfl

end Reader

end GraphQL
