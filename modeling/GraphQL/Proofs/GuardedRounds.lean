import GraphQL.Proofs.CursorMoves
import Mathlib.Logic.Function.Iterate

/-!
Recursions that end because each round takes a token first.

A round of a recursion is a reader with a gap, which stands for the rounds that follow. Where the gap
is reached behind a token only, a cursor of some tokens gets through no more rounds than that: what
fills the gap of the last one is never asked. So a recursion that is counted by the tokens ahead does
the same as one that is not counted at all.
-/

namespace GraphQL

/--
A reader with a gap, made of operations. The gap is reached behind at least so many tokens, and the
reader takes at least so many if whatever fills the gap takes its own.
-/
inductive Round {γ : Type} (inner : Nat) :
    {α : Type} → Nat → Nat → (Reader γ → Reader α) → Prop where
  | closed {α : Type} {behind least : Nat} {reader : Reader α} (operates : Operates least reader) :
      Round inner behind least fun _ => reader
  | gap : Round inner 0 inner fun hole => hole
  | bind {α β : Type} {behind least more : Nat} {first : Reader γ → Reader α}
      {continued : Reader γ → α → Reader β} (before : Round inner behind least first)
      (after : ∀ value, Round inner (behind - least) more fun hole => continued hole value) :
      Round inner behind (least + more) fun hole => first hole >>= continued hole
  | counted {α : Type} {behind least : Nat} {reader : Reader γ → Cursor → Reader α}
      (each : ∀ cursor, Round inner behind least fun hole => reader hole cursor)
      (blind : ∀ hole (cursor other : Cursor), cursor.length = other.length →
        reader hole cursor = reader hole other) :
      Round inner behind least fun hole => get >>= reader hole
  /-- A token that may be missing counts where it is not. -/
  | skip {β : Type} {behind least : Nat} {mark : Token}
      {continued : Reader γ → Option (Located Token) → Reader β}
      (taken : ∀ token, Round inner (behind - 1) least fun hole => continued hole (some token))
      (missing : Round inner behind least fun hole => continued hole none) :
      Round inner behind least fun hole => Reader.skip? mark >>= continued hole
  | mono {α : Type} {behind farther least more : Nat} {round : Reader γ → Reader α}
      (made : Round inner farther more round) (nearer : behind ≤ farther) (fewer : least ≤ more) :
      Round inner behind least round

/-- Two readers do the same on cursors that hold at most so many tokens. -/
def AgreeUpTo {α : Type} (tokens : Nat) (reader other : Reader α) : Prop :=
  ∀ cursor : Cursor, cursor ≠ [] → cursor.length ≤ tokens → reader.run cursor = other.run cursor

namespace AgreeUpTo

variable {α β : Type} {tokens fewer least : Nat}

theorem mono {reader other : Reader α} (alike : AgreeUpTo tokens reader other)
    (short : fewer ≤ tokens) : AgreeUpTo fewer reader other :=
  fun cursor filled inside => alike cursor filled (inside.trans short)

/-- Behind tokens that were taken, readers have to agree on what is left only. -/
theorem bind {reader other : Reader α} {continued twin : α → Reader β}
    (first : AgreeUpTo tokens reader other) (moves : reader.Moves least)
    (behind : ∀ value, AgreeUpTo (tokens - least) (continued value) (twin value)) :
    AgreeUpTo tokens (reader >>= continued) (other >>= twin) := by
  intro cursor filled short
  have same := first cursor filled short
  cases ran : reader.run cursor with
  | ok value left =>
      have passed := moves.succeeds cursor value left filled ran
      have shorter : left.length ≤ tokens - least := by
        have taken := passed.fewer
        omega
      rw [Reader.run_ok_bind ran, Reader.run_ok_bind (same.symm.trans ran)]
      exact behind value left passed.filled shorter
  | error error left =>
      rw [Reader.run_error_bind ran, Reader.run_error_bind (same.symm.trans ran)]

/-- Behind a token that was there, readers have to agree on what is left only. -/
theorem skip {mark : Token} {continued twin : Option (Located Token) → Reader β}
    (taken : ∀ token, AgreeUpTo (tokens - 1) (continued (some token)) (twin (some token)))
    (missing : AgreeUpTo tokens (continued none) (twin none)) :
    AgreeUpTo tokens (Reader.skip? mark >>= continued) (Reader.skip? mark >>= twin) := by
  intro cursor filled short
  cases ran : (Reader.skip? mark).run cursor with
  | ok found left =>
      rw [Reader.run_ok_bind ran, Reader.run_ok_bind ran]
      obtain ⟨entry, next, rest, rfl, -, rfl, rfl⟩ | ⟨_, _, -, -, -, rfl, rfl⟩ := skip_ran ran
      · exact taken _ _ (List.cons_ne_nil _ _) (Nat.le_sub_of_add_le short)
      · exact missing _ filled short
  | error error left => rw [Reader.run_error_bind ran, Reader.run_error_bind ran]

end AgreeUpTo

namespace Round

variable {α β γ : Type} {inner behind least more : Nat}

/-- A round that is filled with a reader made of operations is made of operations. -/
theorem fill {round : Reader γ → Reader α} (made : Round inner behind least round)
    {hole : Reader γ} (operates : Operates inner hole) : Operates least (round hole) := by
  induction made with
  | closed own => exact own
  | gap => exact operates
  | bind _ _ before after => exact .bind before after
  | counted _ blind each => exact .counted each (blind hole)
  | skip _ _ taken missing =>
      refine (Operates.skip _).look fun found => ?_
      cases found with
      | none => exact missing
      | some token => exact taken token
  | mono _ _ fewer ih => exact ih.mono fewer

/-- What agrees on short cursors may be put into the gap for longer ones. -/
theorem agree {round : Reader γ → Reader α} (made : Round inner behind least round)
    {hole other : Reader γ} (operates : Operates inner hole) {tokens : Nat}
    (alike : AgreeUpTo tokens hole other) :
    AgreeUpTo (tokens + behind) (round hole) (round other) := by
  induction made with
  | closed => exact fun _ _ _ => rfl
  | gap => exact alike
  | bind before _ first second =>
      refine first.bind (before.fill operates).moves fun value => (second value).mono ?_
      omega
  | counted _ _ each => exact fun cursor filled short => each cursor cursor filled short
  | skip _ _ taken missing =>
      refine .skip (fun token => (taken token).mono ?_) missing
      omega
  | mono _ nearer _ ih => exact ih.mono (Nat.add_le_add_left nearer _)

section Making

variable {first : Reader α} {entered : Reader γ → Reader α} {continued : Reader γ → α → Reader β}

theorem look (before : Operates least first)
    (after : ∀ value, Round inner behind more fun hole => continued hole value) :
    Round inner behind more fun hole => first >>= continued hole :=
  .mono (.bind (.closed before.any) after) le_rfl (Nat.zero_add _).ge

/-- Behind a token the gap is nearer. -/
theorem take (before : Operates 1 first)
    (after : ∀ value, Round inner (behind - 1) 0 fun hole => continued hole value) :
    Round inner behind 1 fun hole => first >>= continued hole :=
  .bind (.closed before) after

/-- Both of two readers in a row may have the gap. -/
theorem both (before : Round inner behind least entered)
    (after : ∀ value, Round inner behind 0 fun hole => continued hole value) :
    Round inner behind 0 fun hole => entered hole >>= continued hole :=
  .mono (.bind before fun value => (after value).mono (Nat.sub_le _ _) le_rfl) le_rfl
    (Nat.zero_le _)

/-- What comes behind the last gap does not matter. -/
theorem finish {finished : α → Reader β} (made : Round inner behind least entered)
    (after : ∀ value, Operates 0 (finished value)) :
    Round inner behind least fun hole => entered hole >>= finished :=
  @Round.bind γ inner α β behind least 0 entered (fun _ => finished) made fun value =>
    .closed (after value)

theorem branch {condition : Prop} [Decidable condition] {yes no : Reader γ → Reader α}
    (holds : Round inner behind least yes) (fails : Round inner behind least no) :
    Round inner behind least fun hole => if condition then yes hole else no hole := by
  by_cases met : condition
  · simpa only [if_pos met] using holds
  · simpa only [if_neg met] using fails

theorem items_until (closing : Token) (item : Round inner behind least entered) (count : Nat) :
    Round inner behind 0 fun hole => Reader.itemsUntil closing (entered hole) count := by
  induction count with
  | zero => exact .closed (Operates.peek.look fun _ => .fail _ _)
  | succ count ih =>
      refine .skip (fun token => .closed (.pure _)) ?_
      exact item.both fun first => ih.finish fun ⟨_, _⟩ => .pure _

/-- The gap in the items of a list is behind the token that opens it. -/
theorem delimited (opening closing : Token) (item : Round inner (behind - 1) least entered) :
    Round inner behind 1 fun hole => Reader.delimited opening (entered hole) closing := by
  refine .take (.expect opening) fun start => ?_
  refine .counted (fun cursor => ?_) fun hole cursor other same => by rw [same]
  exact (item.items_until closing _).finish fun ⟨_, _⟩ => .pure _

theorem delimited_nonempty (opening closing : Token)
    (item : Round inner (behind - 1) least entered) :
    Round inner behind 1 fun hole => Reader.delimitedNonempty opening (entered hole) closing := by
  refine .take (.expect opening) fun start => ?_
  refine item.both fun first => ?_
  refine .counted (fun cursor => ?_) fun hole cursor other same => by rw [same]
  exact (item.items_until closing _).finish fun ⟨_, _⟩ => .pure _

end Making

end Round

namespace Operates

variable {α : Type} {item : Reader α}

theorem items_until (closing : Token) (each : Operates 0 item) (count : Nat) :
    Operates 0 (Reader.itemsUntil closing item count) :=
  (Round.items_until closing .gap count).fill each

theorem delimited (opening closing : Token) (each : Operates 0 item) :
    Operates 1 (Reader.delimited opening item closing) :=
  have made : Round 0 1 1 fun hole : Reader α => Reader.delimited opening hole closing :=
    .delimited opening closing .gap
  made.fill each

theorem delimited_nonempty (opening closing : Token) (each : Operates 0 item) :
    Operates 1 (Reader.delimitedNonempty opening item closing) :=
  have made : Round 0 1 1 fun hole : Reader α => Reader.delimitedNonempty opening hole closing :=
    .delimited_nonempty opening closing .gap
  made.fill each

end Operates

/-- The reader of a counted recursion that is counted by the tokens ahead. -/
def Reader.counted {α : Type} (within : Nat → Reader α) : Reader α := do
  within (← get).length

/-- A counted recursion the rounds of which reach their gap behind a token. -/
structure Recursion {α : Type} (inner : Nat) (round : Reader α → Reader α)
    (within : Nat → Reader α) : Prop where
  unrolled : ∀ count, within (count + 1) = round (within count)
  starts : Operates inner (within 0)
  guarded : Round inner 1 inner round

namespace Recursion

variable {α : Type} {inner : Nat} {round : Reader α → Reader α} {within : Nat → Reader α}
  (recursion : Recursion inner round within)

include recursion

theorem operates (count : Nat) : Operates inner (within count) := by
  induction count with
  | zero => exact recursion.starts
  | succ count ih =>
      rw [recursion.unrolled]
      exact recursion.guarded.fill ih

theorem counted : Operates inner (Reader.counted within) :=
  .counted (fun _ => recursion.operates _) fun _ _ same => by rw [same]

/-- As many rounds as there are tokens do what the counted recursion does, whatever stands behind. -/
theorem agree (beyond : Reader α) (count : Nat) :
    AgreeUpTo count (within count) (round^[count] beyond) := by
  induction count with
  | zero =>
      intro cursor filled short
      exact absurd (List.length_eq_zero_iff.mp (Nat.le_zero.mp short)) filled
  | succ count ih =>
      rw [recursion.unrolled, Function.iterate_succ_apply']
      exact recursion.guarded.agree (recursion.operates count) ih

/-- Further rounds are never asked. -/
theorem ends {cursor : Cursor} (filled : cursor ≠ []) {steps : Nat}
    (enough : cursor.length ≤ steps) (beyond : Reader α) :
    (round^[steps] beyond).run cursor = (Reader.counted within).run cursor := by
  obtain ⟨more, rfl⟩ := Nat.exists_eq_add_of_le enough
  rw [Function.iterate_add_apply]
  exact (recursion.agree _ cursor.length cursor filled le_rfl).symm

/-- Counted by the tokens ahead, the recursion solves the equation of the uncounted one. -/
theorem solves {cursor : Cursor} (filled : cursor ≠ []) :
    (round (Reader.counted within)).run cursor = (Reader.counted within).run cursor := by
  obtain ⟨count, counted⟩ := Nat.exists_eq_add_one.mpr (List.length_pos_of_ne_nil filled)
  have within_counted : AgreeUpTo count (within count) (Reader.counted within) := by
    intro shorter present short
    rw [recursion.agree (within 0) count shorter present short]
    exact recursion.ends present short (within 0)
  have rounds := recursion.guarded.agree (recursion.operates count) within_counted
  rw [← rounds cursor filled counted.le, ← recursion.unrolled, ← counted]
  rfl

end Recursion

end GraphQL
