import GraphQL.Token.Stream
import Mathlib.Data.List.DropRight

/-!
Positions as their byte offsets determine them.

A position is counted on while a text is passed over. It can also be told from its byte offset alone,
by the line terminators in front of it and by the characters since the last of them. Both agree
wherever the text is not cut inside of a line terminator.
-/

namespace GraphQL

def byteLength : List Char → Nat
  | [] => 0
  | c :: rest => c.utf8Size + byteLength rest

/-- The line terminators of a text, a carriage return and the line feed behind it being one. -/
def lineTerminators : List Char → Nat
  | [] => 0
  | '\r' :: '\n' :: rest => lineTerminators rest + 1
  | c :: rest => if isLineEnd c then lineTerminators rest + 1 else lineTerminators rest

/-- The position behind a text, counted from the text. -/
def Position.behind (text : List Char) : Position where
  index := byteLength text
  line := lineTerminators text + 1
  column := (text.rtakeWhile fun c => !isLineEnd c).length + 1

/-- A text is cut between a carriage return and its line feed. -/
def SplitsTerminator (before after : List Char) : Prop :=
  before.getLast? = some '\r' ∧ after.head? = some '\n'

instance (before after : List Char) : Decidable (SplitsTerminator before after) :=
  inferInstanceAs (Decidable (_ ∧ _))

/-- The position at a byte offset; there is none inside of a character or of a line terminator. -/
def Position.ofOffset? (source : List Char) (offset : Nat) : Option Position :=
  match splitBytes? offset source with
  | none => none
  | some (before, after) => if SplitsTerminator before after then none else some (.behind before)

section Offsets

theorem byte_length_append (first second : List Char) :
    byteLength (first ++ second) = byteLength first + byteLength second := by
  induction first with
  | nil => simp [byteLength]
  | cons c rest ih => simp [byteLength, ih, Nat.add_assoc]

/-- Cutting off as many bytes as a text has cuts off the text. -/
theorem split_bytes_append (before after : List Char) :
    splitBytes? (byteLength before) (before ++ after) = some (before, after) := by
  induction before with
  | nil => simp [byteLength, splitBytes?]
  | cons c rest ih =>
      have positive := c.utf8Size_pos
      obtain ⟨less, same⟩ := Nat.exists_eq_add_one.mpr
        (show 0 < byteLength (c :: rest) by simp [byteLength]; omega)
      have bytes : less + 1 - c.utf8Size = byteLength rest := by
        simp [byteLength] at same ⊢
        omega
      have fits : ¬ less + 1 < c.utf8Size := by
        simp [byteLength] at same
        omega
      rw [same, List.cons_append, splitBytes?, if_neg fits, bytes, ih]

theorem later_whole {c : Char} {rest second : List Char}
    (whole : ¬ SplitsTerminator (c :: rest) second) : ¬ SplitsTerminator rest second := by
  rintro ⟨last, next⟩
  exact whole ⟨by simp [List.getLast?_cons, last], next⟩

/-- A carriage return that no line feed follows has none behind it in a longer text either. -/
theorem still_single {c : Char} {rest second : List Char}
    (single : ∀ more, c = '\r' → rest = '\n' :: more → False)
    (whole : ¬ SplitsTerminator (c :: rest) second) :
    ∀ more, c = '\r' → rest ++ second = '\n' :: more → False := by
  intro more return_first feed
  cases rest with
  | nil =>
      refine whole ⟨by simp [return_first], ?_⟩
      rw [List.nil_append] at feed
      rw [feed]
      rfl
  | cons d others => exact single others return_first (by cases feed; rfl)

theorem line_terminators_append {first second : List Char}
    (whole : ¬ SplitsTerminator first second) :
    lineTerminators (first ++ second) = lineTerminators first + lineTerminators second := by
  fun_induction lineTerminators first with
  | case1 => simp
  | case2 rest ih =>
      have later := ih (later_whole (later_whole whole))
      simp only [List.cons_append, lineTerminators, later]
      omega
  | case3 c rest single ends ih =>
      rw [List.cons_append, lineTerminators, if_pos ends, ih (later_whole whole)]
      · omega
      · exact still_single single whole
  | case4 c rest single ends ih =>
      rw [List.cons_append, lineTerminators, if_neg ends, ih (later_whole whole)]
      exact still_single single whole

theorem behind_char (before : List Char) {c : Char} (inLine : isLineEnd c = false) :
    Position.behind (before ++ [c]) = (Position.behind before).pastChar c := by
  have whole : ¬ SplitsTerminator before [c] := by
    rintro ⟨-, next⟩
    cases next
    cases inLine
  have bytes : byteLength (before ++ [c]) = byteLength before + c.utf8Size := by
    rw [byte_length_append]
    rfl
  have none_ends : lineTerminators [c] = 0 := by
    rw [lineTerminators, inLine]
    · rfl
    · exact fun _ _ absent => by cases absent
  simp [Position.behind, Position.pastChar, line_terminators_append whole, none_ends, bytes,
    inLine]

/-- A line ends with its terminator, of one character or of two. -/
theorem behind_terminator {before terminator : List Char}
    (whole : ¬ SplitsTerminator before terminator)
    (one : terminator ∈ [['\n'], ['\r'], ['\r', '\n']]) :
    Position.behind (before ++ terminator) = (Position.behind before).pastLine terminator.length := by
  have lines := line_terminators_append whole
  simp only [List.mem_cons, List.not_mem_nil, or_false] at one
  have last : ∃ front c, terminator = front ++ [c] ∧ isLineEnd c = true := by
    rcases one with rfl | rfl | rfl
    · exact ⟨[], _, rfl, rfl⟩
    · exact ⟨[], _, rfl, rfl⟩
    · exact ⟨['\r'], _, rfl, rfl⟩
  have measures : byteLength terminator = terminator.length ∧ lineTerminators terminator = 1 := by
    rcases one with rfl | rfl | rfl <;> decide
  obtain ⟨front, c, same, ends⟩ := last
  have column : (before ++ terminator).rtakeWhile (fun c => !isLineEnd c) = [] := by
    rw [same, ← List.append_assoc, List.rtakeWhile_concat, ends]
    rfl
  simp only [Position.behind, Position.pastLine, byte_length_append, lines, measures, column]
  rfl

/-- Counting on over a text leads behind it. -/
theorem past_behind {before text : List Char} (whole : ¬ SplitsTerminator before text) :
    (Position.behind before).past text = .behind (before ++ text) := by
  generalize start : Position.behind before = p
  fun_induction Position.past p text generalizing before with
  | case1 p => rw [List.append_nil, start]
  | case2 p rest ih =>
      have step := @behind_terminator before ['\r', '\n'] (fun split => by cases split.2) (by simp)
      have later : ¬ SplitsTerminator (before ++ ['\r', '\n']) rest := by
        rintro ⟨last, -⟩
        simp at last
      rw [ih later (by rw [step, start]; rfl), List.append_assoc]
      rfl
  | case3 p c rest alone ends ih =>
      have first : ¬ SplitsTerminator before [c] := fun ⟨last, next⟩ => whole ⟨last, next⟩
      have step := @behind_terminator before [c] first (by rcases ends with rfl | rfl <;> simp)
      have later : ¬ SplitsTerminator (before ++ [c]) rest := by
        rintro ⟨last, next⟩
        cases rest with
        | nil => cases next
        | cons d others =>
            cases next
            rw [List.getLast?_concat] at last
            exact alone others (Option.some.inj last) rfl
      rw [ih later (by rw [step, start]; rfl), List.append_assoc]
      rfl
  | case4 p c rest alone ends ih =>
      have inLine : isLineEnd c = false := by simpa [isLineEnd] using ends
      have later : ¬ SplitsTerminator (before ++ [c]) rest := by
        rintro ⟨last, -⟩
        rw [List.getLast?_concat] at last
        exact ends (.inr (Option.some.inj last))
      rw [ih later (by rw [behind_char before inLine, start]), List.append_assoc]
      rfl

/-- The position behind a part of a source is the one at its byte offset. -/
theorem of_offset_behind {before after : List Char} (whole : ¬ SplitsTerminator before after) :
    Position.ofOffset? (before ++ after) (Position.behind before).index = some (.behind before) := by
  have cut := split_bytes_append before after
  simp [Position.ofOffset?, Position.behind, cut, whole]

/-- Between the positions around a text stands the text. -/
theorem slice_behind (before text after : List Char) {source : String}
    (same : source.toList = before ++ (text ++ after)) :
    Span.slice ⟨.behind before, .behind (before ++ text)⟩ source = String.ofList text := by
  have first := split_bytes_append before (text ++ after)
  have second := split_bytes_append text after
  have bytes := byte_length_append before text
  have width : byteLength (before ++ text) - byteLength before = byteLength text := by omega
  have forward : ¬ byteLength (before ++ text) < byteLength before := by omega
  simp only [Span.slice, Position.behind, if_neg forward, same, first, width, second]

end Offsets

/-- A text on one line. -/
def OneLine (text : List Char) : Prop := ∀ c ∈ text, isLineEnd c = false

section OneLine

variable {first second : List Char}

theorem one_line_nothing : OneLine [] := fun _ absent => by cases absent

theorem OneLine.append (one : OneLine first) (other : OneLine second) : OneLine (first ++ second) :=
  List.forall_mem_append.mpr ⟨one, other⟩

theorem OneLine.of_class {inClass : Char → Bool} (unended : inClass '\n' = false ∧ inClass '\r' = false)
    {run : List Char} (inside : ∀ c ∈ run, inClass c = true) : OneLine run := by
  intro c member
  have belongs := inside c member
  have no_feed : c ≠ '\n' := by
    rintro rfl
    rw [unended.1] at belongs
    cases belongs
  have no_return : c ≠ '\r' := by
    rintro rfl
    rw [unended.2] at belongs
    cases belongs
  simp [isLineEnd, no_feed, no_return]

/-- No part of a terminator begins what is on one line. -/
theorem OneLine.whole_behind (one : OneLine second) (filled : second ≠ []) {more : List Char} :
    ¬ SplitsTerminator first (second ++ more) := by
  obtain ⟨c, rest, rfl⟩ := List.exists_cons_of_ne_nil filled
  rintro ⟨-, next⟩
  cases next
  exact absurd (one _ List.mem_cons_self) (by decide)

theorem OneLine.complete {text : List Char} (one : OneLine text) (before : List Char)
    (filled : text ≠ []) : (before ++ text).getLast? ≠ some '\r' := by
  intro last
  rw [List.getLast?_append_of_ne_nil _ filled] at last
  exact absurd (one _ (List.mem_of_mem_getLast? last)) (by decide)

theorem past_one_line (before : List Char) {text : List Char} (one : OneLine text) :
    (Position.behind before).past text = .behind (before ++ text) := by
  refine past_behind ?_
  cases text with
  | nil => exact fun split => by cases split.2
  | cons c rest =>
      have whole := @OneLine.whole_behind before _ one (List.cons_ne_nil c rest) []
      rwa [List.append_nil] at whole

end OneLine

end GraphQL
