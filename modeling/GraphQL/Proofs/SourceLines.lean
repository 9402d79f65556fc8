import GraphQL.Proofs.SourceOffsets
import GraphQL.Text.Excerpt

/-!
The lines of a source, as positions count them and as excerpts show them.

A position is on a new line behind each terminator, be it a line feed, a carriage return or both.
Excerpts are cut at line feeds alone. The first lines of a source are the same either way if no
carriage return in them is without its line feed.
-/

namespace GraphQL

/-- The lines of a text as they are counted, without their terminators. -/
def countedLines : List Char → List (List Char)
  | [] => [[]]
  | '\r' :: '\n' :: rest => [] :: countedLines rest
  | c :: rest =>
      if isLineEnd c then [] :: countedLines rest else (countedLines rest).modifyHead (c :: ·)

/-- On the lines up to a number all carriage returns are followed by line feeds. -/
def FeedsFollow (text : List Char) (last : Nat) : Prop :=
  ∀ before after, text = before ++ '\r' :: after → lineTerminators before < last →
    after.head? = some '\n'

theorem feeds_follow_iff (text : List Char) (last : Nat) : FeedsFollow text last ↔
    ∀ n < text.length, (text.drop n).head? = some '\r' → lineTerminators (text.take n) < last →
      (text.drop (n + 1)).head? = some '\n' := by
  constructor
  · intro follow n _ here early
    obtain ⟨after, found⟩ := List.head?_eq_some_iff.mp here
    have behind : text.drop (n + 1) = after := by rw [← List.tail_drop, found, List.tail_cons]
    rw [behind]
    exact follow (text.take n) after (by rw [← found, List.take_append_drop]) early
  · rintro each before after rfl early
    have own := each before.length (by simp) (by simp) (by simpa using early)
    rwa [List.drop_length_add_append, List.drop_succ_cons, List.drop_zero] at own

instance (text : List Char) (last : Nat) : Decidable (FeedsFollow text last) :=
  decidable_of_iff _ (feeds_follow_iff text last).symm

/-- What a line has in front of a place, and what it has behind it. -/
def lineBefore (text : List Char) : List Char := text.rtakeWhile fun c => !isLineEnd c

def lineBehind (text : List Char) : List Char := text.takeWhile fun c => !isLineEnd c

section Counting

variable {c : Char} {rest text : List Char} {last : Nat}

theorem line_terminators_char (inLine : isLineEnd c = false) (rest : List Char) :
    lineTerminators (c :: rest) = lineTerminators rest := by
  rw [lineTerminators, inLine]
  · rfl
  · rintro _ rfl
    cases inLine

theorem counted_lines_char (inLine : isLineEnd c = false) (rest : List Char) :
    countedLines (c :: rest) = (countedLines rest).modifyHead (c :: ·) := by
  rw [countedLines, inLine]
  · rfl
  · rintro _ rfl
    cases inLine

theorem counted_lines_end (ends : isLineEnd c = true) (single : c = '\r' → rest.head? ≠ some '\n') :
    countedLines (c :: rest) = [] :: countedLines rest := by
  rw [countedLines, if_pos ends]
  rintro _ same rfl
  exact single same rfl

theorem line_terminators_end (ends : isLineEnd c = true)
    (single : c = '\r' → rest.head? ≠ some '\n') :
    lineTerminators (c :: rest) = lineTerminators rest + 1 := by
  rw [lineTerminators, if_pos ends]
  rintro _ same rfl
  exact single same rfl

/-- The first line lasts up to the first terminator. -/
theorem counted_lines_first (text : List Char) :
    ∃ lines, countedLines text = lineBehind text :: lines := by
  fun_induction countedLines text with
  | case1 => exact ⟨[], rfl⟩
  | case2 rest ih => exact ⟨_, rfl⟩
  | case3 c rest single ends ih => exact ⟨countedLines rest, by simp [lineBehind, ends]⟩
  | case4 c rest single ends ih =>
      obtain ⟨lines, same⟩ := ih
      exact ⟨lines, by simp [lineBehind, same, ends]⟩

theorem one_line_iff (text : List Char) : OneLine text ↔ lineTerminators text = 0 := by
  fun_induction lineTerminators text with
  | case1 => simp [OneLine]
  | case2 rest ih => simp [OneLine, isLineEnd]
  | case3 c rest single ends ih => simp [OneLine, ends]
  | case4 c rest single ends ih => rw [← ih]; simp [OneLine, ends]

theorem OneLine.line_before_append (one : OneLine text) (before : List Char) :
    lineBefore (before ++ text) = lineBefore before ++ text := by
  induction text using List.reverseRecOn with
  | nil => simp
  | append_singleton front c ih =>
      have inLine : isLineEnd c = false := one c (by simp)
      have own := ih fun d member => one d (List.mem_append_left _ member)
      rw [lineBefore] at own ⊢
      rw [← List.append_assoc, List.rtakeWhile_concat_pos _ _ _ (by simp [inLine]), own,
        List.append_assoc]

theorem OneLine.line_before (one : OneLine text) : lineBefore text = text :=
  one.line_before_append []

theorem OneLine.line_behind_append (one : OneLine text) (after : List Char) :
    lineBehind (text ++ after) = text ++ lineBehind after :=
  List.takeWhile_append_of_pos fun c member => by simp [one c member]

theorem OneLine.line_terminators_append (one : OneLine text) (before : List Char) :
    lineTerminators (before ++ text) = lineTerminators before := by
  have whole : ¬ SplitsTerminator before text := by
    cases text with
    | nil => exact fun split => by cases split.2
    | cons c rest => simpa using @OneLine.whole_behind before _ one (List.cons_ne_nil c rest) []
  rw [GraphQL.line_terminators_append whole, (one_line_iff text).mp one, Nat.add_zero]

/-- If there is more than one line, nothing of the first line is in front of the end. -/
theorem line_before_cons (several : ¬ OneLine (c :: rest)) :
    lineBefore (c :: rest) = lineBefore rest := by
  induction rest using List.reverseRecOn with
  | nil =>
      have ends : isLineEnd c = true := by simpa [OneLine] using several
      rw [lineBefore, ← List.nil_append [c], List.rtakeWhile_concat_neg _ _ _ (by simp [ends])]
      rfl
  | append_singleton front d ih =>
      rw [lineBefore, lineBefore, ← List.cons_append]
      by_cases inLine : isLineEnd d = false
      · have last : OneLine [d] := List.forall_mem_singleton.mpr inLine
        have before : ¬ OneLine (c :: front) := fun one => several (one.append last)
        rw [List.rtakeWhile_concat_pos _ _ _ (by simp [inLine]),
          List.rtakeWhile_concat_pos _ _ _ (by simp [inLine])]
        exact congrArg (· ++ [d]) (ih before)
      · rw [List.rtakeWhile_concat_neg _ _ _ (by simpa using inLine),
          List.rtakeWhile_concat_neg _ _ _ (by simpa using inLine)]

/-- The line of a place consists of what is in front of the place on it, and of what is behind. -/
theorem counted_line_at {before after : List Char} (whole : ¬ SplitsTerminator before after) :
    (countedLines (before ++ after))[lineTerminators before]? =
      some (lineBefore before ++ lineBehind after) := by
  fun_induction lineTerminators before with
  | case1 =>
      obtain ⟨lines, same⟩ := counted_lines_first after
      rw [List.nil_append, same]
      rfl
  | case2 rest ih =>
      have several (c : Char) : ¬ OneLine (c :: '\n' :: rest) := by simp [OneLine, isLineEnd]
      have several_feed : ¬ OneLine ('\n' :: rest) := by simp [OneLine, isLineEnd]
      rw [line_before_cons (several _), line_before_cons several_feed, List.cons_append,
        List.cons_append, countedLines, List.getElem?_cons_succ, ih (later_whole (later_whole whole))]
  | case3 c rest single ends ih =>
      have several : ¬ OneLine (c :: rest) := by simp [OneLine, ends]
      have still := still_single single whole
      rw [line_before_cons several, List.cons_append, counted_lines_end ends,
        List.getElem?_cons_succ, ih (later_whole whole)]
      intro same feed
      obtain ⟨more, fed⟩ := List.head?_eq_some_iff.mp feed
      exact still more same fed
  | case4 c rest single ends ih =>
      have inLine : isLineEnd c = false := Bool.eq_false_iff.mpr ends
      rw [List.cons_append, counted_lines_char inLine]
      have own := ih (later_whole whole)
      by_cases one : OneLine rest
      · have first : lineTerminators rest = 0 := (one_line_iff rest).mp one
        have all : OneLine (c :: rest) := List.forall_mem_cons.mpr ⟨inLine, one⟩
        rw [first] at own ⊢
        rw [one.line_before] at own
        rw [all.line_before, List.getElem?_modifyHead, own]
        rfl
      · have several : ¬ OneLine (c :: rest) := fun all => one (List.forall_mem_cons.mp all).2
        rw [line_before_cons several, ← own, List.getElem?_modifyHead,
          if_neg (mt (one_line_iff rest).mpr one)]

end Counting

section Showing

variable {c : Char} {rest text : List Char} {last : Nat}

/-- A character of a line is one of the first line. -/
theorem split_lines_char (kept : c ≠ '\n') (rest : List Char) :
    splitLines (c :: rest) = (splitLines rest).modifyHead (c :: ·) := by
  have some_line : splitLines rest ≠ [] := by
    cases rest with
    | nil => exact List.cons_ne_nil _ _
    | cons d others =>
        rw [splitLines]
        split
        · exact List.cons_ne_nil _ _
        · split <;> exact List.cons_ne_nil _ _
  obtain ⟨line, lines, same⟩ := List.exists_cons_of_ne_nil some_line
  rw [splitLines, if_neg kept, same]
  rfl

theorem drop_return_cons (kept : c ≠ '\r') (line : List Char) :
    dropReturn (c :: line) = c :: dropReturn line := by
  cases line with
  | nil => simp [dropReturn, kept]
  | cons d rest =>
      rw [dropReturn, dropReturn, List.getLast?_cons_cons]
      split
      · rw [List.dropLast_cons_cons]
      · rfl

theorem FeedsFollow.behind_char (follow : FeedsFollow (c :: rest) last)
    (inLine : isLineEnd c = false) : FeedsFollow rest last := by
  rintro before after rfl early
  exact follow (c :: before) after rfl (by rwa [line_terminators_char inLine])

theorem FeedsFollow.behind_feed (follow : FeedsFollow ('\n' :: rest) (last + 1)) :
    FeedsFollow rest last := by
  rintro before after rfl early
  refine follow ('\n' :: before) after rfl ?_
  rw [line_terminators_end rfl fun same => by cases same]
  omega

theorem FeedsFollow.behind_both (follow : FeedsFollow ('\r' :: '\n' :: rest) (last + 1)) :
    FeedsFollow rest last := by
  rintro before after rfl early
  refine follow ('\r' :: '\n' :: before) after rfl ?_
  rw [lineTerminators]
  omega

/-- The first lines are shown as they are counted, where line feeds follow on carriage returns. -/
theorem split_lines_counted (follow : FeedsFollow text last) :
    ((splitLines text).map dropReturn).take last = (countedLines text).take last := by
  fun_induction countedLines text generalizing last with
  | case1 => rfl
  | case2 rest ih =>
      cases last with
      | zero => rfl
      | succ last =>
          have later := ih follow.behind_both
          rw [split_lines_char (by decide), splitLines, if_pos rfl, List.modifyHead_cons,
            List.map_cons, List.take_succ_cons, List.take_succ_cons, later]
          rfl
  | case3 c rest single ends ih =>
      cases last with
      | zero => rfl
      | succ last =>
          have feed : c = '\n' := by
            rcases (by simpa [isLineEnd] using ends : c = '\n' ∨ c = '\r') with feed | alone
            · exact feed
            · subst alone
              obtain ⟨more, rfl⟩ := List.head?_eq_some_iff.mp
                (follow [] rest rfl (Nat.zero_lt_succ last))
              exact (single more rfl rfl).elim
          subst feed
          rw [splitLines, if_pos rfl, List.map_cons, List.take_succ_cons, List.take_succ_cons,
            ih follow.behind_feed]
          rfl
  | case4 c rest single ends ih =>
      have inLine : isLineEnd c = false := Bool.eq_false_iff.mpr ends
      have kept : c ≠ '\n' ∧ c ≠ '\r' := by simpa [isLineEnd] using inLine
      have later := ih (follow.behind_char inLine)
      rw [split_lines_char kept.1]
      cases last with
      | zero => rfl
      | succ last =>
          obtain ⟨first, lines, counted⟩ : ∃ first lines, countedLines rest = first :: lines :=
            ⟨_, counted_lines_first rest⟩
          rw [counted] at later ⊢
          cases shown : splitLines rest with
          | nil => rw [shown] at later; cases later
          | cons line others =>
              rw [shown, List.map_cons, List.take_succ_cons, List.take_succ_cons] at later
              obtain ⟨same, tail⟩ := List.cons.inj later
              rw [List.modifyHead_cons, List.modifyHead_cons, List.map_cons, List.take_succ_cons,
                List.take_succ_cons, drop_return_cons kept.2, same, tail]

end Showing

end GraphQL
