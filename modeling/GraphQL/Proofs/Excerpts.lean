import GraphQL.Proofs.SourceLines
import GraphQL.Proofs.TokenPlaces

/-!
Excerpts underline what they are about.

The line on which a token or a fault stands is shown behind its number, between up to two lines
before it and up to two after it, and carets stand exactly below what is covered. It is so wherever
the lines up to there end as they are counted, in line feeds or in carriage returns before them.
-/

namespace GraphQL

/-- A line behind its number. -/
def numberedRow (width number : Nat) (line : List Char) : String :=
  padNumber width number ++ "|" ++ String.ofList line

/-- Lines each behind its own number. -/
def numberedRows (width first : Nat) (lines : List (List Char)) : List String :=
  (lines.zipIdx first).map fun entry => numberedRow width entry.2 entry.1

/-- Carets below a text, at least one, and blanks below all that is in front of it in its row. -/
def caretRow (front : String) (covered : List Char) : String :=
  String.ofList (List.replicate front.length ' ' ++ List.replicate (max 1 covered.length) '^')

/-- A line with carets below a part of it, and the numbered lines before and after it. -/
def excerptAround (number : Nat) (front : List (List Char)) (lead covered trail : List Char)
    (back : List (List Char)) : String :=
  let width := (Nat.toDigits 10 (number + back.length)).length
  String.intercalate "\n" (numberedRows width (number - front.length) front ++
    [numberedRow width number (lead ++ (covered ++ trail)),
      caretRow (numberedRow width number lead) covered] ++
    numberedRows width (number + 1) back)

/-- A span covers a text that is part of one line of a source. -/
structure Span.Covers (span : Span) (source before covered after : List Char) : Prop where
  whole : source = before ++ (covered ++ after)
  placed : span = ⟨.behind before, .behind (before ++ covered)⟩
  line : OneLine covered
  apart : ¬ SplitsTerminator before (covered ++ after)

section Rows

variable {span : Span} {width first : Nat} {lines : List (List Char)}

theorem excerpt_lines_append (span : Span) (width first : Nat) (lines more : List (List Char)) :
    span.excerptLines width first (lines ++ more) =
      span.excerptLines width first lines ++
        span.excerptLines width (first + lines.length) more := by
  induction lines generalizing first with
  | nil => rfl
  | cons line rest ih =>
      rw [List.cons_append, Span.excerptLines, Span.excerptLines, ih, List.append_assoc,
        List.length_cons, Nat.add_right_comm first 1, Nat.add_assoc first]

/-- Lines that a span does not touch are shown without carets. -/
theorem excerpt_lines_beside
    (beside : span.stop.line < first ∨ first + lines.length ≤ span.start.line) :
    span.excerptLines width first lines = numberedRows width first lines := by
  induction lines generalizing first with
  | nil => rfl
  | cons line rest ih =>
      rw [List.length_cons] at beside
      have untouched : ¬ (span.start.line ≤ first ∧ first ≤ span.stop.line) := by omega
      rw [Span.excerptLines, Span.excerptLine, if_neg untouched, ih (by omega)]
      rfl

/-- Around an item, up to two before it and up to two after it. -/
theorem window_around {α : Type} (head tail : List α) (item : α) :
    ((head ++ item :: tail).drop (head.length - 2)).take
        ((head.rtake 2).length + ((tail.take 2).length + 1)) =
      head.rtake 2 ++ item :: tail.take 2 := by
  have behind : tail.take (tail.take 2).length = tail.take 2 :=
    (List.prefix_iff_eq_take.mp (List.take_prefix 2 tail)).symm
  rw [List.drop_append_of_le_length (Nat.sub_le _ _), ← List.rtake, List.take_length_add_append,
    List.take_succ_cons, behind]

theorem take_through {α : Type} {list : List α} {count : Nat} {item : α} (some_item : 0 < count)
    (last : list[count - 1]? = some item) : list.take count = list.take (count - 1) ++ [item] := by
  obtain ⟨fewer, rfl⟩ := Nat.exists_eq_add_one.mpr some_item
  rw [Nat.add_sub_cancel] at last ⊢
  rw [List.take_add_one, last]
  rfl

theorem digits_length_mono {m n : Nat} (less : m ≤ n) :
    (Nat.toDigits 10 m).length ≤ (Nat.toDigits 10 n).length := by
  have filled : 0 < (Nat.toDigits 10 n).length := Nat.length_toDigits_pos
  rw [Nat.length_toDigits_le_iff (by decide) filled]
  exact less.trans_lt ((Nat.length_toDigits_le_iff (by decide) filled).mp le_rfl)

theorem numbered_row_length {number : Nat} (fits : (Nat.toDigits 10 number).length ≤ width)
    (line : List Char) : (numberedRow width number line).length = width + 1 + line.length := by
  have bar : "|".length = 1 := rfl
  simp [numberedRow, padNumber, bar]
  omega

end Rows

section Covering

variable {span : Span} {source before covered after : List Char}

namespace Span.Covers

variable (covers : span.Covers source before covered after)

include covers

theorem start_line : span.start.line = lineTerminators before + 1 := by rw [covers.placed]; rfl

theorem stop_line : span.stop.line = span.start.line := by
  have stop : span.stop.line = lineTerminators (before ++ covered) + 1 := by
    rw [covers.placed]
    rfl
  rw [stop, covers.start_line, covers.line.line_terminators_append]

/-- A covered text has a line of its source to itself and to what is around it there. -/
theorem line_shown : (countedLines source)[span.start.line - 1]? =
    some (lineBefore before ++ (covered ++ lineBehind after)) := by
  rw [covers.start_line, Nat.add_sub_cancel, covers.whole, counted_line_at covers.apart,
    covers.line.line_behind_append]

/-- The carets of a span are below what it covers. -/
theorem carets_below {width : Nat} (fits : (Nat.toDigits 10 span.start.line).length ≤ width) :
    span.carets width =
      caretRow (numberedRow width span.start.line (lineBefore before)) covered := by
  have start : span.start.column = (lineBefore before).length + 1 := by rw [covers.placed]; rfl
  have stop : span.stop.column = (lineBefore before).length + covered.length + 1 := by
    rw [← List.length_append, ← covers.line.line_before_append, covers.placed]
    rfl
  have blanks : span.start.column + width =
      (numberedRow width span.start.line (lineBefore before)).length := by
    rw [numbered_row_length fits, start]
    omega
  have marks : span.stop.column - span.start.column = covered.length := by omega
  rw [Span.carets, blanks, marks, caretRow]

/-- What an excerpt is made of, as its source is cut into lines. -/
theorem excerpt_around {head tail : List (List Char)}
    (cut : (splitLines source).map dropReturn =
      head ++ (lineBefore before ++ (covered ++ lineBehind after)) :: tail)
    (counted : head.length = lineTerminators before) :
    span.excerpt (String.ofList source) =
      excerptAround span.start.line (head.rtake 2) (lineBefore before) covered (lineBehind after)
        (tail.take 2) := by
  have start := covers.start_line
  have lines : ((splitLines source).map dropReturn).length = span.start.line + tail.length := by
    rw [cut, List.length_append, List.length_cons]
    omega
  have front : (head.rtake 2).length = min 2 (span.start.line - 1) := by
    rw [List.rtake, List.length_drop]
    omega
  have first : max 1 (span.start.line - 2) = span.start.line - (head.rtake 2).length := by omega
  have last : min (span.start.line + 2) (span.start.line + tail.length) =
      span.start.line + (tail.take 2).length := by
    rw [List.length_take]
    omega
  have dropped : span.start.line - (head.rtake 2).length - 1 = head.length - 2 := by omega
  have taken : span.start.line + (tail.take 2).length -
      (span.start.line - (head.rtake 2).length) + 1 =
        (head.rtake 2).length + ((tail.take 2).length + 1) := by omega
  have own : span.start.line - (head.rtake 2).length + (head.rtake 2).length = span.start.line := by
    omega
  have stop := covers.stop_line
  have touched : span.start.line ≤ span.start.line ∧ span.start.line ≤ span.stop.line :=
    ⟨le_rfl, stop.ge⟩
  have fits := digits_length_mono (Nat.le_add_right span.start.line (tail.take 2).length)
  rw [Span.excerpt, String.toList_ofList]
  dsimp only
  rw [lines, first, last, if_neg (by omega), cut, dropped, taken, window_around, excerpt_lines_append,
    excerpt_lines_beside (.inr (by omega)), own, Span.excerptLines, Span.excerptLine,
    if_pos touched, excerpt_lines_beside (.inl (by omega)), covers.carets_below fits,
    excerptAround, List.append_assoc]
  rfl

end Span.Covers

end Covering

/--
An excerpt shows the line of a span behind its number, with carets below what the span covers, and
the lines around it behind theirs.
-/
structure Span.Underlines (span : Span) (source : String) (before covered after : List Char)
    (back : List (List Char)) : Prop where
  line : (countedLines source.toList)[span.start.line - 1]? =
    some (lineBefore before ++ (covered ++ lineBehind after))
  picture : span.excerpt source = excerptAround span.start.line
    (((countedLines source.toList).take (span.start.line - 1)).rtake 2) (lineBefore before) covered
    (lineBehind after) back
  few : back.length ≤ 2
  next : FeedsFollow source.toList (span.start.line + 2) →
    back = ((countedLines source.toList).drop span.start.line).take 2

/-- A span covers a text in a source, and its excerpt shows so if lines up to there are alike. -/
def Span.Shows (span : Span) (source : String) (covered : List Char) : Prop :=
  ∃ before after, span.Covers source.toList before covered after ∧
    (FeedsFollow source.toList span.start.line →
      ∃ back, span.Underlines source before covered after back)

/-- The text of a token in its source, where the end has none. -/
def Token.written (token : Token) : List Char :=
  if token = .endOfFile then [] else token.text.toList

section Shown

variable {span : Span} {source : String} {before covered after : List Char}

theorem Span.Covers.underlines (covers : span.Covers source.toList before covered after)
    (follow : FeedsFollow source.toList span.start.line) :
    ∃ back, span.Underlines source before covered after back := by
  have start := covers.start_line
  have line := covers.line_shown
  have alike := split_lines_counted follow
  generalize shown : (splitLines source.toList).map dropReturn = lines at alike
  have present := (List.getElem?_eq_some_iff.mp line).1
  have counted : ((countedLines source.toList).take (span.start.line - 1)).length =
      lineTerminators before := by
    rw [List.length_take]
    omega
  have cut : (splitLines source.toList).map dropReturn =
      (countedLines source.toList).take (span.start.line - 1) ++
        (lineBefore before ++ (covered ++ lineBehind after)) :: lines.drop span.start.line := by
    have last := take_through (show 0 < span.start.line by omega) line
    calc
      _ = lines.take span.start.line ++ lines.drop span.start.line := by
        rw [shown, List.take_append_drop]
      _ = _ := by rw [alike, last, List.append_assoc, List.singleton_append]
  have picture := covers.excerpt_around cut counted
  rw [String.ofList_toList] at picture
  refine ⟨_, line, picture, List.length_take_le _ _, fun more => ?_⟩
  have later := split_lines_counted more
  rw [shown] at later
  rw [List.take_drop, List.take_drop, later]

end Shown

section Tokens

variable {before text : List Char} {tokens : List (Located Token)} {fault : Option (Located LexError)}

/-- Tokens and faults cover parts of single lines: tokens their texts, and faults nothing. -/
theorem Scanned.covers (scanned : Scanned before text tokens fault) :
    (∀ token ∈ tokens, ∃ front back,
      token.span.Covers (before ++ text) front token.node.written back) ∧
    ∀ found ∈ fault, ∃ front back, found.span.Covers (before ++ text) front [] back := by
  induction scanned with
  | @ended before space last =>
      refine ⟨List.forall_mem_singleton.mpr ⟨before ++ space, [], ?_⟩, fun _ absent => by cases absent⟩
      exact ⟨by simp [Token.written], by simp [Token.written, Span.point], one_line_nothing,
        fun split => by cases split.2⟩
  | @faulty before space skipped left error between one begins =>
      refine ⟨List.forall_mem_nil _, fun found same => ⟨before ++ (space ++ skipped), left, ?_⟩⟩
      cases same
      exact ⟨by simp, by simp [Span.point], one_line_nothing,
        @skipped_whole before space _ _ one begins⟩
  | @token before space token left tokens fault between one filled visible others ih =>
      have source : before ++ (space ++ token.text.toList) ++ left =
          before ++ (space ++ (token.text.toList ++ left)) := by simp
      rw [source] at ih
      refine ⟨List.forall_mem_cons.mpr ⟨⟨before ++ space, left, ?_⟩, ih.1⟩, ih.2⟩
      have written : token.written = token.text.toList := if_neg visible
      rw [written]
      exact ⟨by simp, by simp, one, one.whole_behind filled⟩

/-- All tokens and faults of a source are shown where they are. -/
theorem tokens_shown (source : String) :
    (∀ token ∈ (TokenStream.ofSource source).tokens,
      token.span.Shows source token.node.written) ∧
    ∀ fault ∈ (TokenStream.ofSource source).fault, fault.span.Shows source [] := by
  have scanned : Scanned [] source.toList (TokenStream.ofSource source).tokens
      (TokenStream.ofSource source).fault :=
    scan_from_scanned (by simp) (Nat.lt_succ_self _)
  obtain ⟨each, last⟩ := scanned.covers
  rw [List.nil_append] at each last
  have shows {span : Span} {covered : List Char}
      (covers : ∃ front back, span.Covers source.toList front covered back) :
      span.Shows source covered := by
    obtain ⟨front, back, covers⟩ := covers
    exact ⟨front, back, covers, covers.underlines⟩
  exact ⟨fun token member => shows (each token member), fun fault same => shows (last fault same)⟩

end Tokens

end GraphQL
