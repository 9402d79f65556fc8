import GraphQL.Introspection.Texts
import GraphQL.Proofs.SourceSpans

/-!
Texts that are put together with a line feed between them.

No token goes over the end of a line. So wherever the first text ends, behind it the second one is
cut into the tokens that it is cut into on its own.
-/

namespace GraphQL

/-- A text is cut into tokens without a fault; the last one is the end token. -/
inductive CutInto : List Char → List Token → Prop where
  | ended {text} (blank : (splitIgnored false text).2 = []) : CutInto text [.endOfFile]
  | token {text c tail token left tokens} (begins : (splitIgnored false text).2 = c :: tail)
      (scanned : scanToken c tail = .ok (token, left)) (others : CutInto left tokens) :
      CutInto text (token :: tokens)

/-- What is behind the layout in front of a token. -/
theorem split_ignored_comment {text tail : List Char} {c : Char}
    (begins : (splitIgnored false text).2 = c :: tail) : c = '#' → tail.head? = some '#' := by
  have passes := (split_ignored_passes text).1.2
  rw [begins] at passes
  cases passes with
  | token _ _ comment => exact comment

/-- Every token takes something of its text. -/
theorem token_shortens {text tail left : List Char} {c : Char} {token : Token}
    (begins : (splitIgnored false text).2 = c :: tail)
    (scanned : scanToken c tail = .ok (token, left)) : left.length < text.length := by
  obtain ⟨whole, -⟩ := (split_ignored_passes text).1
  have covers := scan_token_covers (split_ignored_comment begins)
  rw [scanned] at covers
  obtain ⟨spelled, ⟨-, filled, -⟩, same, -⟩ := covers
  have width := List.length_pos_iff.mpr filled
  rw [begins, same] at whole
  rw [← whole]
  simp only [List.length_append]
  omega

theorem scan_from_cut {count : Nat} {position : Position} {text : List Char}
    (enough : text.length < count)
    (complete : (TokenStream.scanFrom count position text).fault = none) :
    CutInto text ((TokenStream.scanFrom count position text).tokens.map (·.node)) := by
  induction count generalizing position text with
  | zero => omega
  | succ count ih =>
      rw [TokenStream.scanFrom] at complete ⊢
      cases begins : (splitIgnored false text).2 with
      | nil =>
          simp only [begins] at complete ⊢
          exact .ended begins
      | cons c tail =>
          simp only [begins] at complete ⊢
          cases scanned : scanToken c tail with
          | error fault => simp [scanned] at complete
          | ok result =>
              obtain ⟨token, left⟩ := result
              simp only [scanned] at complete ⊢
              have shorter := token_shortens begins scanned
              exact .token begins scanned (ih (by omega) complete)

theorem stream_cut {text : List Char} (complete : (TokenStream.ofText text).fault = none) :
    CutInto text ((TokenStream.ofText text).tokens.map (·.node)) :=
  scan_from_cut (Nat.lt_succ_self _) complete

/-- A text is cut into tokens in one way only. -/
theorem CutInto.unique {text : List Char} {tokens others : List Token}
    (cut : CutInto text tokens) (also : CutInto text others) : tokens = others := by
  induction cut generalizing others with
  | ended blank =>
      cases also with
      | ended => rfl
      | token begins => cases blank.symm.trans begins
  | token begins scanned _ ih =>
      cases also with
      | ended blank => cases blank.symm.trans begins
      | token begin rescanned rest =>
          obtain ⟨rfl, rfl⟩ := List.cons.inj (begins.symm.trans begin)
          cases scanned.symm.trans rescanned
          exact congrArg _ (ih rest)

section Lines

variable {rest : List Char}

/-- Up to the end of a line only text in front of it is passed over, or everything is. -/
theorem split_ignored_line (inComment : Bool) (text : List Char) :
    (splitIgnored inComment (text ++ '\n' :: rest)).2 = (splitIgnored false rest).2 ∨
      ∃ c tail,
        (splitIgnored inComment (text ++ '\n' :: rest)).2 = c :: (tail ++ '\n' :: rest) := by
  induction text generalizing inComment with
  | nil =>
      refine .inl ?_
      cases inComment <;> rfl
  | cons c more ih =>
      rw [List.cons_append, splitIgnored]
      split
      · exact ih _
      · split
        · exact ih false
        · split
          · exact ih true
          · exact .inr ⟨c, more, rfl⟩

/-- A token that begins in front of the end of a line ends there as well. -/
theorem one_line_within {text left more : List Char} (one : OneLine more)
    (same : text ++ '\n' :: rest = more ++ left) : ∃ between, left = between ++ '\n' :: rest := by
  rcases List.append_eq_append_iff.mp same with ⟨beyond, rfl, after⟩ | ⟨between, -, rfl⟩
  · cases beyond with
    | nil => exact ⟨[], after.symm⟩
    | cons c later =>
        obtain ⟨rfl, -⟩ := List.cons.inj after
        exact absurd (one '\n' (by simp)) (by decide)
  · exact ⟨between, rfl⟩

/-- Behind a line feed a text is cut into its own tokens, whatever is in front of it. -/
theorem CutInto.behind_line {text : List Char} {tokens : List Token}
    (cut : CutInto (text ++ '\n' :: rest) tokens) :
    ∃ front back, tokens = front ++ back ∧ .endOfFile ∉ front ∧ CutInto rest back := by
  generalize same : text ++ '\n' :: rest = whole at cut
  induction cut generalizing text with
  | ended blank =>
      subst same
      rcases @split_ignored_line rest false text with passed | ⟨c, tail, found⟩
      · exact ⟨[], _, rfl, List.not_mem_nil, .ended (passed.symm.trans blank)⟩
      · cases blank.symm.trans found
  | @token whole c tail token left tokens begins scanned others ih =>
      subst same
      rcases @split_ignored_line rest false text with passed | ⟨d, more, found⟩
      · exact ⟨[], _, rfl, List.not_mem_nil, .token (passed.symm.trans begins) scanned others⟩
      · have covers := scan_token_covers (split_ignored_comment begins)
        obtain ⟨rfl, rfl⟩ := List.cons.inj (begins.symm.trans found)
        rw [scanned] at covers
        obtain ⟨spelled, ⟨-, -, visible⟩, whole, one⟩ := covers
        rw [← List.cons_append] at whole
        obtain ⟨between, rfl⟩ := one_line_within one whole
        obtain ⟨front, back, rfl, unended, behind⟩ := ih rfl
        refine ⟨token :: front, back, rfl, fun there => ?_, behind⟩
        rcases List.mem_cons.mp there with final | later
        · exact visible final.symm
        · exact unended later

end Lines

end GraphQL
