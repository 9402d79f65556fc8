import GraphQL.Proofs.TokenPlaces

/-!
Whatever is scanned as a token is spelled as the grammar of tokens says.

The grammar was shown to be read by the scanner. Here it is shown that the scanner reads nothing
else, so that all tokens of a stream but the end token have the forms of the grammar.
-/

namespace GraphQL

/-- What is found by a scan, if anything, has a property. -/
def Scan.Finds {α : Type} (scanned : Scan α) (holds : α → Prop) : Prop :=
  ∀ found left, scanned = .ok (found, left) → holds found

section Numbers

variable {make : String → Token} {before text : List Char} {token : Token}

theorem scan_run_finds (inClass : Char → Bool) (before text : List Char) :
    (scanRun inClass before text).Finds fun found =>
      ∃ run, found = before ++ run ∧ run ≠ [] ∧ ∀ c ∈ run, inClass c = true := by
  intro found left scanned
  unfold scanRun at scanned
  split at scanned
  · cases scanned
  · rename_i c rest
    split at scanned
    · rename_i inside
      cases scanned
      refine ⟨_, rfl, ?_, fun _ => List.mem_takeWhile_imp⟩
      rw [List.takeWhile_cons_of_pos inside]
      exact List.cons_ne_nil _ _
    · cases scanned

theorem end_number_finds (make : String → Token) (digits text : List Char) :
    (endNumber make digits text).Finds fun token => token = make (String.ofList digits) := by
  intro token left scanned
  unfold endNumber at scanned
  split at scanned
  · split at scanned
    · cases scanned
    · cases scanned
      rfl
  · cases scanned
    rfl

/-- Behind digits an exponent may follow, which makes a float of them. -/
theorem scan_exponent_finds (make : String → Token) (before text : List Char) :
    (scanExponent make before text).Finds fun token =>
      token = make (String.ofList before) ∨
        ∃ exponent, IsExponent exponent ∧ token = .float (String.ofList (before ++ exponent)) := by
  intro token left scanned
  cases text with
  | nil => exact .inl (end_number_finds make before [] token left scanned)
  | cons mark rest =>
      by_cases marked : mark = 'e' ∨ mark = 'E'
      · obtain ⟨sign, digits, rfl, signed, same⟩ := scan_exponent_marked make before marked rest
        rw [same] at scanned
        unfold Scan.andThen at scanned
        split at scanned
        · cases scanned
        · rename_i found more run
          obtain ⟨number, rfl, filled, inside⟩ := scan_run_finds _ _ _ _ _ run
          have ended := end_number_finds .float _ _ token left scanned
          refine .inr ⟨_, ⟨mark, sign, number, rfl, marked, signed, filled, inside⟩, ?_⟩
          rw [ended, List.append_assoc, List.cons_append]
      · unfold scanExponent at scanned
        dsimp only at scanned
        rw [if_neg marked] at scanned
        exact .inl (end_number_finds make before _ token left scanned)

/-- A number of which the whole part is known is an integer, or goes on as a float. -/
def ContinuesNumber (before : List Char) (token : Token) : Prop :=
  token = .int (String.ofList before) ∨
    ∃ fraction exponent, (fraction = [] ∨ IsFraction fraction) ∧
      (exponent = [] ∨ IsExponent exponent) ∧ fraction ++ exponent ≠ [] ∧
      token = .float (String.ofList (before ++ (fraction ++ exponent)))

theorem scan_fraction_finds (before text : List Char) :
    (scanFraction before text).Finds (ContinuesNumber before) := by
  intro token left scanned
  unfold scanFraction at scanned
  split at scanned
  · split at scanned
    · cases scanned
    · rename_i found more run
      obtain ⟨digits, rfl, filled, inside⟩ := scan_run_finds _ _ _ _ _ run
      have fraction : IsFraction ('.' :: digits) := ⟨digits, rfl, filled, inside⟩
      rcases scan_exponent_finds .float _ more token left scanned with ended | ⟨exponent, form, ended⟩
      · refine .inr ⟨_, [], .inr fraction, .inl rfl, by simp, ?_⟩
        simpa using ended
      · refine .inr ⟨_, exponent, .inr fraction, .inr form, by simp, ?_⟩
        simpa using ended
  · rcases scan_exponent_finds .int before text token left scanned with ended | ⟨exponent, form, ended⟩
    · exact .inl ended
    · have filled : exponent ≠ [] := by
        obtain ⟨mark, sign, digits, rfl, -⟩ := form
        exact List.cons_ne_nil _ _
      exact .inr ⟨[], exponent, .inl rfl, .inr form, filled, ended⟩

/-- A number behind its sign. -/
def UnsignedNumber (sign : List Char) (token : Token) : Prop :=
  (∃ digits, (IsWhole digits ∨ IsHexadecimal digits) ∧
      token = .int (String.ofList (sign ++ digits))) ∨
    ∃ digits, IsFloating digits ∧ token = .float (String.ofList (sign ++ digits))

theorem ContinuesNumber.unsigned {sign whole : List Char} {token : Token} (number : IsWhole whole)
    (continues : ContinuesNumber (sign ++ whole) token) : UnsignedNumber sign token := by
  rcases continues with same | ⟨fraction, exponent, fractional, exponential, filled, same⟩
  · exact .inl ⟨whole, .inl number, same⟩
  · refine .inr ⟨_, ⟨whole, fraction, exponent, rfl, number, fractional, exponential, filled⟩, ?_⟩
    rw [same, List.append_assoc]

theorem scan_unsigned_finds (sign text : List Char) :
    (scanUnsigned sign text).Finds (UnsignedNumber sign) := by
  intro token left scanned
  unfold scanUnsigned at scanned
  split at scanned
  · cases scanned
  · rename_i mark rest
    split at scanned
    · rename_i base
      split at scanned
      · cases scanned
      · rename_i found more run
        obtain ⟨digits, rfl, filled, inside⟩ := scan_run_finds _ _ _ _ _ run
        have ended := end_number_finds .int _ _ token left scanned
        refine .inl ⟨_, .inr ⟨mark, digits, rfl, base, filled, inside⟩, ?_⟩
        rw [ended, List.append_assoc]
        rfl
    · split at scanned
      · cases scanned
      · have zero : IsWhole ['0'] := by simp [IsWhole]
        exact (scan_fraction_finds _ _ token left scanned).unsigned zero
  · rename_i c rest alone
    split at scanned
    · rename_i digit
      have whole : IsWhole (c :: rest.takeWhile Char.isDigit) := by
        refine ⟨List.cons_ne_nil _ _, ?_, fun lead => ?_⟩
        · exact List.forall_mem_cons.mpr ⟨digit, fun _ => List.mem_takeWhile_imp⟩
        · cases lead
          cases rest with
          | nil => rfl
          | cons mark more => exact absurd rfl (alone mark more rfl)
      exact (scan_fraction_finds _ _ token left scanned).unsigned whole
    · cases scanned

theorem scan_number_finds (text : List Char) : (scanNumber text).Finds Token.WellFormed := by
  intro token left scanned
  unfold scanNumber at scanned
  split at scanned
  · rcases scan_unsigned_finds _ _ token left scanned with
      ⟨digits, whole | hexadecimal, rfl⟩ | ⟨digits, floating, rfl⟩
    · exact .inl (.inr ⟨digits, String.toList_ofList, whole⟩)
    · exact .inr (.inr ⟨digits, String.toList_ofList, hexadecimal⟩)
    · exact .inr ⟨digits, String.toList_ofList, floating⟩
  · rcases scan_unsigned_finds _ _ token left scanned with
      ⟨digits, whole | hexadecimal, rfl⟩ | ⟨digits, floating, rfl⟩
    · exact .inl (.inl (String.toList_ofList ▸ whole))
    · exact .inr (.inl (String.toList_ofList ▸ hexadecimal))
    · exact .inl (String.toList_ofList ▸ floating)

end Numbers

section Strings

variable {body : List Char}

/-- What is behind a character that stands for itself may be in a string as well. -/
theorem StringBody.rest {c : Char} {rest : List Char} (spelled : StringBody (c :: rest))
    (plain : c ≠ '\\') : StringBody rest := by
  cases spelled with
  | plain _ more => exact more
  | short | code => exact absurd rfl plain

theorem prepend_scan_ok {front text left : List Char} {scanned : Scan (List Char)}
    (found : prependScan front scanned = .ok (text, left)) :
    ∃ more, scanned = .ok (more, left) ∧ text = front ++ more := by
  cases scanned with
  | error fault => cases found
  | ok result =>
      cases found
      exact ⟨_, rfl, rfl⟩

theorem source_char_stands {c : Char} (in_line : isLineEnd c = false) (source : isSourceChar c = true)
    (no_quote : c ≠ '"') (no_escape : c ≠ '\\') : StandsInString c := by
  refine ⟨?_, no_quote, no_escape⟩
  simpa [isSourceChar, in_line] using source

/-- The scanner of strings stops at nothing but a closing quote. -/
theorem scan_string_finds (input : List Char) : (scanString input).Finds StringBody := by
  fun_induction scanString input with
  | case1 | case3 | case5 | case6 | case8 | case9 | case10 | case12 =>
      intro body left found
      cases found
  | case2 rest =>
      intro body left found
      cases found
      exact .nothing
  | case4 rest digits four ih =>
      intro body left found
      obtain ⟨first, second, third, fourth, code⟩ := List.length_eq_four.mp four
      have inside : ∀ c ∈ [first, second, third, fourth], isHexDigit c = true :=
        code ▸ fun _ => List.mem_takeWhile_imp
      obtain ⟨others, rfl⟩ : [first, second, third, fourth] <+: rest :=
        code ▸ (List.takeWhile_prefix _).trans (List.take_prefix 4 rest)
      obtain ⟨more, scanned, rfl⟩ := prepend_scan_ok found
      have spelled := ih _ _ scanned
      simp only [List.cons_append, List.nil_append] at scanned ⊢
      rw [scan_string_digits inside] at scanned
      obtain ⟨behind, -, rfl⟩ := prepend_scan_ok scanned
      have plain (digit : Char) (among : digit ∈ [first, second, third, fourth]) : digit ≠ '\\' :=
        (hex_digit_stands (inside digit among)).2.2
      exact .code inside ((((spelled.rest (plain first (by simp))).rest (plain second (by simp))).rest
        (plain third (by simp))).rest (plain fourth (by simp)))
  | case7 c rest other short ih =>
      intro body left found
      obtain ⟨more, scanned, rfl⟩ := prepend_scan_ok found
      exact .short short (ih _ _ scanned)
  | case11 c rest no_quote no_escape other in_line source ih =>
      intro body left found
      obtain ⟨more, scanned, rfl⟩ := prepend_scan_ok found
      have plain : c ≠ '\\' := by
        cases rest with
        | nil => exact fun same => no_escape same rfl
        | cons d rest => exact fun same => other d rest same rfl
      have stands := source_char_stands (Bool.eq_false_iff.mpr in_line) source no_quote plain
      exact .plain stands (ih _ _ scanned)

end Strings

section Tokens

theorem scan_spread_finds (rest : List Char) : (scanSpread rest).Finds Token.WellFormed := by
  intro token left scanned
  unfold scanSpread at scanned
  split at scanned <;> cases scanned
  trivial

/-- One token that is scanned has the form of its kind. -/
theorem scan_token_finds (c : Char) (rest : List Char) :
    (scanToken c rest).Finds Token.WellFormed := by
  intro token left scanned
  unfold scanToken at scanned
  split at scanned
  · cases scanned
    trivial
  split at scanned
  · cases scanned
    intro c inside
    rw [String.toList_ofList] at inside
    simpa using List.mem_takeWhile_imp inside
  split at scanned
  · exact scan_spread_finds rest token left scanned
  split at scanned
  · split at scanned
    · cases scanned
    · rename_i body behind found
      cases scanned
      exact ⟨body, String.toList_ofList, scan_string_finds rest _ _ found⟩
  split at scanned
  · exact scan_number_finds _ token left scanned
  split at scanned
  · rename_i start
    cases scanned
    refine Token.of_word_well_formed ?_
    rw [List.takeWhile_cons_of_pos (name_start_continues start), Name.isValid,
      String.toList_ofList]
    simp only [start, Bool.true_and]
    exact List.all_eq_true.mpr fun _ => List.mem_takeWhile_imp
  · cases scanned

/-- All tokens of a text have the forms of the grammar, but for the end token. -/
theorem scan_from_well_formed (count : Nat) (position : Position) (text : List Char) :
    ∀ token ∈ (TokenStream.scanFrom count position text).tokens,
      token.node = .endOfFile ∨ token.node.WellFormed := by
  induction count generalizing position text with
  | zero => exact List.forall_mem_nil _
  | succ count ih =>
      rw [TokenStream.scanFrom]
      dsimp only
      split
      · exact List.forall_mem_singleton.mpr (.inl rfl)
      · split
        · exact List.forall_mem_nil _
        · rename_i found
          exact List.forall_mem_cons.mpr ⟨.inr (scan_token_finds _ _ _ _ found), ih _ _⟩

end Tokens

end GraphQL
