import GraphQL.Proofs.SourceBoundary

/-!
Scanners look no further than at the next character.

A token is scanned from another text as well if it stands there and the same character comes behind
it, or if it was the last thing in its text and a line ends behind it. So a text that is followed by a
line feed and another text is cut into its own tokens, and then into those of the other one.
-/

namespace GraphQL

/-- What is behind a token in another text begins as it did, or ends a line where nothing was. -/
def Resumes (left other : List Char) : Prop :=
  other.head? = left.head? ∨ left = [] ∧ other.head? = some '\n'

/-- A scanner finds the same in other texts that resume behind what it takes. -/
def Local {α : Type} (scan : List Char → Scan α) : Prop :=
  ∀ input found left, scan input = .ok (found, left) →
    ∃ text, input = text ++ left ∧ ∀ other, Resumes left other →
      scan (text ++ other) = .ok (found, other)

section Resuming

variable {left other : List Char}

theorem resumes_append (text : List Char) (resumes : Resumes left other) :
    Resumes (text ++ left) (text ++ other) := by
  cases text with
  | nil => exact resumes
  | cons c more => exact .inl rfl

/-- What resumes does not go on with characters of a class, if these end no line. -/
theorem Resumes.outside {inClass : Char → Bool} (resumes : Resumes left other)
    (unended : inClass '\n' = false) (stops : ∀ c ∈ left.head?, inClass c = false) :
    ∀ c ∈ other.head?, inClass c = false := by
  rcases resumes with same | ⟨-, feed⟩
  · rwa [same]
  · rw [feed]
    rintro _ ⟨⟩
    exact unended

theorem Resumes.other_than {c : Char} (resumes : Resumes left other) (kept : c ≠ '\n')
    (others : left.head? ≠ some c) : other.head? ≠ some c := by
  rcases resumes with same | ⟨-, feed⟩
  · rwa [same]
  · rw [feed]
    exact fun same => kept (Option.some.inj same).symm

end Resuming

section Numbers

theorem and_then_local {scan : List Char → Scan (List Char)}
    {next : List Char → List Char → Scan Token} (first : Local scan)
    (second : ∀ found, Local (next found)) : Local fun input => (scan input).andThen next := by
  intro input token left scanned
  change (scan input).andThen next = _ at scanned
  cases begun : scan input with
  | error fault => simp [begun, Scan.andThen] at scanned
  | ok result =>
      obtain ⟨found, middle⟩ := result
      rw [begun] at scanned
      obtain ⟨text, rfl, again⟩ := first input found middle begun
      obtain ⟨more, rfl, behind⟩ := second found middle token left scanned
      refine ⟨text ++ more, (List.append_assoc _ _ _).symm, fun other resumes => ?_⟩
      change (scan (text ++ more ++ other)).andThen next = _
      rw [List.append_assoc, again _ (resumes_append more resumes)]
      exact behind other resumes

/-- Behind a run of characters there is none of its class. -/
theorem drop_while_stops (inClass : Char → Bool) (text : List Char) :
    ∀ c ∈ (text.dropWhile inClass).head?, inClass c = false := by
  intro c first
  have stops := List.head?_dropWhile_not inClass text
  rw [Option.mem_def.mp first] at stops
  exact stops

theorem scan_run_local {inClass : Char → Bool} (unended : inClass '\n' = false)
    (before : List Char) : Local (scanRun inClass before) := by
  intro input found left scanned
  unfold scanRun at scanned
  split at scanned
  · cases scanned
  · rename_i c rest
    split at scanned
    · rename_i belongs
      cases scanned
      refine ⟨_, (List.takeWhile_append_dropWhile).symm, fun other resumes => ?_⟩
      exact scan_run_stops before (by simp [belongs]) (fun _ => List.mem_takeWhile_imp)
        (resumes.outside unended (drop_while_stops inClass _))
    · cases scanned

theorem end_number_local (make : String → Token) (digits : List Char) :
    Local (endNumber make digits) := by
  have feed : isNameStart '\n' = false := by decide
  have ends {other : List Char} (stops : ∀ c ∈ other.head?, isNameStart c = false) :
      endNumber make digits other = .ok (make (String.ofList digits), other) := by
    cases other with
    | nil => rfl
    | cons c more =>
        rw [endNumber, stops c rfl]
        rfl
  intro input found left scanned
  cases input with
  | nil =>
      cases scanned
      exact ⟨[], rfl, fun other resumes => ends (resumes.outside feed fun _ absent => by cases absent)⟩
  | cons c rest =>
      rw [endNumber] at scanned
      split at scanned
      · cases scanned
      · rename_i outside
        cases scanned
        refine ⟨[], rfl, fun other resumes => ends (resumes.outside feed ?_)⟩
        rintro _ ⟨⟩
        exact Bool.eq_false_iff.mpr outside

/-- An optional sign stands in front of other characters. -/
def IsSign (sign digits : List Char) : Prop :=
  sign = ['+'] ∨ sign = ['-'] ∨ sign = [] ∧ digits.head? ≠ some '+' ∧ digits.head? ≠ some '-'

theorem sign_split (rest : List Char) : ∃ sign digits, rest = sign ++ digits ∧ IsSign sign digits := by
  by_cases plus : rest.head? = some '+'
  · obtain ⟨digits, rfl⟩ := List.head?_eq_some_iff.mp plus
    exact ⟨['+'], digits, rfl, .inl rfl⟩
  · by_cases minus : rest.head? = some '-'
    · obtain ⟨digits, rfl⟩ := List.head?_eq_some_iff.mp minus
      exact ⟨['-'], digits, rfl, .inr (.inl rfl)⟩
    · exact ⟨[], rest, rfl, .inr (.inr ⟨rfl, plus, minus⟩)⟩

theorem scan_exponent_sign (make : String → Token) (before : List Char) {mark : Char}
    (marked : mark = 'e' ∨ mark = 'E') {sign digits : List Char} (signed : IsSign sign digits) :
    scanExponent make before (mark :: (sign ++ digits)) =
      Scan.andThen (scanRun Char.isDigit (before ++ mark :: sign) digits) (endNumber .float) := by
  rcases signed with rfl | rfl | ⟨rfl, no_plus, no_minus⟩
  · rw [List.singleton_append, scanExponent, if_pos marked]
    rfl
  · rw [List.singleton_append, scanExponent, if_pos marked]
    rfl
  · rw [List.nil_append, scanExponent, if_pos marked]
    · rfl
    · rintro tail rfl
      exact no_plus rfl
    · rintro tail rfl
      exact no_minus rfl

/-- Where no exponent begins, the number ends. -/
theorem scan_exponent_unmarked (make : String → Token) (before : List Char) {text : List Char}
    (unmarked : text.head? ≠ some 'e' ∧ text.head? ≠ some 'E') :
    scanExponent make before text = endNumber make before text := by
  cases text with
  | nil => rfl
  | cons c rest =>
      unfold scanExponent
      dsimp only
      rw [if_neg]
      rintro (rfl | rfl)
      · exact unmarked.1 rfl
      · exact unmarked.2 rfl

theorem scan_exponent_local (make : String → Token) (before : List Char) :
    Local (scanExponent make before) := by
  intro input found left scanned
  by_cases unmarked : input.head? ≠ some 'e' ∧ input.head? ≠ some 'E'
  · rw [scan_exponent_unmarked make before unmarked] at scanned
    obtain ⟨text, rfl, again⟩ := end_number_local make before input found left scanned
    refine ⟨text, rfl, fun other resumes => ?_⟩
    have follows := resumes_append text resumes
    rw [scan_exponent_unmarked make before ⟨follows.other_than (by decide) unmarked.1,
      follows.other_than (by decide) unmarked.2⟩]
    exact again other resumes
  · obtain ⟨mark, marked, rest, rfl⟩ : ∃ mark, (mark = 'e' ∨ mark = 'E') ∧
        ∃ rest, input = mark :: rest := by
      rw [not_and_or, not_not, not_not] at unmarked
      rcases unmarked with first | first
      · exact ⟨'e', .inl rfl, List.head?_eq_some_iff.mp first⟩
      · exact ⟨'E', .inr rfl, List.head?_eq_some_iff.mp first⟩
    obtain ⟨sign, digits, rfl, signed⟩ := sign_split rest
    rw [scan_exponent_sign make before marked signed] at scanned
    obtain ⟨text, rfl, again⟩ := and_then_local
      (@scan_run_local Char.isDigit (by decide) (before ++ mark :: sign))
      (end_number_local .float) digits found left scanned
    refine ⟨mark :: (sign ++ text), by simp, fun other resumes => ?_⟩
    have follows := resumes_append text resumes
    have still : IsSign sign (text ++ other) := by
      rcases signed with same | same | ⟨same, no_plus, no_minus⟩
      · exact .inl same
      · exact .inr (.inl same)
      · exact .inr (.inr ⟨same, follows.other_than (by decide) no_plus,
          follows.other_than (by decide) no_minus⟩)
    rw [List.cons_append, List.append_assoc, scan_exponent_sign make before marked still]
    exact again other resumes

theorem scan_fraction_undotted (before : List Char) {text : List Char}
    (undotted : text.head? ≠ some '.') :
    scanFraction before text = scanExponent .int before text := by
  unfold scanFraction
  split
  · exact absurd rfl undotted
  · rfl

theorem scan_fraction_local (before : List Char) : Local (scanFraction before) := by
  intro input found left scanned
  by_cases dotted : input.head? = some '.'
  · obtain ⟨rest, rfl⟩ := List.head?_eq_some_iff.mp dotted
    obtain ⟨text, rfl, again⟩ := and_then_local
      (@scan_run_local Char.isDigit (by decide) (before ++ ['.']))
      (scan_exponent_local .float) rest found left scanned
    exact ⟨'.' :: text, rfl, again⟩
  · rw [scan_fraction_undotted before dotted] at scanned
    obtain ⟨text, rfl, again⟩ := scan_exponent_local .int before input found left scanned
    refine ⟨text, rfl, fun other resumes => ?_⟩
    rw [scan_fraction_undotted before
      ((resumes_append text resumes).other_than (by decide) dotted)]
    exact again other resumes

/-- A zero is all of the whole part of a number, unless a mark of a base follows it. -/
theorem scan_unsigned_zero (sign : List Char) {rest : List Char}
    (plain : rest.head? ≠ some 'x' ∧ rest.head? ≠ some 'X' ∧ ∀ c ∈ rest.head?, c.isDigit = false) :
    scanUnsigned sign ('0' :: rest) = scanFraction (sign ++ ['0']) rest := by
  cases rest with
  | nil => rfl
  | cons mark more =>
      obtain ⟨no_small, no_capital, no_digit⟩ := plain
      rw [scanUnsigned, if_neg, no_digit mark rfl]
      · rfl
      · rintro (rfl | rfl)
        · exact no_small rfl
        · exact no_capital rfl

theorem scan_unsigned_digits (sign : List Char) {c : Char} (digit : c.isDigit = true)
    (no_zero : c ≠ '0') (rest : List Char) :
    scanUnsigned sign (c :: rest) =
      scanFraction (sign ++ c :: rest.takeWhile Char.isDigit) (rest.dropWhile Char.isDigit) := by
  rw [scanUnsigned, if_pos digit]
  exact fun _ _ same => absurd same no_zero

/-- Behind a zero and a mark of a base there are its digits. -/
theorem scan_unsigned_base (sign : List Char) {mark : Char} (base : mark = 'x' ∨ mark = 'X') :
    (fun rest => scanUnsigned sign ('0' :: mark :: rest)) =
      fun rest => (scanRun isHexDigit (sign ++ ['0', mark]) rest).andThen (endNumber .int) := by
  funext rest
  rw [scanUnsigned, if_pos base]
  rfl

/-- Scanning from a first character on is local where it is so behind each of them. -/
theorem local_cons {α : Type} {scan : List Char → Scan α}
    (nothing : ∀ result, scan [] ≠ .ok result) (each : ∀ c, Local fun rest => scan (c :: rest)) :
    Local scan := by
  intro input found left scanned
  cases input with
  | nil => exact absurd scanned (nothing _)
  | cons c rest =>
      obtain ⟨text, rfl, again⟩ := each c rest found left scanned
      exact ⟨c :: text, rfl, again⟩

theorem scan_zero_local (sign : List Char) : Local fun rest => scanUnsigned sign ('0' :: rest) := by
  intro rest found left scanned
  dsimp only at scanned
  by_cases plain : rest.head? ≠ some 'x' ∧ rest.head? ≠ some 'X' ∧
      ∀ c ∈ rest.head?, c.isDigit = false
  · rw [scan_unsigned_zero sign plain] at scanned
    obtain ⟨text, rfl, again⟩ := scan_fraction_local _ _ found left scanned
    refine ⟨text, rfl, fun other resumes => ?_⟩
    have follows := resumes_append text resumes
    refine (scan_unsigned_zero sign ⟨?_, ?_, ?_⟩).trans (again other resumes)
    · exact follows.other_than (by decide) plain.1
    · exact follows.other_than (by decide) plain.2.1
    · exact follows.outside (by decide) plain.2.2
  · cases rest with
    | nil => exact absurd ⟨nofun, nofun, nofun⟩ plain
    | cons mark more =>
        by_cases base : mark = 'x' ∨ mark = 'X'
        · have local_behind := and_then_local
            (@scan_run_local isHexDigit (by decide) (sign ++ ['0', mark])) (end_number_local .int)
          rw [← scan_unsigned_base sign base] at local_behind
          obtain ⟨text, rfl, again⟩ := local_behind more found left scanned
          exact ⟨mark :: text, rfl, again⟩
        · -- A digit behind the zero is refused.
          rw [scanUnsigned, if_neg base] at scanned
          split at scanned
          · cases scanned
          · rename_i no_digit
            rw [not_or] at base
            refine absurd ⟨?_, ?_, ?_⟩ plain
            · exact fun first => base.1 (Option.some.inj first)
            · exact fun first => base.2 (Option.some.inj first)
            · rintro _ ⟨⟩
              exact Bool.eq_false_iff.mpr no_digit

theorem scan_digits_local (sign : List Char) {c : Char} (digit : c.isDigit = true)
    (no_zero : c ≠ '0') : Local fun rest => scanUnsigned sign (c :: rest) := by
  intro rest found left scanned
  dsimp only at scanned ⊢
  rw [scan_unsigned_digits sign digit no_zero] at scanned
  obtain ⟨text, whole, again⟩ := scan_fraction_local _ _ found left scanned
  have split := @List.takeWhile_append_dropWhile _ Char.isDigit rest
  rw [whole] at split
  refine ⟨rest.takeWhile Char.isDigit ++ text, by simp [split], fun other resumes => ?_⟩
  have stops : ∀ d ∈ (text ++ other).head?, d.isDigit = false :=
    (resumes_append text resumes).outside (by decide) (whole ▸ drop_while_stops Char.isDigit rest)
  obtain ⟨taken, dropped⟩ := @run_split Char.isDigit (rest.takeWhile Char.isDigit)
    _ (fun _ => List.mem_takeWhile_imp) stops
  rw [List.append_assoc, scan_unsigned_digits sign digit no_zero, taken, dropped]
  exact again other resumes

theorem scan_unsigned_local (sign : List Char) : Local (scanUnsigned sign) := by
  refine local_cons nofun fun c => ?_
  by_cases zero : c = '0'
  · exact zero ▸ scan_zero_local sign
  by_cases digit : c.isDigit = true
  · exact scan_digits_local sign digit zero
  · intro rest found left scanned
    dsimp only at scanned
    rw [scanUnsigned, if_neg digit] at scanned
    · cases scanned
    · exact fun _ _ same => absurd same zero

theorem scan_number_local : Local scanNumber := by
  intro input found left scanned
  by_cases minus : input.head? = some '-'
  · obtain ⟨rest, rfl⟩ := List.head?_eq_some_iff.mp minus
    obtain ⟨text, rfl, again⟩ := scan_unsigned_local ['-'] rest found left scanned
    exact ⟨'-' :: text, rfl, again⟩
  · have unsigned {text : List Char} (plain : text.head? ≠ some '-') :
        scanNumber text = scanUnsigned [] text := by
      unfold scanNumber
      split
      · exact absurd rfl plain
      · rfl
    rw [unsigned minus] at scanned
    obtain ⟨text, rfl, again⟩ := scan_unsigned_local [] input found left scanned
    refine ⟨text, rfl, fun other resumes => ?_⟩
    rw [unsigned ((resumes_append text resumes).other_than (by decide) minus)]
    exact again other resumes

end Numbers

section Strings

theorem prepend_scanned {front found left : List Char} {scanned : Scan (List Char)}
    (whole : prependScan front scanned = .ok (found, left)) :
    ∃ more, scanned = .ok (more, left) ∧ found = front ++ more := by
  cases scanned with
  | error fault => cases whole
  | ok result =>
      cases whole
      exact ⟨_, rfl, rfl⟩

theorem four_digits {rest : List Char}
    (four : ((rest.take 4).takeWhile isHexDigit).length = 4) :
    ∃ a b c d more, rest = a :: b :: c :: d :: more ∧ ∀ x ∈ [a, b, c, d], isHexDigit x = true := by
  have all : (rest.take 4).takeWhile isHexDigit = rest.take 4 :=
    (List.takeWhile_prefix isHexDigit).eq_of_length_le (by rw [four, List.length_take]; omega)
  have digits : ∀ x ∈ rest.take 4, isHexDigit x = true := fun x there =>
    List.mem_takeWhile_imp (all.symm ▸ there)
  rw [all, List.length_take] at four
  match rest, four, digits with
  | a :: b :: c :: d :: more, _, digits => exact ⟨a, b, c, d, more, rfl, digits⟩

/-- What begins with a digit inside of a string stands for it. -/
theorem string_body_digit {body left rest : List Char} {c : Char} (digit : isHexDigit c = true)
    (spelled : StringBody body) (same : c :: rest = body ++ '"' :: left) :
    ∃ more, body = c :: more ∧ StringBody more ∧ rest = more ++ '"' :: left := by
  cases spelled with
  | nothing =>
      obtain ⟨rfl, -⟩ := List.cons.inj same
      exact absurd digit (by decide)
  | plain stands more =>
      obtain ⟨rfl, others⟩ := List.cons.inj same
      exact ⟨_, rfl, more, others⟩
  | short | code =>
      obtain ⟨rfl, -⟩ := List.cons.inj same
      exact absurd digit (by decide)

/-- What is scanned as the inside of a string is one, up to the closing quote. -/
theorem string_scanned {input body left : List Char}
    (scanned : scanString input = .ok (body, left)) :
    StringBody body ∧ input = body ++ '"' :: left := by
  fun_induction scanString input generalizing body with
  | case1 => cases scanned
  | case2 rest =>
      cases scanned
      exact ⟨.nothing, rfl⟩
  | case3 => cases scanned
  | case4 rest digits four =>
      rename_i ih
      obtain ⟨inside, begun, rfl⟩ := prepend_scanned scanned
      obtain ⟨spelled, same⟩ := ih begun
      obtain ⟨a, b, c, d, more, rfl, hex⟩ := four_digits four
      obtain ⟨first, rfl, spelled, same⟩ := string_body_digit (hex a (by simp)) spelled same
      obtain ⟨second, rfl, spelled, same⟩ := string_body_digit (hex b (by simp)) spelled same
      obtain ⟨third, rfl, spelled, same⟩ := string_body_digit (hex c (by simp)) spelled same
      obtain ⟨fourth, rfl, spelled, rfl⟩ := string_body_digit (hex d (by simp)) spelled same
      exact ⟨.code hex spelled, rfl⟩
  | case5 => cases scanned
  | case6 => cases scanned
  | case7 c rest _ escape ih =>
      obtain ⟨inside, begun, rfl⟩ := prepend_scanned scanned
      obtain ⟨spelled, rfl⟩ := ih begun
      exact ⟨.short escape spelled, rfl⟩
  | case8 => cases scanned
  | case9 => cases scanned
  | case10 => cases scanned
  | case11 c rest no_quote no_end no_escape inside_line source ih =>
      obtain ⟨inside, begun, rfl⟩ := prepend_scanned scanned
      obtain ⟨spelled, rfl⟩ := ih begun
      refine ⟨.plain ⟨?_, no_quote, ?_⟩ spelled, rfl⟩
      · rw [isSourceChar, Bool.eq_false_iff.mpr inside_line] at source
        simpa using source
      · rintro rfl
        obtain ⟨next, more, same⟩ : ∃ next more, inside ++ '"' :: left = next :: more :=
          List.exists_cons_of_ne_nil (by simp)
        exact no_escape next more rfl same
  | case12 => cases scanned

end Strings

section Tokens

variable {c : Char} {tail left : List Char} {token : Token}

theorem scan_spread_local : Local scanSpread := by
  intro input token left scanned
  unfold scanSpread at scanned
  split at scanned
  · cases scanned
  · cases scanned
  · cases scanned
    exact ⟨['.', '.'], rfl, fun _ _ => rfl⟩
  · cases scanned

/-- The rest of a word is scanned from other texts, where no letter resumes behind it. -/
theorem scan_word_local (start : isNameStart c = true)
    (scanned : scanWord (c :: tail) = (token, left)) :
    ∃ text, c :: tail = c :: text ++ left ∧ ∀ other, Resumes left other →
      scanWord (c :: text ++ other) = (token, other) := by
  have continues := name_start_continues start
  obtain ⟨rfl, rfl⟩ := Prod.mk.inj scanned
  have taken : (c :: tail).takeWhile isNameContinue = c :: tail.takeWhile isNameContinue := by
    rw [List.takeWhile_cons, continues]
    rfl
  refine ⟨tail.takeWhile isNameContinue, ?_, fun other resumes => ?_⟩
  · rw [← taken, List.takeWhile_append_dropWhile]
  · have stops : ∀ d ∈ other.head?, isNameContinue d = false :=
      resumes.outside (by decide) (drop_while_stops isNameContinue (c :: tail))
    have inside : ∀ d ∈ c :: tail.takeWhile isNameContinue, isNameContinue d = true :=
      List.forall_mem_cons.mpr ⟨continues, fun _ => List.mem_takeWhile_imp⟩
    obtain ⟨run, rest⟩ := run_split inside stops
    rw [scanWord, run, rest, taken]

/-- A description is all of its line, so it is scanned wherever the line ends there. -/
theorem scan_description_local {line : List Char}
    (scanned : scanDescription ('#' :: line) = (token, left)) :
    ∃ text, '#' :: line = '#' :: text ++ left ∧ ∀ other, Resumes left other →
      scanDescription ('#' :: text ++ other) = (token, other) := by
  obtain ⟨rfl, rfl⟩ := Prod.mk.inj scanned
  refine ⟨line.takeWhile fun c => !isLineEnd c, ?_, fun other resumes => ?_⟩
  · exact congrArg ('#' :: ·) List.takeWhile_append_dropWhile.symm
  · have stops : ∀ c ∈ other.head?, (!isLineEnd c) = false :=
      resumes.outside (by decide) (drop_while_stops (fun c => !isLineEnd c) line)
    obtain ⟨run, rest⟩ := @run_split (fun c => !isLineEnd c) (line.takeWhile fun c => !isLineEnd c)
      _ (fun _ => List.mem_takeWhile_imp) stops
    rw [List.cons_append, scanDescription, List.drop_one, List.tail_cons, run, rest]
    rfl

/-- A token is scanned from other texts that resume behind it. -/
theorem scan_token_local (comment : c = '#' → tail.head? = some '#')
    (scanned : scanToken c tail = .ok (token, left)) :
    ∃ text, tail = text ++ left ∧
      ∀ other, Resumes left other → scanToken c (text ++ other) = .ok (token, other) := by
  unfold scanToken at scanned ⊢
  cases found : Punctuator.ofChar? c with
  | some mark =>
      rw [found] at scanned
      cases scanned
      exact ⟨[], rfl, fun other _ => rfl⟩
  | none =>
      rw [found] at scanned
      dsimp only at scanned ⊢
      by_cases number_sign : c = '#'
      · obtain ⟨line, rfl⟩ := List.head?_eq_some_iff.mp (comment number_sign)
        simp only [if_pos number_sign] at scanned ⊢
        obtain ⟨text, whole, again⟩ := scan_description_local (Except.ok.inj scanned)
        exact ⟨'#' :: text, whole, fun other resumes => congrArg Except.ok (again other resumes)⟩
      simp only [if_neg number_sign] at scanned ⊢
      by_cases dot : c = '.'
      · simp only [if_pos dot] at scanned ⊢
        exact scan_spread_local tail token left scanned
      simp only [if_neg dot] at scanned ⊢
      by_cases quote : c = '"'
      · simp only [if_pos quote] at scanned ⊢
        cases begun : scanString tail with
        | error fault => simp [begun] at scanned
        | ok result =>
            obtain ⟨inside, behind⟩ := result
            obtain ⟨spelled, rfl⟩ := string_scanned begun
            rw [begun] at scanned
            cases scanned
            refine ⟨inside ++ ['"'], by simp, fun other _ => ?_⟩
            rw [List.append_assoc, List.singleton_append, scan_string_body spelled]
      simp only [if_neg quote] at scanned ⊢
      by_cases number : c = '-' ∨ c.isDigit
      · simp only [if_pos number] at scanned ⊢
        obtain ⟨text, whole, again⟩ := scan_number_local (c :: tail) token left scanned
        cases text with
        | nil =>
            have covers := scan_number_covers (c :: tail)
            rw [scanned] at covers
            obtain ⟨spelled, ⟨-, filled, -⟩, same, -⟩ := covers
            rw [whole, List.nil_append] at same
            exact absurd (List.self_eq_append_left.mp same) filled
        | cons d text =>
            obtain ⟨rfl, rfl⟩ := List.cons.inj whole
            exact ⟨text, rfl, again⟩
      simp only [if_neg number] at scanned ⊢
      by_cases start : isNameStart c = true
      · simp only [if_pos start] at scanned ⊢
        obtain ⟨text, whole, again⟩ := scan_word_local start (Except.ok.inj scanned)
        exact ⟨text, (List.cons.inj whole).2, fun other resumes =>
          congrArg Except.ok (again other resumes)⟩
      · simp [start] at scanned

end Tokens

section Lines

variable {rest : List Char}

/-- What is passed over in front of a line feed is what is passed over without it. -/
theorem split_ignored_feed (inComment : Bool) (text : List Char) :
    (splitIgnored inComment (text ++ '\n' :: rest)).2 =
      if (splitIgnored inComment text).2 = [] then (splitIgnored false rest).2
      else (splitIgnored inComment text).2 ++ '\n' :: rest := by
  induction text generalizing inComment with
  | nil => cases inComment <;> rfl
  | cons c more ih =>
      rw [List.cons_append, splitIgnored, splitIgnored]
      split
      · exact ih _
      · split
        · exact ih false
        · have opens : (more ++ '\n' :: rest).head? ≠ some '#' ↔ more.head? ≠ some '#' := by
            cases more with
            | nil => simp
            | cons d others => rfl
          simp only [opens]
          split
          · exact ih true
          · rfl

/-- A text in front of a line feed is cut into its own tokens, and then into those behind that. -/
theorem CutInto.before_line {text : List Char} {front back : List Token}
    (cut : CutInto text (front ++ [.endOfFile])) (behind : CutInto rest back) :
    CutInto (text ++ '\n' :: rest) (front ++ back) := by
  generalize same : front ++ [.endOfFile] = tokens at cut
  induction cut generalizing front with
  | @ended text blank =>
      obtain rfl : front = [] := by simpa using same
      have passed := @split_ignored_feed rest false text
      rw [if_pos blank] at passed
      cases behind with
      | ended last => exact .ended (passed.trans last)
      | token begins scanned others => exact .token (passed.trans begins) scanned others
  | @token text c tail token left tokens begins scanned others ih =>
      have kept := @split_ignored_feed rest false text
      rw [begins, if_neg (List.cons_ne_nil _ _)] at kept
      obtain ⟨spelled, rfl, again⟩ := scan_token_local (split_ignored_comment begins) scanned
      have resumes : Resumes left (left ++ '\n' :: rest) := by
        cases left with
        | nil => exact .inr ⟨rfl, rfl⟩
        | cons d more => exact .inl rfl
      cases front with
      | nil =>
          have covers := scan_token_covers (split_ignored_comment begins)
          rw [scanned] at covers
          obtain ⟨_, ⟨-, -, visible⟩, -⟩ := covers
          exact absurd (List.cons.inj same).1.symm visible
      | cons first front =>
          obtain ⟨rfl, later⟩ := List.cons.inj same
          refine .token kept ?_ (ih later)
          change scanToken c (spelled ++ left ++ '\n' :: rest) = _
          rw [List.append_assoc]
          exact again _ resumes

/-- What a text is cut into is what is scanned from it. -/
theorem CutInto.scans {text : List Char} {tokens : List Token} (cut : CutInto text tokens)
    {count : Nat} (enough : text.length < count) (position : Position) :
    (TokenStream.scanFrom count position text).fault = none ∧
      (TokenStream.scanFrom count position text).tokens.map (·.node) = tokens := by
  induction cut generalizing count position with
  | @ended text blank =>
      obtain ⟨less, rfl⟩ := Nat.exists_eq_add_one.mpr (Nat.zero_lt_of_lt enough)
      simp [TokenStream.scanFrom, blank]
  | @token text c tail token left tokens begins scanned others ih =>
      obtain ⟨less, rfl⟩ := Nat.exists_eq_add_one.mpr (Nat.zero_lt_of_lt enough)
      have shorter : left.length < less := by
        have fewer := token_shortens begins scanned
        omega
      simp only [TokenStream.scanFrom, begins, scanned, List.map_cons]
      exact ⟨(ih shorter _).1, congrArg _ (ih shorter _).2⟩

end Lines

end GraphQL
