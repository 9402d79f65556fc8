import GraphQL.Token.Stream
import Mathlib.Data.List.Basic

/-!
The grammar of tokens, and of what stands between them.

Keywords and punctuators have one spelling each. The spellings of names, numbers, strings and
descriptions are given here without the scanner. A token that is spelled well is cut off from its own
text in front of any other text that does not go on where the token could: words and numbers must not
run into letters, digits or dots, and a description lasts as long as its line.
-/

namespace GraphQL

/-- A zero alone, or digits that begin with another one. -/
def IsWhole (text : List Char) : Prop :=
  text ≠ [] ∧ (∀ c ∈ text, c.isDigit = true) ∧ (text.head? = some '0' → text = ['0'])

/-- A zero, a mark and hexadecimal digits. -/
def IsHexadecimal (text : List Char) : Prop :=
  ∃ mark digits, text = '0' :: mark :: digits ∧ (mark = 'x' ∨ mark = 'X') ∧ digits ≠ [] ∧
    ∀ c ∈ digits, isHexDigit c = true

/-- A dot and digits. -/
def IsFraction (text : List Char) : Prop :=
  ∃ digits, text = '.' :: digits ∧ digits ≠ [] ∧ ∀ c ∈ digits, c.isDigit = true

/-- An exponent mark, maybe a sign, and digits. -/
def IsExponent (text : List Char) : Prop :=
  ∃ mark sign digits, text = mark :: (sign ++ digits) ∧ (mark = 'e' ∨ mark = 'E') ∧
    sign ∈ [[], ['+'], ['-']] ∧ digits ≠ [] ∧ ∀ c ∈ digits, c.isDigit = true

/-- A whole number with a fraction, an exponent or both. -/
def IsFloating (text : List Char) : Prop :=
  ∃ whole fraction exponent, text = whole ++ (fraction ++ exponent) ∧ IsWhole whole ∧
    (fraction = [] ∨ IsFraction fraction) ∧ (exponent = [] ∨ IsExponent exponent) ∧
    fraction ++ exponent ≠ []

/-- A minus may stand in front. -/
def MaybeNegative (form : List Char → Prop) (text : List Char) : Prop :=
  form text ∨ ∃ digits, text = '-' :: digits ∧ form digits

/-- Characters that stand for themselves in a string. -/
def StandsInString (c : Char) : Prop :=
  (c = '\t' ∨ ' ' ≤ c) ∧ c ≠ '"' ∧ c ≠ '\\'

/-- What may stand between the quotes of a string. -/
inductive StringBody : List Char → Prop where
  | nothing : StringBody []
  | plain {c rest} (stands : StandsInString c) (more : StringBody rest) : StringBody (c :: rest)
  | short {c rest} (escape : isShortEscape c = true) (more : StringBody rest) :
      StringBody ('\\' :: c :: rest)
  | code {first second third fourth rest}
      (digits : ∀ c ∈ [first, second, third, fourth], isHexDigit c = true)
      (more : StringBody rest) :
      StringBody ('\\' :: 'u' :: first :: second :: third :: fourth :: rest)

/-- The text of a token is one that the token grammar gives to its kind. -/
def Token.WellFormed : Token → Prop
  | .name text =>
      Name.isValid text = true ∧ text ∉ ["true", "false", "null"] ∧ ∀ word : Keyword, word.text ≠ text
  | .string raw => ∃ body, raw.toList = '"' :: (body ++ ['"']) ∧ StringBody body
  | .float raw => MaybeNegative IsFloating raw.toList
  | .int raw => MaybeNegative IsWhole raw.toList ∨ MaybeNegative IsHexadecimal raw.toList
  | .description text => ∀ c ∈ text.toList, isLineEnd c = false
  | .endOfFile => False
  | .keyword _ | .bool _ | .null | .punctuator _ => True

/-- A text does not go on where a token could. -/
def Token.StopsAt (token : Token) (rest : List Char) : Prop :=
  match token with
  | .string _ | .punctuator _ => True
  | .description _ => ∀ c ∈ rest.head?, isLineEnd c = true
  | _ => ∀ c ∈ rest.head?, isNameContinue c = false ∧ c ≠ '.'

/-- The inside of a comment that is no description. -/
def IsComment (line : List Char) : Prop :=
  (∀ c ∈ line, isLineEnd c = false) ∧ line.head? ≠ some '#'

/-- Text between tokens: characters that mean nothing, and comments up to the ends of their lines. -/
inductive Layout : List Char → Prop where
  | nothing : Layout []
  | ignored {c rest} (meaningless : isIgnored c = true) (more : Layout rest) : Layout (c :: rest)
  | comment {line c rest} (inside : IsComment line) (ends : isLineEnd c = true)
      (more : Layout rest) : Layout ('#' :: (line ++ c :: rest))

/-- A token is cut off from its own text in front of a certain other one. -/
structure Token.CutOff (token : Token) (rest : List Char) : Prop where
  begins : ∃ c tail, token.text.toList = c :: tail ∧
    splitIgnored false (c :: (tail ++ rest)) = ([], c :: (tail ++ rest)) ∧
    scanToken c (tail ++ rest) = .ok (token, rest)

/-- A run of characters of a class ends where another character comes. -/
theorem run_split {inClass : Char → Bool} {run rest : List Char}
    (inside : ∀ c ∈ run, inClass c = true) (stops : ∀ c ∈ rest.head?, inClass c = false) :
    (run ++ rest).takeWhile inClass = run ∧ (run ++ rest).dropWhile inClass = rest := by
  rw [List.takeWhile_append_of_pos inside, List.dropWhile_append_of_pos inside]
  cases rest with
  | nil => exact ⟨List.append_nil run, rfl⟩
  | cons c more =>
      have outside : inClass c = false := stops c rfl
      rw [List.takeWhile_cons, List.dropWhile_cons, outside]
      exact ⟨List.append_nil run, rfl⟩

theorem name_start_continues {c : Char} (start : isNameStart c = true) :
    isNameContinue c = true := by
  rw [isNameContinue, start, Bool.true_or]

/-- What does not continue a name begins none and is no digit. -/
theorem no_name_continues {c : Char} (outside : isNameContinue c = false) :
    isNameStart c = false ∧ c.isDigit = false := by
  rwa [isNameContinue, Bool.or_eq_false_iff] at outside

/-- Characters that are tokens, begin them or are passed over. -/
def markChars : List Char :=
  ['!', '$', '(', ')', '[', ']', '\x7b', '\x7d', ':', '=', '@', '|', '#', '.', '"', '\t', ' ', '\n',
    '\r', ',', '\uFEFF']

/-- A character of a class without marks begins no token of another kind. -/
theorem unmarked_alone {inClass : Char → Bool} {c : Char} (inside : inClass c = true)
    (unmarked : (markChars.all fun mark => !inClass mark) = true) :
    Punctuator.ofChar? c = none ∧ c ≠ '#' ∧ c ≠ '.' ∧ c ≠ '"' ∧ isIgnored c = false := by
  have apart (mark : Char) (member : mark ∈ markChars) : c ≠ mark := by
    rintro rfl
    have outside := List.all_eq_true.mp unmarked _ member
    rw [inside] at outside
    cases outside
  refine ⟨?_, apart _ (by decide), apart _ (by decide), apart _ (by decide), ?_⟩
  · unfold Punctuator.ofChar?
    split <;> first | rfl | exact absurd rfl (apart _ (by decide))
  · simp [isIgnored, isLineEnd, apart '\t' (by decide), apart ' ' (by decide),
      apart '\n' (by decide), apart '\r' (by decide), apart ',' (by decide),
      apart '\uFEFF' (by decide)]

theorem name_start_alone {c : Char} (start : isNameStart c = true) :
    c ≠ '-' ∧ c.isDigit = false := by
  constructor
  · rintro rfl
    exact absurd start (by decide)
  · rw [Bool.eq_false_iff]
    intro digit
    change (c == '_' || (decide (65 ≤ c.val ∧ c.val ≤ 90) ||
      decide (97 ≤ c.val) && decide (c.val ≤ 122))) = true at start
    simp only [Char.isDigit, Bool.or_eq_true, Bool.and_eq_true, decide_eq_true_eq, beq_iff_eq,
      UInt32.le_iff_toNat_le, ge_iff_le] at start digit
    rcases start with rfl | start
    · revert digit
      decide
    · simp at start digit
      omega

/-- Nothing is passed over in front of a token. -/
theorem split_none {c : Char} {rest : List Char} (kept : isIgnored c = false)
    (comment : c = '#' → rest.head? = some '#') :
    splitIgnored false (c :: rest) = ([], c :: rest) := by
  have no_comment : ¬(c = '#' ∧ rest.head? ≠ some '#') := fun ⟨mark, other⟩ => other (comment mark)
  rw [splitIgnored, kept]
  simp only [Bool.false_eq_true, if_false, if_neg no_comment]

section Words

theorem Keyword.of_text_eq {text : String} {word : Keyword}
    (found : Keyword.ofText? text = some word) : word.text = text := by
  have same := List.find?_some found
  exact eq_of_beq same

theorem Token.of_word_text (text : String) : (Token.ofWord text).text = text := by
  unfold Token.ofWord
  split
  · rename_i same
    exact same.symm
  · split
    · rename_i same
      exact same.symm
    · split
      · rename_i same
        exact same.symm
      · cases found : Keyword.ofText? text with
        | none => rfl
        | some word => exact Keyword.of_text_eq found

/-- Words of all kinds go on with the same characters. -/
theorem Token.of_word_stops {text : String} {rest : List Char}
    (stops : (Token.ofWord text).StopsAt rest) :
    ∀ c ∈ rest.head?, isNameContinue c = false ∧ c ≠ '.' := by
  unfold Token.ofWord at stops
  split at stops
  · exact stops
  · split at stops
    · exact stops
    · split at stops
      · exact stops
      · cases found : Keyword.ofText? text with
        | none | some =>
            rw [found] at stops
            exact stops

/-- Whatever starts as a name does is scanned as a word. -/
theorem scan_token_word {c : Char} (start : isNameStart c = true) (tail : List Char) :
    scanToken c tail = .ok (scanWord (c :: tail)) := by
  obtain ⟨no_mark, no_number_sign, no_dot, no_quote, -⟩ := unmarked_alone start (by decide)
  obtain ⟨no_minus, no_digit⟩ := name_start_alone start
  rw [scanToken, no_mark]
  simp only [no_number_sign, no_dot, no_quote, no_minus, no_digit, start, if_false, if_true,
    or_self, Bool.false_eq_true]

theorem word_cut_off {name : String} (valid : Name.isValid name = true) {rest : List Char}
    (stops : (Token.ofWord name).StopsAt rest) : (Token.ofWord name).CutOff rest := by
  unfold Name.isValid at valid
  cases letters : name.toList with
  | nil => simp [letters] at valid
  | cons c tail =>
      simp only [letters, Bool.and_eq_true, List.all_eq_true] at valid
      obtain ⟨start, continues⟩ := valid
      obtain ⟨-, no_number_sign, -, -, kept⟩ := unmarked_alone start (by decide)
      have inside : ∀ letter ∈ c :: tail, isNameContinue letter = true :=
        List.forall_mem_cons.mpr ⟨name_start_continues start, continues⟩
      obtain ⟨taken, left⟩ := run_split inside fun letter next =>
        (Token.of_word_stops stops letter next).1
      rw [List.cons_append] at taken left
      refine ⟨c, tail, by rw [Token.of_word_text, letters], split_none kept ?_, ?_⟩
      · exact fun mark => absurd mark no_number_sign
      · rw [scan_token_word start, scanWord, taken, left, ← letters, String.ofList_toList]

/-- A name that is no reserved word is read as a name. -/
theorem Token.of_word_unreserved {text : String} (free : text ∉ ["true", "false", "null"])
    (no_keyword : ∀ word : Keyword, word.text ≠ text) : Token.ofWord text = .name text := by
  simp only [List.mem_cons, List.not_mem_nil, or_false, not_or] at free
  obtain ⟨no_true, no_false, no_null⟩ := free
  cases found : Keyword.ofText? text with
  | some word => exact absurd (Keyword.of_text_eq found) (no_keyword word)
  | none => simp only [Token.ofWord, if_neg no_true, if_neg no_false, if_neg no_null, found]

theorem keyword_is_word (word : Keyword) :
    Token.keyword word = .ofWord word.text ∧ Name.isValid word.text = true := by
  cases word <;> exact ⟨rfl, by decide⟩

theorem Token.of_word_well_formed {text : String} (valid : Name.isValid text = true) :
    (Token.ofWord text).WellFormed := by
  unfold Token.ofWord
  split
  · trivial
  split
  · trivial
  split
  · trivial
  · rename_i no_true no_false no_null
    cases found : Keyword.ofText? text with
    | some word => trivial
    | none =>
        refine ⟨valid, by simp [no_true, no_false, no_null], fun word same => ?_⟩
        have there : word ∈ Keyword.all := by cases word <;> decide
        exact List.find?_eq_none.mp found word there (beq_iff_eq.mpr same)

end Words

section Numbers

variable {rest : List Char}

/-- At least one character of a class is scanned as a run. -/
theorem scan_run_stops {inClass : Char → Bool} (before : List Char) {run : List Char}
    (filled : run ≠ []) (inside : ∀ c ∈ run, inClass c = true)
    (stops : ∀ c ∈ rest.head?, inClass c = false) :
    scanRun inClass before (run ++ rest) = .ok (before ++ run, rest) := by
  obtain ⟨taken, left⟩ := run_split inside stops
  obtain ⟨c, more, rfl⟩ := List.exists_cons_of_ne_nil filled
  rw [List.cons_append] at taken left ⊢
  rw [scanRun, inside c List.mem_cons_self, if_pos rfl, taken, left]

/-- What follows a number that ends there. -/
def NumberStops (rest : List Char) : Prop :=
  ∀ c ∈ rest.head?, isNameContinue c = false ∧ c ≠ '.'

theorem NumberStops.no_digit (stops : NumberStops rest) : ∀ c ∈ rest.head?, c.isDigit = false :=
  fun c next => (no_name_continues (stops c next).1).2

theorem hex_digit_continues {c : Char} (digit : isHexDigit c = true) : isNameContinue c = true := by
  have range : (48 ≤ c.toNat ∧ c.toNat ≤ 57 ∨ 97 ≤ c.toNat ∧ c.toNat ≤ 102) ∨
      65 ≤ c.toNat ∧ c.toNat ≤ 70 := by
    simpa [isHexDigit, Char.isDigit, Char.le_def, UInt32.le_iff_toNat_le] using digit
  rw [isNameContinue, isNameStart]
  delta Char.isAlpha Char.isLower Char.isUpper
  simp only [Char.isDigit, Bool.or_eq_true, Bool.and_eq_true, decide_eq_true_eq, ge_iff_le,
    beq_iff_eq, UInt32.le_iff_toNat_le]
  simp
  omega

theorem NumberStops.no_hex_digit (stops : NumberStops rest) :
    ∀ c ∈ rest.head?, isHexDigit c = false := by
  intro c next
  have outside := (stops c next).1
  rw [Bool.eq_false_iff] at outside ⊢
  exact fun digit => outside (hex_digit_continues digit)

theorem end_number_stops (make : String → Token) (digits : List Char) (stops : NumberStops rest) :
    endNumber make digits rest = .ok (make (String.ofList digits), rest) := by
  cases rest with
  | nil => rfl
  | cons c more =>
      obtain ⟨no_start, -⟩ := no_name_continues (stops c rfl).1
      rw [endNumber, no_start]
      rfl

/-- An exponent mark is followed by an optional sign and then by digits. -/
theorem scan_exponent_digits (make : String → Token) (before : List Char) {mark : Char}
    (marked : mark = 'e' ∨ mark = 'E') {sign digits : List Char}
    (signed : sign ∈ [[], ['+'], ['-']]) (filled : digits ≠ [])
    (inside : ∀ c ∈ digits, c.isDigit = true) (stops : NumberStops rest) :
    scanExponent make before (mark :: (sign ++ (digits ++ rest))) =
      endNumber .float (before ++ mark :: sign ++ digits) rest := by
  have scanned := scan_run_stops (before ++ mark :: sign) filled inside stops.no_digit
  simp only [List.mem_cons, List.not_mem_nil, or_false] at signed
  rcases signed with rfl | rfl | rfl
  · obtain ⟨first, others, rfl⟩ := List.exists_cons_of_ne_nil filled
    have digit : first.isDigit = true := inside first List.mem_cons_self
    have no_plus : first ≠ '+' := by
      rintro rfl
      exact absurd digit (by decide)
    have no_minus : first ≠ '-' := by
      rintro rfl
      exact absurd digit (by decide)
    rw [List.cons_append] at scanned
    simp [scanExponent, marked, no_plus, no_minus, scanned]
  · simp [scanExponent, marked, scanned]
  · simp [scanExponent, marked, scanned]

/-- A number may go on with an exponent, which makes it a float. -/
theorem scan_exponent_stops (make : String → Token) (before : List Char) {exponent : List Char}
    (optional : exponent = [] ∨ IsExponent exponent) (stops : NumberStops rest) :
    scanExponent make before (exponent ++ rest) =
      .ok ((if exponent = [] then make else .float) (String.ofList (before ++ exponent)), rest) := by
  rcases optional with rfl | ⟨mark, sign, digits, rfl, marked, signed, filled, inside⟩
  · rw [List.nil_append, List.append_nil, if_pos rfl]
    cases rest with
    | nil => rfl
    | cons c more =>
        have no_mark : ¬(c = 'e' ∨ c = 'E') := by
          rintro (rfl | rfl) <;> exact absurd (stops _ rfl).1 (by decide)
        unfold scanExponent
        dsimp only
        rw [if_neg no_mark]
        exact end_number_stops make before stops
  · rw [List.cons_append, List.append_assoc,
      scan_exponent_digits make before marked signed filled inside stops,
      end_number_stops .float _ stops, if_neg (List.cons_ne_nil _ _)]
    simp

/-- What may follow the whole part of a number does not begin with a digit or a mark of a base. -/
theorem number_tail_begins {fraction exponent : List Char}
    (fractional : fraction = [] ∨ IsFraction fraction)
    (exponential : exponent = [] ∨ IsExponent exponent) (stops : NumberStops rest) :
    ∀ c ∈ (fraction ++ (exponent ++ rest)).head?, c.isDigit = false ∧ ¬(c = 'x' ∨ c = 'X') := by
  rcases fractional with rfl | ⟨digits, rfl, -, -⟩
  · rcases exponential with rfl | ⟨mark, sign, digits, rfl, marked, -, -, -⟩
    · intro c next
      obtain ⟨outside, -⟩ := stops c next
      refine ⟨(no_name_continues outside).2, ?_⟩
      rintro (rfl | rfl) <;> exact absurd outside (by decide)
    · intro c next
      cases next
      rcases marked with rfl | rfl <;> decide
  · intro c next
    cases next
    decide

/-- A number may go on with a fraction and an exponent, each of which makes it a float. -/
theorem scan_fraction_stops (before : List Char) {fraction exponent : List Char}
    (fractional : fraction = [] ∨ IsFraction fraction)
    (exponential : exponent = [] ∨ IsExponent exponent) (stops : NumberStops rest) :
    scanFraction before (fraction ++ (exponent ++ rest)) =
      .ok ((if fraction ++ exponent = [] then Token.int else Token.float)
        (String.ofList (before ++ (fraction ++ exponent))), rest) := by
  rcases fractional with rfl | ⟨digits, rfl, filled, inside⟩
  · have no_dot : ∀ c ∈ (exponent ++ rest).head?, c ≠ '.' := by
      rcases exponential with rfl | ⟨mark, sign, digits, rfl, marked, -, -, -⟩
      · exact fun c next => (stops c next).2
      · intro c next
        cases next
        rcases marked with rfl | rfl <;> decide
    have scanned := scan_exponent_stops .int before exponential stops
    rw [List.nil_append, List.nil_append, ← scanned]
    unfold scanFraction
    split
    · rename_i tail same
      exact absurd rfl (no_dot '.' (by rw [same]; rfl))
    · rfl
  · have begins := number_tail_begins (.inl rfl) exponential stops
    have scanned := scan_run_stops (before ++ ['.']) filled inside fun c next => (begins c next).1
    rw [List.nil_append] at scanned
    rw [List.cons_append, List.cons_append, scanFraction, scanned]
    dsimp only
    rw [scan_exponent_stops .float _ exponential stops, if_neg (List.cons_ne_nil _ _)]
    simp

/-- Behind its whole part a decimal number goes on with a fraction, if at all. -/
theorem scan_unsigned_whole (sign : List Char) {whole tail : List Char} (number : IsWhole whole)
    (begins : ∀ c ∈ tail.head?, c.isDigit = false ∧ ¬(c = 'x' ∨ c = 'X')) :
    scanUnsigned sign (whole ++ tail) = scanFraction (sign ++ whole) tail := by
  obtain ⟨filled, inside, zero⟩ := number
  obtain ⟨first, others, rfl⟩ := List.exists_cons_of_ne_nil filled
  have digit : first.isDigit = true := inside first List.mem_cons_self
  by_cases lead : first = '0'
  · subst lead
    obtain ⟨-, rfl⟩ := List.cons.inj (zero rfl)
    cases tail with
    | nil => rfl
    | cons c more =>
        obtain ⟨no_digit, no_base⟩ := begins c rfl
        rw [List.singleton_append, scanUnsigned, if_neg no_base, no_digit]
        rfl
  · obtain ⟨taken, left⟩ := run_split (fun c member => inside c (List.mem_cons_of_mem _ member))
      fun c next => (begins c next).1
    rw [List.cons_append, scanUnsigned]
    · rw [if_pos digit, taken, left]
    · exact fun mark rest same => absurd same lead

theorem scan_unsigned_hexadecimal (sign : List Char) {text : List Char}
    (number : IsHexadecimal text) (stops : NumberStops rest) :
    scanUnsigned sign (text ++ rest) = .ok (.int (String.ofList (sign ++ text)), rest) := by
  obtain ⟨mark, digits, rfl, base, filled, inside⟩ := number
  have scanned := scan_run_stops (sign ++ ['0', mark]) filled inside stops.no_hex_digit
  rw [List.cons_append, List.cons_append, scanUnsigned, if_pos base, scanned]
  dsimp only
  rw [end_number_stops .int _ stops]
  simp

/-- A number is cut off if it is scanned as one behind its sign. -/
theorem number_cut_off {form : List Char → Prop} {token : Token}
    (written : MaybeNegative form token.text.toList)
    (digits : ∀ text, form text → ∃ c tail, text = c :: tail ∧ c.isDigit = true)
    (scanned : ∀ sign text, form text → token.text.toList = sign ++ text →
      scanUnsigned sign (text ++ rest) = .ok (token, rest)) : token.CutOff rest := by
  rcases written with number | ⟨text, same, number⟩
  · obtain ⟨c, tail, same, digit⟩ := digits _ number
    obtain ⟨no_mark, no_number_sign, no_dot, no_quote, kept⟩ := unmarked_alone digit (by decide)
    refine ⟨c, tail, same, split_none kept fun mark => absurd mark no_number_sign, ?_⟩
    have found := scanned [] _ number (List.nil_append _).symm
    have no_minus : c ≠ '-' := by
      rintro rfl
      exact absurd digit (by decide)
    rw [same, List.cons_append] at found
    rw [scanToken, no_mark]
    simp only [no_number_sign, no_dot, no_quote, digit, if_false, if_true, or_true]
    rw [scanNumber, found]
    exact fun rest impossible => absurd (List.cons.inj impossible).1 no_minus
  · exact ⟨'-', text, same, rfl, scanned ['-'] text number same⟩

theorem whole_begins {text : List Char} (number : IsWhole text) :
    ∃ c tail, text = c :: tail ∧ c.isDigit = true := by
  obtain ⟨c, tail, rfl⟩ := List.exists_cons_of_ne_nil number.1
  exact ⟨c, tail, rfl, number.2.1 c List.mem_cons_self⟩

theorem int_cut_off {raw : String}
    (written : MaybeNegative IsWhole raw.toList ∨ MaybeNegative IsHexadecimal raw.toList)
    (stops : NumberStops rest) : (Token.int raw).CutOff rest := by
  rcases written with decimal | hexadecimal
  · refine number_cut_off decimal (fun _ => whole_begins) fun sign text number same => ?_
    have begins := number_tail_begins (.inl rfl) (.inl rfl) stops
    have ended := scan_fraction_stops (sign ++ text) (.inl rfl) (.inl rfl) stops
    have scanned := scan_unsigned_whole sign number begins
    change raw.toList = sign ++ text at same
    simpa [← same] using scanned.trans ended
  · refine number_cut_off hexadecimal ?_ fun sign text number same => ?_
    · rintro text ⟨mark, digits, rfl, -, -, -⟩
      exact ⟨'0', _, rfl, by decide⟩
    · change raw.toList = sign ++ text at same
      rw [scan_unsigned_hexadecimal sign number stops, ← same, String.ofList_toList]

theorem float_cut_off {raw : String} (written : MaybeNegative IsFloating raw.toList)
    (stops : NumberStops rest) : (Token.float raw).CutOff rest := by
  refine number_cut_off written ?_ ?_
  · rintro text ⟨whole, fraction, exponent, rfl, number, -, -, -⟩
    obtain ⟨c, tail, rfl, digit⟩ := whole_begins number
    exact ⟨c, _, rfl, digit⟩
  · rintro sign text ⟨whole, fraction, exponent, rfl, number, fractional, exponential, more⟩ same
    change raw.toList = sign ++ (whole ++ (fraction ++ exponent)) at same
    have begins := number_tail_begins fractional exponential stops
    have scanned := scan_fraction_stops (sign ++ whole) fractional exponential stops
    rw [if_neg more, List.append_assoc, ← same, String.ofList_toList] at scanned
    rw [List.append_assoc, List.append_assoc, scan_unsigned_whole sign number begins, scanned]

end Numbers

section Strings

theorem stands_no_line_end {c : Char} (stands : StandsInString c) :
    isLineEnd c = false ∧ isSourceChar c = true := by
  obtain ⟨rfl | printable, -, -⟩ := stands
  · decide
  · have apart (other : Char) (low : ¬ ' ' ≤ other) : c ≠ other := by
      rintro rfl
      exact low printable
    have no_end : isLineEnd c = false := by
      simp [isLineEnd, apart '\n' (by decide), apart '\r' (by decide)]
    exact ⟨no_end, by simp [isSourceChar, printable]⟩

theorem scan_string_plain {c : Char} (stands : StandsInString c) (rest : List Char) :
    scanString (c :: rest) = prependScan [c] (scanString rest) := by
  obtain ⟨no_end, source⟩ := stands_no_line_end stands
  obtain ⟨-, no_quote, no_escape⟩ := stands
  rw [scanString]
  · rw [no_end, source]
    rfl
  · exact no_quote
  · exact fun same => absurd same no_escape
  · exact fun _ _ same => absurd same no_escape

theorem scan_string_short {c : Char} (escape : isShortEscape c = true) (rest : List Char) :
    scanString ('\\' :: c :: rest) = prependScan ['\\', c] (scanString rest) := by
  have no_code : c ≠ 'u' := by
    rintro rfl
    exact absurd escape (by decide)
  rw [scanString, if_neg no_code, if_pos escape]

theorem hex_digit_stands {c : Char} (digit : isHexDigit c = true) : StandsInString c := by
  refine ⟨.inr ?_, ?_, ?_⟩
  · simp only [isHexDigit, Char.isDigit, Bool.or_eq_true, Bool.and_eq_true, decide_eq_true_eq,
      Char.le_def, UInt32.le_iff_toNat_le, ge_iff_le] at digit ⊢
    simp at digit ⊢
    omega
  · rintro rfl
    exact absurd digit (by decide)
  · rintro rfl
    exact absurd digit (by decide)

theorem prepend_prepend (front more : List Char) (scanned : Scan (List Char)) :
    prependScan front (prependScan more scanned) = prependScan (front ++ more) scanned := by
  cases scanned with
  | ok found => simp only [prependScan, List.append_assoc]
  | error fault => simp only [prependScan, Fault.after, List.append_assoc]

section Codes

variable {first second third fourth : Char}

/-- Digits are scanned as they are, behind the mark of a code too. -/
theorem scan_string_digits (digits : ∀ c ∈ [first, second, third, fourth], isHexDigit c = true)
    (rest : List Char) : scanString (first :: second :: third :: fourth :: rest) =
      prependScan [first, second, third, fourth] (scanString rest) := by
  have plain (digit : Char) (among : digit ∈ [first, second, third, fourth]) :
      StandsInString digit := hex_digit_stands (digits digit among)
  rw [scan_string_plain (plain first (by simp)), scan_string_plain (plain second (by simp)),
    scan_string_plain (plain third (by simp)), scan_string_plain (plain fourth (by simp))]
  simp only [prepend_prepend]
  rfl

theorem scan_string_code (digits : ∀ c ∈ [first, second, third, fourth], isHexDigit c = true)
    (rest : List Char) : scanString ('\\' :: 'u' :: first :: second :: third :: fourth :: rest) =
      prependScan ['\\', 'u', first, second, third, fourth] (scanString rest) := by
  obtain ⟨run, -⟩ := @run_split isHexDigit _ [] digits fun _ absent => by cases absent
  rw [List.append_nil] at run
  rw [scanString, if_pos rfl]
  simp only [List.take_succ_cons, List.take_zero, run, List.length_cons, List.length_nil]
  rw [if_pos trivial, scan_string_digits digits, prepend_prepend]
  rfl

end Codes

/-- The inside of a string is scanned up to its closing quote. -/
theorem scan_string_body {body : List Char} (spelled : StringBody body) (rest : List Char) :
    scanString (body ++ '"' :: rest) = .ok (body, rest) := by
  induction spelled with
  | nothing => rfl
  | plain stands _ ih => rw [List.cons_append, scan_string_plain stands, ih]; rfl
  | short escape _ ih =>
      rw [List.cons_append, List.cons_append, scan_string_short escape, ih]
      rfl
  | code digits _ ih =>
      simp only [List.cons_append]
      rw [scan_string_code digits, ih]
      rfl

theorem string_cut_off {raw : String} {body : List Char} (text : raw.toList = '"' :: (body ++ ['"']))
    (spelled : StringBody body) (rest : List Char) : (Token.string raw).CutOff rest := by
  refine ⟨'"', body ++ ['"'], text, rfl, ?_⟩
  have scanned := scan_string_body spelled rest
  have same : String.ofList ('"' :: (body ++ ['"'])) = raw := by
    rw [← text, String.ofList_toList]
  have no_mark : Punctuator.ofChar? '"' = none := rfl
  rw [List.append_assoc, List.singleton_append, scanToken, no_mark]
  dsimp only
  rw [if_neg (by decide), if_neg (by decide), if_pos rfl, scanned]
  dsimp only [List.cons_append]
  rw [same]

end Strings

theorem punctuator_cut_off (mark : Punctuator) (rest : List Char) :
    (Token.punctuator mark).CutOff rest := by
  cases mark
  all_goals exact ⟨_, _, rfl, rfl, rfl⟩

theorem description_cut_off {text : String} (one_line : ∀ c ∈ text.toList, isLineEnd c = false)
    {rest : List Char} (stops : (Token.description text).StopsAt rest) :
    (Token.description text).CutOff rest := by
  refine ⟨'#', '#' :: text.toList, by simp [Token.text], rfl, ?_⟩
  obtain ⟨taken, left⟩ := @run_split (fun c => !isLineEnd c) text.toList rest
    (fun c member => by rw [one_line c member]; rfl) fun c next => by rw [stops c next]; rfl
  have scanned : scanToken '#' ('#' :: text.toList ++ rest) =
      .ok (scanDescription ('#' :: (text.toList ++ rest))) := rfl
  rw [scanned, scanDescription, List.drop_one, List.tail_cons, taken, left, String.ofList_toList]

/-- Tokens that are spelled well are cut off from their texts, wherever these may end. -/
theorem Token.WellFormed.cut_off {token : Token} (spelled : token.WellFormed) {rest : List Char}
    (stops : token.StopsAt rest) : token.CutOff rest := by
  cases token with
  | name text =>
      obtain ⟨valid, free, no_keyword⟩ := spelled
      have word := of_word_unreserved free no_keyword
      rw [← word] at stops ⊢
      exact word_cut_off valid stops
  | keyword word =>
      obtain ⟨same, valid⟩ := keyword_is_word word
      rw [same] at stops ⊢
      exact word_cut_off valid stops
  | string raw =>
      obtain ⟨body, text, inside⟩ := spelled
      exact string_cut_off text inside rest
  | float raw => exact float_cut_off spelled stops
  | int raw => exact int_cut_off spelled stops
  | bool value =>
      cases value with
      | true => exact @word_cut_off "true" (by decide) rest stops
      | false => exact @word_cut_off "false" (by decide) rest stops
  | null => exact @word_cut_off "null" (by decide) rest stops
  | description text => exact description_cut_off spelled stops
  | punctuator mark => exact punctuator_cut_off mark rest
  | endOfFile => exact spelled.elim

section Between

/-- A comment lasts up to the end of its line. -/
theorem split_comment {line : List Char} (one_line : ∀ c ∈ line, isLineEnd c = false) {c : Char}
    (ends : isLineEnd c = true) (rest : List Char) :
    splitIgnored true (line ++ c :: rest) =
      (line ++ c :: (splitIgnored false rest).1, (splitIgnored false rest).2) := by
  induction line with
  | nil =>
      rw [List.nil_append, splitIgnored, if_pos rfl, ends]
      rfl
  | cons first others ih =>
      have later := ih fun other member => one_line other (List.mem_cons_of_mem _ member)
      rw [List.cons_append, splitIgnored, if_pos rfl, one_line first List.mem_cons_self,
        Bool.not_false, later]
      rfl

/-- Layout is passed over wherever scanning for a token begins with it. -/
theorem Layout.passed {space : List Char} (layout : Layout space) (text : List Char) :
    splitIgnored false (space ++ text) =
      (space ++ (splitIgnored false text).1, (splitIgnored false text).2) := by
  induction layout with
  | nothing => rfl
  | ignored meaningless _ ih =>
      rw [List.cons_append, splitIgnored, meaningless, ih]
      rfl
  | @comment line c rest inside ends _ ih =>
      obtain ⟨one_line, no_description⟩ := inside
      have opens : (line ++ c :: (rest ++ text)).head? ≠ some '#' := by
        cases line with
        | nil =>
            intro same
            cases same
            exact absurd ends (by decide)
        | cons first others => exact no_description
      have kept : isIgnored '#' = false := by decide
      rw [List.cons_append, List.append_assoc, List.cons_append, splitIgnored, kept]
      simp only [Bool.false_eq_true, if_false]
      rw [if_pos ⟨trivial, opens⟩, split_comment one_line ends, ih]
      simp

theorem Layout.append {first second : List Char} (layout : Layout first) (more : Layout second) :
    Layout (first ++ second) := by
  induction layout with
  | nothing => exact more
  | ignored meaningless _ ih => exact .ignored meaningless ih
  | comment inside ends _ ih =>
      rw [List.cons_append, List.append_assoc, List.cons_append]
      exact .comment inside ends ih

/-- Layout begins with a character that means nothing, or with a comment. -/
theorem Layout.begins {space : List Char} (layout : Layout space) :
    ∀ c ∈ space.head?, isIgnored c = true ∨ c = '#' := by
  intro c first
  cases layout with
  | nothing => cases first
  | ignored meaningless _ =>
      cases first
      exact .inl meaningless
  | comment =>
      cases first
      exact .inr rfl

end Between

end GraphQL
