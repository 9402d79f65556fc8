import GraphQL.Proofs.Scanning
import GraphQL.Reading.Literal

/-!
Integers and strings that are read as they were printed.

Their texts scan back as one token each, and what the token means is the value that was printed. An
integer is written in decimal without leading zeros; in a string, quotes, backslashes and control
characters are written as escapes.
-/

namespace GraphQL

section Numbers

variable {n : Nat}

theorem digits_are_digits (n : Nat) : ∀ c ∈ Nat.toDigits 10 n, c.isDigit = true :=
  fun _ member => Nat.isDigit_of_mem_toDigits (by decide) (Nat.le_refl 10) member

/-- A positive number is written without a zero in front. -/
theorem digits_lead (positive : 0 < n) :
    ∃ c more, Nat.toDigits 10 n = c :: more ∧ c ≠ '0' := by
  induction n using Nat.strongRecOn with
  | ind n ih =>
      rw [Nat.toDigits_eq_if (by decide)]
      split
      · rename_i small
        refine ⟨n.digitChar, [], rfl, ?_⟩
        have apart : ∀ digit < 10, 0 < digit → Nat.digitChar digit ≠ '0' := by decide
        exact apart n small positive
      · rename_i large
        obtain ⟨c, more, same, lead⟩ := ih (n / 10) (by omega) (by omega)
        exact ⟨c, more ++ [(n % 10).digitChar], by rw [same]; rfl, lead⟩

/-- Digits that were read are the digits that were written. -/
theorem of_digits_digits (n : Nat) : ofDigits 10 (Nat.toDigits 10 n) = n := by
  have same (digits : List Char) (start : Nat) (all : ∀ c ∈ digits, c.isDigit = true) :
      digits.foldl (fun value c => value * 10 + digitValue c) start =
        Nat.ofDigitChars 10 digits start := by
    induction digits generalizing start with
    | nil => rfl
    | cons c rest ih =>
        have digit := all c List.mem_cons_self
        rw [List.foldl_cons, ih _ fun other member => all other (List.mem_cons_of_mem _ member)]
        rw [Nat.ofDigitChars_cons, digitValue, if_pos digit, Nat.mul_comm]
        rfl
  rw [ofDigits, same _ 0 (digits_are_digits n)]
  exact Nat.ofDigitChars_toDigits (by decide) (Nat.le_refl 10)

/-- The decimal digits of a natural are a whole number. -/
theorem digits_whole (n : Nat) : IsWhole (Nat.toDigits 10 n) := by
  refine ⟨List.ne_nil_of_length_pos Nat.length_toDigits_pos, digits_are_digits n, fun zero => ?_⟩
  rcases Nat.eq_zero_or_pos n with rfl | positive
  · rfl
  · obtain ⟨c, more, same, lead⟩ := digits_lead positive
    rw [same] at zero
    cases zero
    exact absurd rfl lead

end Numbers

/-- The decimal text of an integer. -/
theorem int_text (n : Int) : (toString n).toList =
    if n < 0 then '-' :: Nat.toDigits 10 n.natAbs else Nat.toDigits 10 n.natAbs := by
  cases n with
  | ofNat m =>
      have text : toString (Int.ofNat m) = m.repr := rfl
      rw [text, Nat.toList_repr, if_neg (by simp)]
      rfl
  | negSucc m =>
      have text : toString (Int.negSucc m) = "-" ++ (m + 1).repr := rfl
      rw [text, String.toList_append, Nat.toList_repr, if_pos (Int.negSucc_lt_zero m)]
      rfl

theorem int_well_formed (n : Int) : (Token.int (toString n)).WellFormed := by
  have text := int_text n
  refine .inl ?_
  split at text
  · exact .inr ⟨_, text, digits_whole _⟩
  · exact .inl (text ▸ digits_whole _)

theorem int_scans_back (n : Int) : (Token.int (toString n)).ScansBack :=
  (int_well_formed n).scans_back

theorem fits_int64 {n : Nat} (small : n ≤ 2147483648) : fitsInt64 n = true := by
  rw [fitsInt64, leastInt64, greatestInt64, Bool.and_eq_true]
  exact ⟨decide_eq_true (by omega), decide_eq_true (by omega)⟩

/-- Without a mark of another base, digits are decimal. -/
theorem decimal_magnitude (digits : List Char) : (∀ c ∈ digits, c.isDigit = true) →
    (match digits with
      | '0' :: 'x' :: hex => readHex? hex
      | '0' :: 'X' :: hex => readHex? hex
      | _ => readDecimal? digits) = readDecimal? digits := by
  intro all
  split
  · exact absurd (all 'x' (by simp)) (by decide)
  · exact absurd (all 'X' (by simp)) (by decide)
  · rfl

/-- A magnitude with its sign, if it has 63 bits. -/
def signedMagnitude? (negative : Bool) (magnitude : Option Nat) : Option Int :=
  match magnitude with
  | none => none
  | some n => if fitsInt64 n then some (if negative then -(n : Int) else n) else none

/-- Digits are an integer, and so they are behind a minus. -/
theorem integer_of_digits {digits : List Char} {n : Nat}
    (all : ∀ c ∈ digits, c.isDigit = true) (read : readDecimal? digits = some n)
    (fits : fitsInt64 n = true) :
    integerLiteral? digits = some (n : Int) ∧
      integerLiteral? ('-' :: digits) = some (-(n : Int)) := by
  have known (negative : Bool) : signedMagnitude? negative (some n) =
      some (if negative then -(n : Int) else n) := if_pos fits
  have magnitude := (decimal_magnitude digits all).trans read
  constructor
  · have unsigned : integerLiteral? digits = signedMagnitude? false (some n) := by
      unfold integerLiteral?
      split
      rename_i sign
      split at sign
      · exact absurd (all '-' (by simp)) (by decide)
      · cases sign
        exact congrArg (signedMagnitude? false) magnitude
    rw [unsigned, known]
    rfl
  · have negated : integerLiteral? ('-' :: digits) = signedMagnitude? true (some n) :=
      congrArg (signedMagnitude? true) magnitude
    rw [negated, known]
    rfl

/-- Integers of 32 bits are read as they were written. -/
theorem int_read_back (value : Int32) :
    integerLiteral? (toString value.toInt).toList = some value.toInt := by
  have least := Int32.le_toInt value
  have greatest := Int32.toInt_lt value
  have all := digits_are_digits value.toInt.natAbs
  have read : readDecimal? (Nat.toDigits 10 value.toInt.natAbs) = some value.toInt.natAbs := by
    rw [readDecimal?, if_pos, of_digits_digits]
    exact ⟨List.ne_nil_of_length_pos Nat.length_toDigits_pos, List.all_eq_true.mpr all⟩
  obtain ⟨positive, negative⟩ := integer_of_digits all read (fits_int64 (by omega))
  rw [int_text]
  split
  · rw [negative]
    congr 1
    omega
  · rw [positive]
    congr 1
    omega

section Strings

theorem unescape_plain {c : Char} (stands : StandsInString c) (rest : List Char) :
    unescape (c :: rest) = (unescape rest).map (c :: ·) := by
  obtain ⟨-, -, no_escape⟩ := stands
  rw [unescape]
  · exact fun same => absurd same no_escape
  · exact fun _ _ _ _ _ same => absurd same no_escape
  · exact fun _ _ same => absurd same no_escape

/-- Control characters are written as four hexadecimal digits, by which they are known again. -/
theorem control_digits {n : Nat} (small : n < 32) :
    ∃ a b c d, hexQuad n = [a, b, c, d] ∧ (∀ digit ∈ [a, b, c, d], isHexDigit digit = true) ∧
      readHex? [a, b, c, d] = some n := by
  have all : ∀ m < 32, (hexQuad m).length = 4 ∧ (hexQuad m).all isHexDigit = true ∧
      readHex? (hexQuad m) = some m := by decide
  obtain ⟨four, digits, read⟩ := all n small
  match quad : hexQuad n, four with
  | [a, b, c, d], _ =>
      rw [quad] at digits read
      exact ⟨a, b, c, d, rfl, List.all_eq_true.mp digits, read⟩

theorem char_of_code (c : Char) : charOfCode c.toNat = c := by
  have valid : c.toNat.isValidChar := c.valid
  rw [charOfCode, dif_pos valid]
  exact Char.ext rfl

/-- A printed character may stand in a string, and means the character. -/
theorem print_char_back (c : Char) (rest : List Char) :
    (StringBody rest → StringBody (Literal.printChar c ++ rest)) ∧
      unescape (Literal.printChar c ++ rest) = (unescape rest).map (c :: ·) := by
  unfold Literal.printChar
  split
  · rename_i same
    subst same
    exact ⟨.short rfl, rfl⟩
  split
  · rename_i same
    subst same
    exact ⟨.short rfl, rfl⟩
  split
  · rename_i same
    subst same
    exact ⟨.short rfl, rfl⟩
  split
  · rename_i same
    subst same
    exact ⟨.short rfl, rfl⟩
  split
  · rename_i same
    subst same
    exact ⟨.short rfl, rfl⟩
  split
  · rename_i control
    obtain ⟨first, second, third, fourth, quad, digits, read⟩ := @control_digits c.toNat control
    rw [quad]
    simp only [List.cons_append, List.nil_append]
    refine ⟨.code digits, ?_⟩
    rw [unescape, read]
    simp only [char_of_code]
  · rename_i no_quote no_escape _ _ _ printable
    have stands : StandsInString c := ⟨.inr (Char.not_lt.mp printable), no_quote, no_escape⟩
    exact ⟨.plain stands, unescape_plain stands rest⟩

/-- A printed text may stand in a string, and means the text. -/
theorem print_chars_back (text : List Char) :
    StringBody (text.flatMap Literal.printChar) ∧
      unescape (text.flatMap Literal.printChar) = .ok text := by
  induction text with
  | nil => exact ⟨.nothing, rfl⟩
  | cons c others ih =>
      obtain ⟨inside, meant⟩ := print_char_back c (others.flatMap Literal.printChar)
      rw [List.flatMap_cons]
      refine ⟨inside ih.1, ?_⟩
      rw [meant, ih.2]
      rfl

theorem string_well_formed (text : String) :
    (Token.string (Literal.printString text)).WellFormed := by
  refine ⟨text.toList.flatMap Literal.printChar, ?_, (print_chars_back text.toList).1⟩
  rw [Literal.printString, String.toList_ofList]
  rfl

theorem string_scans_back (text : String) : (Token.string (Literal.printString text)).ScansBack :=
  (string_well_formed text).scans_back

theorem printed_unquoted (text : String) :
    unquote (Literal.printString text).toList = .ok text.toList := by
  obtain ⟨-, meant⟩ := print_chars_back text.toList
  rw [Literal.printString, String.toList_ofList, List.cons_append, unquote]
  rw [List.getLast?_concat, if_pos rfl, List.dropLast_concat]
  exact meant

end Strings

end GraphQL
