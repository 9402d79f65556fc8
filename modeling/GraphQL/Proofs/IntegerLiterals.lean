import GraphQL.Proofs.ScalarLiterals
import GraphQL.Proofs.ScannedTokens
import Mathlib.Data.Int.ModEq

/-!
Integers as their tokens denote them, in decimal or in hexadecimal.

What a text denotes is said by place values and by the sign, without a bound. Reading compares the
magnitude alone with the bound, so of the integers of 64 bits the least one is refused; from each of
the others the low 32 bits are kept.
-/

namespace GraphQL

/-- The natural that decimal digits denote, or hexadecimal ones behind their mark. -/
inductive DenotesNatural : List Char → Nat → Prop where
  | decimal {digits} (whole : IsWhole digits) : DenotesNatural digits (placeValue 10 digits)
  | hexadecimal {mark digits} (base : mark = 'x' ∨ mark = 'X') (filled : digits ≠ [])
      (inside : ∀ c ∈ digits, isHexDigit c = true) :
      DenotesNatural ('0' :: mark :: digits) (placeValue 16 digits)

/-- The integer that the text of a token denotes. -/
inductive DenotesInteger : List Char → Int → Prop where
  | positive {text n} (natural : DenotesNatural text n) : DenotesInteger text n
  | negative {text n} (natural : DenotesNatural text n) : DenotesInteger ('-' :: text) (-n)

section Naturals

variable {text : List Char} {n : Nat}

/-- The natural that is read from digits, in the base of their mark. -/
def naturalLiteral? (text : List Char) : Option Nat :=
  match text with
  | '0' :: 'x' :: hex => readHex? hex
  | '0' :: 'X' :: hex => readHex? hex
  | _ => readDecimal? text

/-- Digits are read for the natural that they denote. -/
theorem DenotesNatural.read (natural : DenotesNatural text n) : naturalLiteral? text = some n := by
  cases natural with
  | decimal whole =>
      obtain ⟨filled, digits, -⟩ := whole
      refine (decimal_magnitude text digits).trans ?_
      rw [readDecimal?, if_pos ⟨filled, List.all_eq_true.mpr digits⟩, of_digits_value]
  | @hexadecimal mark digits base filled inside =>
      have read : readHex? digits = some (placeValue 16 digits) := by
        rw [readHex?, if_pos ⟨filled, List.all_eq_true.mpr inside⟩, of_digits_value]
      rcases base with rfl | rfl <;> exact read

theorem DenotesNatural.begins (natural : DenotesNatural text n) :
    ∃ c rest, text = c :: rest ∧ c.isDigit = true := by
  cases natural with
  | decimal whole => exact whole_begins whole
  | hexadecimal => exact ⟨'0', _, rfl, by decide⟩

theorem DenotesNatural.no_sign (natural : DenotesNatural text n) (rest : List Char) :
    text ≠ '-' :: rest := by
  rintro rfl
  obtain ⟨c, more, same, digit⟩ := natural.begins
  cases same
  exact absurd digit (by decide)

end Naturals

section Integers

variable {raw : String} {text : List Char} {n : Int}

/-- Texts that denote integers are those of integer tokens. -/
theorem int_token_denotes : (Token.int raw).WellFormed ↔ ∃ n, DenotesInteger raw.toList n := by
  constructor
  · have hexadecimal {text : List Char} (spelled : IsHexadecimal text) :
        ∃ n, DenotesNatural text n := by
      obtain ⟨mark, digits, rfl, base, filled, inside⟩ := spelled
      exact ⟨_, .hexadecimal base filled inside⟩
    rintro ((whole | ⟨text, same, whole⟩) | (spelled | ⟨text, same, spelled⟩))
    · exact ⟨_, .positive (.decimal whole)⟩
    · exact ⟨_, same ▸ DenotesInteger.negative (.decimal whole)⟩
    · obtain ⟨n, natural⟩ := hexadecimal spelled
      exact ⟨_, .positive natural⟩
    · obtain ⟨n, natural⟩ := hexadecimal spelled
      exact ⟨_, same ▸ DenotesInteger.negative natural⟩
  · rintro ⟨n, denotes⟩
    generalize same : raw.toList = text at denotes
    have written {form : List Char → Prop} {text : List Char} (natural : form text)
        (same : raw.toList = text ∨ raw.toList = '-' :: text) : MaybeNegative form raw.toList := by
      rcases same with rfl | same
      · exact .inl natural
      · exact .inr ⟨_, same, natural⟩
    have spelled {text : List Char} {m : Nat} (natural : DenotesNatural text m)
        (same : raw.toList = text ∨ raw.toList = '-' :: text) : (Token.int raw).WellFormed := by
      cases natural with
      | decimal whole => exact .inl (written whole same)
      | hexadecimal base filled inside =>
          exact .inr (written ⟨_, _, rfl, base, filled, inside⟩ same)
    cases denotes with
    | positive natural => exact spelled natural (.inl same)
    | negative natural => exact spelled natural (.inr same)

/-- All integer tokens of a text denote integers. -/
theorem scanned_integers_denote (text : List Char) :
    ∀ token ∈ (TokenStream.ofText text).tokens, ∀ raw, token.node = .int raw →
      ∃ n, DenotesInteger raw.toList n := by
  intro token member raw same
  rcases scan_from_well_formed _ _ _ token member with ended | spelled
  · rw [ended] at same
    cases same
  · exact int_token_denotes.mp (same ▸ spelled)

/-- The magnitude alone is compared with the bound. -/
theorem DenotesInteger.read (denotes : DenotesInteger text n) :
    integerLiteral? text = if fitsInt64 n.natAbs then some n else none := by
  cases denotes with
  | @positive text n natural =>
      have unsigned : integerLiteral? text = signedMagnitude? false (some n) := by
        unfold integerLiteral?
        split
        rename_i sign
        split at sign
        · exact absurd rfl (natural.no_sign _)
        · cases sign
          exact congrArg (signedMagnitude? false) natural.read
      rw [unsigned]
      rfl
  | @negative text n natural =>
      have negated : integerLiteral? ('-' :: text) = signedMagnitude? true (some n) :=
        congrArg (signedMagnitude? true) natural.read
      rw [negated, signedMagnitude?, Int.natAbs_neg, Int.natAbs_natCast]
      rfl

theorem DenotesInteger.unique (denotes : DenotesInteger text n) {m : Int}
    (other : DenotesInteger text m) : m = n := by
  have same {text : List Char} {k l : Nat} (first : DenotesNatural text k)
      (second : DenotesNatural text l) : k = l :=
    Option.some.inj (first.read.symm.trans second.read)
  cases denotes with
  | positive first =>
      cases other with
      | positive second => rw [same first second]
      | negative => exact absurd rfl (first.no_sign _)
  | negative first =>
      cases other with
      | positive second => exact absurd rfl (second.no_sign _)
      | negative second => rw [same first second]

/-- The low bits of an integer are the one value of 32 bits that is congruent to it. -/
theorem low_bits_congruent (n : Int) :
    (Int32.ofInt n).toInt ≡ n [ZMOD 2 ^ 32] ∧
      ∀ value : Int32, value.toInt ≡ n [ZMOD 2 ^ 32] → value = Int32.ofInt n := by
  have congruent : (Int32.ofInt n).toInt ≡ n [ZMOD 2 ^ 32] := by
    rw [Int32.toInt_ofInt]
    exact Int.bmod_emod
  refine ⟨congruent, fun value other => Int32.toInt_inj.mp ?_⟩
  have same : value.toInt % 2 ^ 32 = (Int32.ofInt n).toInt % 2 ^ 32 := other.trans congruent.symm
  have bounds (value : Int32) : -2 ^ 31 ≤ value.toInt ∧ value.toInt < 2 ^ 31 :=
    ⟨value.le_toInt, value.toInt_lt⟩
  obtain ⟨least, greatest⟩ := bounds value
  obtain ⟨lowest, highest⟩ := bounds (.ofInt n)
  omega

theorem fits_magnitude : fitsInt64 n.natAbs = true ↔ leastInt64 < n ∧ n ≤ greatestInt64 := by
  rw [fitsInt64, Bool.and_eq_true, decide_eq_true_iff, decide_eq_true_iff]
  unfold leastInt64 greatestInt64
  omega

/-- What an integer token is read as. -/
def integerOutcome (n : Int) : Except ParseError Literal :=
  if fitsInt64 n.natAbs then .ok (.int (.ofInt n)) else .error .integerRange

theorem DenotesInteger.read_as (denotes : DenotesInteger raw.toList n) :
    (Token.int raw).ReadAs (integerOutcome n) := by
  intro isConstant entry rest token filled
  obtain ⟨next, others, rfl⟩ := List.exists_cons_of_ne_nil filled
  obtain ⟨⟨_, span⟩, description⟩ := entry
  cases token
  have ran : (Reader.literal isConstant).run (⟨⟨.int raw, span⟩, description⟩ :: next :: others) =
      (Reader.integer raw).run (⟨⟨.int raw, span⟩, description⟩ :: next :: others) := rfl
  refine ran.trans ((Reader.run_ok_bind rfl).trans ?_)
  rw [denotes.read, integerOutcome]
  cases fitsInt64 n.natAbs <;> rfl

theorem DenotesInteger.stands_for (denotes : DenotesInteger raw.toList n) :
    (Token.int raw).StandsFor (integerOutcome n) := by
  have stops : (Token.int raw).StopsAt ")\x7d".toList := by
    intro c first
    cases first
    decide
  have spelled := int_token_denotes.mpr ⟨n, denotes⟩
  exact spelled.stands_for stops (by simp) denotes.read_as

/--
The text of an integer token denotes one integer. The literal has its low 32 bits, unless its
magnitude takes more than 63 bits; then reading fails. The least integer of 64 bits is among those
that are refused.
-/
theorem integer_literals_truncated (denotes : DenotesInteger raw.toList n) :
    (∀ m, DenotesInteger raw.toList m → m = n) ∧
    (leastInt64 < n ∧ n ≤ greatestInt64 →
      ∃ value : Int32, value.toInt ≡ n [ZMOD 2 ^ 32] ∧
        (∀ other : Int32, other.toInt ≡ n [ZMOD 2 ^ 32] → other = value) ∧
        (Token.int raw).StandsFor (.ok (.int value))) ∧
    (¬(leastInt64 < n ∧ n ≤ greatestInt64) →
      (Token.int raw).StandsFor (.error .integerRange) ∧
        ParseError.integerRange.message =
          "Int literal does not fit into a 64-bit signed integer") := by
  have stands := denotes.stands_for
  refine ⟨fun m other => denotes.unique other, fun inside => ?_, fun outside => ⟨?_, rfl⟩⟩
  · rw [integerOutcome, if_pos (fits_magnitude.mpr inside)] at stands
    obtain ⟨congruent, alone⟩ := low_bits_congruent n
    exact ⟨_, congruent, alone, stands⟩
  · rwa [integerOutcome, if_neg fun fits => outside (fits_magnitude.mp fits)] at stands

/-- The least integer of 64 bits is refused, while a long hexadecimal one is cut to its low bits. -/
theorem least_integer_refused :
    (DenotesInteger "-9223372036854775808".toList leastInt64 ∧
      (Token.int "-9223372036854775808").StandsFor (.error .integerRange)) ∧
    DenotesInteger "-0X7fFFFFFF80000001".toList (-0x7fffffff80000001) ∧
      (Token.int "-0X7fFFFFFF80000001").StandsFor (.ok (.int 0x7fffffff)) := by
  have least : DenotesInteger "-9223372036854775808".toList leastInt64 :=
    .negative (.decimal ⟨by decide, List.all_eq_true.mp (by decide), by decide⟩)
  have long : DenotesInteger "-0X7fFFFFFF80000001".toList (-0x7fffffff80000001) :=
    .negative (.hexadecimal (.inr rfl) (by decide) (List.all_eq_true.mp (by decide)))
  obtain ⟨value, -, alone, stands⟩ := (integer_literals_truncated long).2.1 (by decide)
  have same : 0x7fffffff = value := alone 0x7fffffff (by decide)
  exact ⟨⟨least, ((integer_literals_truncated least).2.2 (by decide)).1⟩, long, same ▸ stands⟩

end Integers

end GraphQL
