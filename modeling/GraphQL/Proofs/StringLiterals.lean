import GraphQL.Proofs.ScalarLiterals
import GraphQL.Proofs.ScannedTokens

/-!
Strings as their tokens spell them, character by character.

A character is spelled as itself, by a short escape or by its code; the codes of surrogates spell
the replacement character. The scanner and the reader recognise escapes separately, but both follow
these spellings: what one admits the other decodes.
-/

namespace GraphQL

/-- The marks of the short escapes, and the characters that these spell. -/
def shortEscapes : List (Char × Char) :=
  [('"', '"'), ('\\', '\\'), ('/', '/'), ('b', '\x08'), ('f', '\x0c'), ('n', '\n'), ('r', '\r'),
    ('t', '\t')]

/-- Four hexadecimal digits, for a number. -/
def IsCode (digits : List Char) (n : Nat) : Prop :=
  digits.length = 4 ∧ (∀ c ∈ digits, isHexDigit c = true) ∧ placeValue 16 digits = n

/-- How a character is spelled in a string. -/
inductive SpellsChar : List Char → Char → Prop where
  | plain {c} (stands : StandsInString c) : SpellsChar [c] c
  | short {mark c} (escape : (mark, c) ∈ shortEscapes) : SpellsChar ['\\', mark] c
  | code {digits c} (code : IsCode digits c.toNat) : SpellsChar ('\\' :: 'u' :: digits) c
  | surrogate {digits n} (code : IsCode digits n) (surrogate : 0xd800 ≤ n ∧ n ≤ 0xdfff) :
      SpellsChar ('\\' :: 'u' :: digits) '\uFFFD'

/-- A text is spelled by spellings of its characters. -/
inductive SpellsText : List Char → List Char → Prop where
  | nothing : SpellsText [] []
  | char {piece c rest text} (first : SpellsChar piece c) (others : SpellsText rest text) :
      SpellsText (piece ++ rest) (c :: text)

/-- What stands between the quotes of a string token. -/
def stringToken (body : List Char) : Token := .string (String.ofList ('"' :: (body ++ ['"'])))

section Spelling

variable {body text rest digits : List Char} {c : Char} {n : Nat}

theorem IsCode.read (code : IsCode digits n) :
    ∃ first second third fourth, digits = [first, second, third, fourth] ∧
      (∀ c ∈ [first, second, third, fourth], isHexDigit c = true) ∧
      readHex? [first, second, third, fourth] = some n := by
  obtain ⟨four, inside, rfl⟩ := code
  obtain ⟨first, second, third, fourth, rfl⟩ := List.length_eq_four.mp four
  refine ⟨first, second, third, fourth, rfl, inside, ?_⟩
  rw [readHex?, if_pos ⟨by simp, List.all_eq_true.mpr inside⟩, of_digits_value]

theorem char_of_surrogate (surrogate : 0xd800 ≤ n ∧ n ≤ 0xdfff) : charOfCode n = '\uFFFD' := by
  have invalid : ¬ n.isValidChar := by
    unfold Nat.isValidChar
    omega
  rw [charOfCode, dif_neg invalid]

/-- What spells a character may stand in a string, and is replaced by the character. -/
theorem SpellsChar.decoded {piece : List Char} (spells : SpellsChar piece c) (rest : List Char) :
    (StringBody rest → StringBody (piece ++ rest)) ∧
      unescape (piece ++ rest) = (unescape rest).map (c :: ·) := by
  cases spells with
  | plain stands => exact ⟨.plain stands, unescape_plain stands rest⟩
  | short escape =>
      simp only [shortEscapes, List.mem_cons, List.not_mem_nil, or_false, Prod.mk.injEq] at escape
      rcases escape with ⟨rfl, rfl⟩ | ⟨rfl, rfl⟩ | ⟨rfl, rfl⟩ | ⟨rfl, rfl⟩ | ⟨rfl, rfl⟩ | ⟨rfl, rfl⟩ |
        ⟨rfl, rfl⟩ | ⟨rfl, rfl⟩
      all_goals exact ⟨.short rfl, rfl⟩
  | code code =>
      obtain ⟨first, second, third, fourth, rfl, inside, read⟩ := code.read
      refine ⟨.code inside, ?_⟩
      simp only [List.cons_append, List.nil_append]
      rw [unescape, read]
      simp only [char_of_code]
  | surrogate code surrogate =>
      obtain ⟨first, second, third, fourth, rfl, inside, read⟩ := code.read
      refine ⟨.code inside, ?_⟩
      simp only [List.cons_append, List.nil_append]
      rw [unescape, read]
      simp only [char_of_surrogate surrogate]

/-- A spelled text may stand in a string, and all of its escapes are replaced. -/
theorem SpellsText.decoded (spells : SpellsText body text) :
    StringBody body ∧ unescape body = .ok text := by
  induction spells with
  | nothing => exact ⟨.nothing, rfl⟩
  | char first _ ih =>
      obtain ⟨inside, decodes⟩ := first.decoded _
      refine ⟨inside ih.1, ?_⟩
      rw [decodes, ih.2]
      rfl

theorem SpellsText.unique (spells : SpellsText body text) {other : List Char}
    (also : SpellsText body other) : other = text :=
  Except.ok.inj (also.decoded.2.symm.trans spells.decoded.2)

theorem hex_digit_value (digit : isHexDigit c = true) : digitValue c < 16 := by
  have range : (48 ≤ c.toNat ∧ c.toNat ≤ 57 ∨ 97 ≤ c.toNat ∧ c.toNat ≤ 102) ∨
      65 ≤ c.toNat ∧ c.toNat ≤ 70 := by
    simpa [isHexDigit, Char.isDigit, Char.le_def, UInt32.le_iff_toNat_le] using digit
  rw [digitValue]
  split
  · rename_i decimal
    have bounds : 48 ≤ c.toNat ∧ c.toNat ≤ 57 := by
      simpa [Char.isDigit, UInt32.le_iff_toNat_le] using decimal
    omega
  · split
    · rename_i lower
      have first : 97 ≤ c.toNat := lower.1
      omega
    · rename_i upper
      have other : ¬(97 ≤ c.toNat ∧ c.toNat ≤ 122) := upper
      omega

/-- Whatever four digits are, they spell a character. -/
theorem IsCode.spells (code : IsCode digits n) : SpellsChar ('\\' :: 'u' :: digits) (charOfCode n) := by
  obtain ⟨four, inside, value⟩ := code
  have small : n < 16 ^ 4 := by
    rw [← value, ← four, ← List.length_reverse, ← List.length_map digitValue]
    refine Nat.ofDigits_lt_base_pow_length (by decide) fun value among => ?_
    obtain ⟨c, member, rfl⟩ := List.mem_map.mp among
    exact hex_digit_value (inside c (List.mem_reverse.mp member))
  by_cases valid : n.isValidChar
  · have same : (charOfCode n).toNat = n := by
      rw [charOfCode, dif_pos valid]
      rfl
    exact .code ⟨four, inside, value.trans same.symm⟩
  · have surrogate : 0xd800 ≤ n ∧ n ≤ 0xdfff := by
      unfold Nat.isValidChar at valid
      omega
    rw [char_of_surrogate surrogate]
    exact .surrogate ⟨four, inside, value⟩ surrogate

/-- Whatever may stand in a string spells a text. -/
theorem StringBody.spells (inside : StringBody body) : ∃ text, SpellsText body text := by
  induction inside with
  | nothing => exact ⟨[], .nothing⟩
  | plain stands _ ih =>
      obtain ⟨text, spells⟩ := ih
      exact ⟨_, .char (.plain stands) spells⟩
  | @short mark rest escape _ ih =>
      obtain ⟨text, spells⟩ := ih
      obtain ⟨c, known⟩ : ∃ c, (mark, c) ∈ shortEscapes := by
        simp only [isShortEscape, Bool.or_eq_true, beq_iff_eq] at escape
        rcases escape with ((((((rfl | rfl) | rfl) | rfl) | rfl) | rfl) | rfl) | rfl
        all_goals simp [shortEscapes]
      exact ⟨_, .char (.short known) spells⟩
  | code digits _ ih =>
      obtain ⟨text, spells⟩ := ih
      have code : IsCode [_, _, _, _] _ := ⟨rfl, digits, rfl⟩
      exact ⟨_, .char code.spells spells⟩

theorem char_spelled (c : Char) : ∃ piece, SpellsChar piece c := by
  by_cases stands : (c = '\t' ∨ ' ' ≤ c)
  · by_cases quote : c = '"'
    · subst quote
      exact ⟨['\\', '"'], .short (by decide)⟩
    · by_cases escape : c = '\\'
      · subst escape
        exact ⟨['\\', '\\'], .short (by decide)⟩
      · exact ⟨_, .plain ⟨stands, quote, escape⟩⟩
  · have control : c < ' ' := Char.not_le.mp fun printable => stands (.inr printable)
    obtain ⟨first, second, third, fourth, -, inside, read⟩ := @control_digits c.toNat control
    refine ⟨_, .code ⟨rfl, inside, ?_⟩⟩
    rw [readHex?, if_pos ⟨by simp, List.all_eq_true.mpr inside⟩, of_digits_value] at read
    exact Option.some.inj read

/-- Every text has a spelling. -/
theorem text_spelled (text : List Char) : ∃ body, SpellsText body text := by
  induction text with
  | nil => exact ⟨[], .nothing⟩
  | cons c rest ih =>
      obtain ⟨piece, first⟩ := char_spelled c
      obtain ⟨body, others⟩ := ih
      exact ⟨_, .char first others⟩

theorem unquote_body (body : List Char) :
    unquote ('"' :: (body ++ ['"'])) = unescape body := by
  rw [unquote, List.getLast?_concat, if_pos rfl, List.dropLast_concat]

/-- Where a spelled text is the next token, it is read as the text. -/
theorem SpellsText.read_as (spells : SpellsText body text) :
    (stringToken body).ReadAs (.ok (.string (String.ofList text))) := by
  intro isConstant entry rest token filled
  obtain ⟨next, others, rfl⟩ := List.exists_cons_of_ne_nil filled
  obtain ⟨⟨_, span⟩, description⟩ := entry
  cases token
  have decoded : unquote (String.ofList ('"' :: (body ++ ['"']))).toList = .ok text := by
    rw [String.toList_ofList, unquote_body]
    exact spells.decoded.2
  have ran : (Reader.literal isConstant).run
        (⟨⟨stringToken body, span⟩, description⟩ :: next :: others) =
      (Reader.string (String.ofList ('"' :: (body ++ ['"'])))).run
        (⟨⟨stringToken body, span⟩, description⟩ :: next :: others) := rfl
  refine ran.trans ((Reader.run_ok_bind rfl).trans ?_)
  rw [decoded]
  rfl

theorem SpellsText.stands_for (spells : SpellsText body text) :
    (stringToken body).StandsFor (.ok (.string (String.ofList text))) := by
  have spelled : (stringToken body).WellFormed := ⟨body, String.toList_ofList, spells.decoded.1⟩
  exact spelled.stands_for trivial nofun spells.read_as

/--
Quoted, every spelling of a text stands for the text; there is such a spelling for every text. The
string tokens of a source are all made so: each spells one text, for which it stands.
-/
theorem string_literals_decode :
    (∀ body text, SpellsText body text →
      (stringToken body).StandsFor (.ok (.string (String.ofList text)))) ∧
    (∀ text, ∃ body, SpellsText body text) ∧
    ∀ source : String, ∀ token ∈ (TokenStream.ofSource source).tokens, ∀ raw,
      token.node = .string raw → ∃ body text, raw.toList = '"' :: (body ++ ['"']) ∧
        SpellsText body text ∧ (∀ other, SpellsText body other → other = text) ∧
        unquote raw.toList = .ok text ∧
        (Token.string raw).StandsFor (.ok (.string (String.ofList text))) := by
  refine ⟨fun body text spells => spells.stands_for, text_spelled, ?_⟩
  intro source token member raw same
  have spelled : (Token.string raw).WellFormed := by
    rcases scan_from_well_formed _ _ _ token member with ended | spelled
    · rw [ended] at same
      cases same
    · exact same ▸ spelled
  obtain ⟨body, quoted, inside⟩ := spelled
  obtain ⟨text, spells⟩ := inside.spells
  have made : stringToken body = .string raw := by
    rw [stringToken, ← quoted, String.ofList_toList]
  refine ⟨body, text, quoted, spells, fun other => spells.unique, ?_, made ▸ spells.stands_for⟩
  rw [quoted, unquote_body]
  exact spells.decoded.2

/-- Codes in both cases, a surrogate, a short escape, and what stands for itself. -/
theorem motley_string_decoded :
    SpellsText "\\u00e9\\u005C\\uD83d\\\"\tπ".toList "é\\\uFFFD\"\tπ".toList ∧
      (stringToken "\\u00e9\\u005C\\uD83d\\\"\tπ".toList).StandsFor
        (.ok (.string (String.ofList "é\\\uFFFD\"\tπ".toList))) := by
  have code (digits : List Char) (known : digits.length = 4 ∧ digits.all isHexDigit = true) :
      IsCode digits (placeValue 16 digits) := ⟨known.1, List.all_eq_true.mp known.2, rfl⟩
  have lower : SpellsChar "\\u00e9".toList 'é' := .code (code "00e9".toList (by decide))
  have upper : SpellsChar "\\u005C".toList '\\' := .code (code "005C".toList (by decide))
  have surrogate : SpellsChar "\\uD83d".toList '\uFFFD' :=
    .surrogate (code "D83d".toList (by decide)) (by decide)
  have short : SpellsChar "\\\"".toList '"' := .short (by decide)
  have plain : StandsInString '\t' ∧ StandsInString 'π' := by simp [StandsInString]
  have spells : SpellsText "\\u00e9\\u005C\\uD83d\\\"\tπ".toList "é\\\uFFFD\"\tπ".toList :=
    .char lower (.char upper (.char surrogate (.char short
      (.char (.plain plain.1) (.char (.plain plain.2) .nothing)))))
  exact ⟨spells, string_literals_decode.1 _ _ spells⟩

end Spelling

end GraphQL
