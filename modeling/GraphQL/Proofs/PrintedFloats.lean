import GraphQL.Proofs.PrintedScalars
import GraphQL.Proofs.ShortestDecimals
import Mathlib.Data.List.TakeWhile

/-!
Floats as they are written.

A number that is no whole one is written with a point, and reading the text gives the number again. A
whole number is written like an integer. That integer need not be the number itself, for digits that
the number does not determine are written as zeros, but the number is the nearest one to it.
-/

namespace GraphQL

/-- A finite number that is no whole one. -/
def Binary.isFraction {f : Format} (x : Binary f) : Bool :=
  match x.ratio? with
  | none => false
  | some (_, numerator, denominator) => numerator % denominator != 0

section Wholes

variable {f : Format} {rank : Nat}

/-- A number is a natural if that natural is its ratio. -/
theorem Format.value_iff {n : Nat} :
    f.value rank = n ↔ (scaledRatio 2 (f.significand rank) (f.exponent rank)).1 =
      n * (scaledRatio 2 (f.significand rank) (f.exponent rank)).2 := by
  have value := scaled_ratio 2 (f.significand rank) (f.exponent rank)
  have below := scaled_ratio_pos Nat.two_pos (f.significand rank) (f.exponent rank)
  have divisor : ((scaledRatio 2 (f.significand rank) (f.exponent rank)).2 : ℚ) ≠ 0 := by
    exact_mod_cast below.ne'
  rw [Format.value, ← Nat.cast_ofNat, ← value, div_eq_iff divisor]
  exact_mod_cast Iff.rfl

/-- A number is a whole one if its ratio leaves no rest. -/
theorem Format.whole_iff :
    (scaledRatio 2 (f.significand rank) (f.exponent rank)).1 %
        (scaledRatio 2 (f.significand rank) (f.exponent rank)).2 = 0 ↔
      ∃ n : Nat, f.value rank = n := by
  simp only [Format.value_iff]
  exact Nat.dvd_iff_mod_eq_zero.symm.trans dvd_iff_exists_eq_mul_left

/-- Where a natural rounds to a number, the number is a whole one. -/
theorem Format.Cell.whole {n : Nat} (cell : f.Cell rank n) : ∃ n : Nat, f.value rank = n := by
  rcases Int.le_total (f.exponent rank) 0 with fine | coarse
  · exact ⟨n, cell.natural fine⟩
  · obtain ⟨k, power⟩ := Int.eq_ofNat_of_zero_le coarse
    refine ⟨f.significand rank * 2 ^ k, ?_⟩
    rw [Format.value, power, zpow_natCast]
    push_cast
    rfl

end Wholes

section Digits

variable {value : Nat}

theorem of_digits_zeros (zeros : Nat) (digits : List Char) :
    ofDigits 10 (List.replicate zeros '0' ++ digits) = ofDigits 10 digits := by
  induction zeros with
  | zero => rfl
  | succ zeros ih => exact ih

theorem digits_shifted (positive : 0 < value) (zeros : Nat) :
    Nat.toDigits 10 (value * 10 ^ zeros) = Nat.toDigits 10 value ++ List.replicate zeros '0' := by
  induction zeros with
  | zero => simp
  | succ zeros ih =>
      have more : 0 < value * 10 ^ zeros := Nat.mul_pos positive (Nat.pow_pos (Nat.succ_pos 9))
      have last := @Nat.toDigits_append_toDigits 10 _ 0 (by decide) more (by decide)
      rw [Nat.pow_succ, ← Nat.mul_assoc, Nat.mul_comm _ 10, ← Nat.add_zero (10 * _), ← last, ih,
        List.replicate_succ', List.append_assoc]
      rfl

/-- With places behind the point, digits are laid out as a whole part and a fraction. -/
theorem place_digits_fraction (positive : 0 < value) (places : Nat) :
    ∃ whole fraction,
      (placeDigits "" (Nat.toDigits 10 value) (.negSucc places)).toList = whole ++ '.' :: fraction ∧
      IsWhole whole ∧ (∀ c ∈ fraction, c.isDigit = true) ∧ fraction.length = places + 1 ∧
      ofDigits 10 (whole ++ fraction) = value := by
  have digits := digits_are_digits value
  have back := of_digits_digits value
  obtain ⟨c, more, same, lead⟩ := digits_lead positive
  unfold placeDigits
  dsimp only
  split
  · rename_i inside
    generalize point : (Nat.toDigits 10 value).length - (places + 1) = before
    obtain ⟨left, rfl⟩ : ∃ left, before = left + 1 := Nat.exists_eq_add_one.mpr (by omega)
    refine ⟨(Nat.toDigits 10 value).take (left + 1), (Nat.toDigits 10 value).drop (left + 1),
      by simp, ⟨?_, fun c inside => digits c (List.mem_of_mem_take inside), fun zero => ?_⟩,
      fun c inside => digits c (List.mem_of_mem_drop inside), ?_, ?_⟩
    · rw [same]
      exact List.cons_ne_nil _ _
    · rw [same, List.take_succ_cons, List.head?_cons] at zero
      exact absurd (Option.some.inj zero) lead
    · rw [List.length_drop]
      omega
    · rw [List.take_append_drop, back]
  · rename_i outside
    refine ⟨['0'], List.replicate (places + 1 - (Nat.toDigits 10 value).length) '0' ++
      Nat.toDigits 10 value, by simp, ⟨List.cons_ne_nil _ _, ?_, fun _ => rfl⟩, ?_, ?_, ?_⟩
    · exact List.forall_mem_singleton.mpr rfl
    · refine List.forall_mem_append.mpr ⟨fun c inside => ?_, digits⟩
      rw [List.eq_of_mem_replicate inside]
      rfl
    · rw [List.length_append, List.length_replicate]
      omega
    · exact (of_digits_zeros 1 _).trans ((of_digits_zeros _ _).trans back)

end Digits

/-- The text of a number, up to its sign: digits, or digits around a point. -/
inductive Single.Shown (rank : Nat) : List Char → Prop where
  | zero (none : rank = 0) : Shown rank ['0']
  | whole {n : Nat} (positive : 0 < rank) (there : 0 < n) (cell : Format.single.Cell rank n) :
      Shown rank (Nat.toDigits 10 n)
  | fraction {whole fraction} (positive : 0 < rank) (uneven : ∀ n : Nat, Format.single.value rank ≠ n)
      (number : IsWhole whole) (filled : fraction ≠ []) (all : ∀ c ∈ fraction, c.isDigit = true)
      (there : 0 < ofDigits 10 (whole ++ fraction))
      (cell : Format.single.Cell rank
        (ofDigits 10 (whole ++ fraction) * 10 ^ (-(fraction.length : Int)))) :
      Shown rank (whole ++ '.' :: fraction)

theorem Single.magnitude_shown {rank : Nat} (finite : rank < Format.single.infinityRank) :
    Single.Shown rank (DecimalStyle.plain.magnitude .single rank).toList := by
  rcases Nat.eq_zero_or_pos rank with rfl | positive
  · exact .zero rfl
  obtain ⟨value, power, found, there, cell⟩ := Single.shortest_in_cell true positive finite
  have text : DecimalStyle.plain.magnitude .single rank =
      placeDigits "" (Nat.toDigits 10 value) power := by
    rw [DecimalStyle.magnitude, if_neg positive.ne']
    have style : DecimalStyle.plain.tieUpward = true := rfl
    rw [style, found]
    rfl
  rw [text]
  cases power with
  | ofNat zeros =>
      have digits : (placeDigits "" (Nat.toDigits 10 value) (.ofNat zeros)).toList =
          Nat.toDigits 10 (value * 10 ^ zeros) := by simp [placeDigits, digits_shifted there]
      rw [digits]
      refine .whole positive (Nat.mul_pos there (Nat.pow_pos (Nat.succ_pos 9))) ?_
      push_cast
      exact cell
  | negSucc places =>
      have uneven (n : Nat) : Format.single.value rank ≠ n := by
        intro whole
        obtain ⟨_, _, natural, -⟩ := Single.whole_shortest true positive finite whole
        rw [found] at natural
        cases natural
      obtain ⟨whole, fraction, laid, number, all, long, meant⟩ :=
        place_digits_fraction there places
      rw [laid]
      have power : -(fraction.length : Int) = .negSucc places := by
        rw [long]
        rfl
      refine .fraction positive uneven number (List.ne_nil_of_length_pos (by omega)) all ?_ ?_
      · rwa [meant]
      · rw [meant, power]
        exact cell

section Fractions

/-- Digits around a point are read as a decimal with so many places. -/
theorem read_unsigned_fraction (f : Format) (negative : Bool) {whole fraction : List Char}
    (number : IsWhole whole) (all : ∀ c ∈ fraction, c.isDigit = true) :
    Binary.readUnsigned? f negative (whole ++ '.' :: fraction) =
      some (.ofDecimal f negative (ofDigits 10 (whole ++ fraction)) (-(fraction.length : Int))) := by
  obtain ⟨filled, digits, -⟩ := number
  have before : (whole ++ '.' :: fraction).takeWhile Char.isDigit = whole := by
    rw [List.takeWhile_append_of_pos digits, List.takeWhile_cons_of_neg (by decide), List.append_nil]
  have behind : (whole ++ '.' :: fraction).dropWhile Char.isDigit = '.' :: fraction := by
    rw [List.dropWhile_append_of_pos digits, List.dropWhile_cons_of_neg (by decide)]
  have places : fraction.takeWhile Char.isDigit = fraction := List.takeWhile_eq_self_iff.mpr all
  have rest : fraction.dropWhile Char.isDigit = [] := List.dropWhile_eq_nil_iff.mpr all
  rw [Binary.readUnsigned?, before, behind]
  simp only [places, rest, filled, false_and, if_false]

/-- A fraction is finite, and no whole number. -/
theorem is_fraction_iff {negative : Bool} {rank : Fin (Format.single.infinityRank + 1)} :
    (Binary.number negative rank : Single).isFraction = true ↔
      rank.val < Format.single.infinityRank ∧ ∀ n : Nat, Format.single.value rank ≠ n := by
  have bound := rank.isLt
  unfold Binary.isFraction Binary.ratio?
  by_cases infinite : rank.val = Format.single.infinityRank
  · simp [infinite]
  · have finite : rank.val < Format.single.infinityRank := by omega
    simp only [infinite, if_false, finite, true_and]
    rw [bne_iff_ne, ← not_exists]
    exact not_congr Format.whole_iff

theorem value_zero : Format.single.value 0 = (0 : Nat) := by
  have significand : Format.single.significand 0 = 0 := rfl
  rw [Format.value, significand, Nat.cast_zero, zero_mul]

theorem splits_no_sign {c : Char} (digit : c.isDigit = true) (rest : List Char) :
    splitSign (c :: rest) = (false, c :: rest) := by
  unfold splitSign
  split
  · rename_i same
    cases same
    exact absurd digit (by decide)
  · rename_i same
    cases same
    exact absurd digit (by decide)
  · rfl

/-- A number that is no whole one is written as a float, and the text is read as the number. -/
theorem fraction_read_back {x : Single} (fraction : x.isFraction = true) :
    (Token.float (DecimalStyle.plain.write x)).WellFormed ∧
      Binary.read? .single (DecimalStyle.plain.write x).toList = some x := by
  cases x with
  | nan => cases fraction
  | number negative rank =>
      obtain ⟨finite, uneven⟩ := is_fraction_iff.mp fraction
      have text : (DecimalStyle.plain.write (.number negative rank : Single)).toList =
          (if negative then ['-'] else []) ++
            (DecimalStyle.plain.magnitude .single rank).toList := by
        rw [DecimalStyle.write, if_neg finite.ne, String.toList_append]
        cases negative <;> rfl
      have shown := Single.magnitude_shown finite
      rw [Token.WellFormed, text]
      generalize (DecimalStyle.plain.magnitude .single rank).toList = digits at shown ⊢
      cases shown with
      | zero none =>
          rw [none] at uneven
          exact absurd value_zero (uneven 0)
      | whole _ _ cell =>
          obtain ⟨n, whole⟩ := cell.whole
          exact absurd whole (uneven n)
      | @fraction whole places positive _ number filled all there cell =>
          have read := Single.read_decimal positive finite there cell negative
          have same : Binary.ofRank .single negative rank = .number negative rank := by
            have least : min rank.val Format.single.infinityRank = rank.val := by omega
            simp only [Binary.ofRank, least]
          rw [same] at read
          have floating : IsFloating (whole ++ '.' :: places) :=
            ⟨whole, '.' :: places, [], by simp, number, .inr ⟨places, rfl, filled, all⟩, .inl rfl,
              List.cons_ne_nil _ _⟩
          obtain ⟨c, more, begins, digit⟩ := whole_begins number
          have unsigned (sign : Bool) := read_unsigned_fraction .single sign number all
          cases negative with
          | false =>
              refine ⟨.inl floating, ?_⟩
              have split : splitSign (whole ++ '.' :: places) = (false, whole ++ '.' :: places) := by
                rw [begins]
                exact splits_no_sign digit _
              simp [Binary.read?, split, unsigned, read]
          | true =>
              refine ⟨.inr ⟨_, rfl, floating⟩, ?_⟩
              simp [Binary.read?, splitSign, unsigned, read]

end Fractions

section Integers

variable {x : Single} {n : Int}

theorem digits_injective {m n : Nat} (same : Nat.toDigits 10 m = Nat.toDigits 10 n) : m = n := by
  rw [← of_digits_digits m, same, of_digits_digits]

/-- What is written with digits alone is not infinite, and its digits are those of the number. -/
theorem Single.Shown.digits {rank m : Nat} (shown : Single.Shown rank (Nat.toDigits 10 m)) :
    rank = 0 ∧ m = 0 ∨ 0 < rank ∧ 0 < m ∧ Format.single.Cell rank m := by
  have digits := digits_are_digits m
  generalize text : Nat.toDigits 10 m = digit at shown digits
  cases shown with
  | zero none => exact .inl ⟨none, digits_injective text⟩
  | whole positive there cell =>
      obtain rfl := digits_injective text
      exact .inr ⟨positive, there, cell⟩
  | fraction => exact absurd (digits '.' (by simp)) (by decide)

theorem Single.Shown.begins {rank : Nat} {text : List Char} (shown : Single.Shown rank text) :
    ∃ c rest, text = c :: rest ∧ c.isDigit = true := by
  cases shown with
  | zero => exact ⟨'0', [], rfl, rfl⟩
  | @whole n =>
      obtain ⟨c, rest, same⟩ :=
        List.exists_cons_of_ne_nil (List.ne_nil_of_length_pos (@Nat.length_toDigits_pos 10 n))
      exact ⟨c, rest, same, digits_are_digits n c (same ▸ List.mem_cons_self)⟩
  | fraction _ _ number =>
      obtain ⟨c, rest, rfl, digit⟩ := whole_begins number
      exact ⟨c, _, rfl, digit⟩

/-- The text of a number without its sign. -/
def unsignedText (rank : Nat) : List Char :=
  (if rank = Format.single.infinityRank then "inf"
    else DecimalStyle.plain.magnitude .single rank).toList

theorem write_number (negative : Bool) (rank : Fin (Format.single.infinityRank + 1)) :
    (DecimalStyle.plain.write (.number negative rank : Single)).toList =
      if negative then '-' :: unsignedText rank else unsignedText rank := by
  rw [DecimalStyle.write, String.toList_append, unsignedText]
  cases negative <;> rfl

/-- Of a number with digits alone, these show the number. -/
theorem shown_by_digits {rank : Fin (Format.single.infinityRank + 1)} {m : Nat}
    (same : unsignedText rank = Nat.toDigits 10 m) :
    rank.val < Format.single.infinityRank ∧
      (rank.val = 0 ∧ m = 0 ∨ 0 < rank.val ∧ 0 < m ∧ Format.single.Cell rank m) := by
  have bound := rank.isLt
  unfold unsignedText at same
  split at same
  · exact absurd (digits_are_digits m 'i' (by rw [← same]; decide)) (by decide)
  · have finite : rank.val < Format.single.infinityRank := by omega
    have shown := Single.magnitude_shown finite
    rw [same] at shown
    exact ⟨finite, shown.digits⟩

theorem unsigned_text_begins (rank : Fin (Format.single.infinityRank + 1)) (rest : List Char) :
    unsignedText rank ≠ '-' :: rest := by
  have bound := rank.isLt
  intro same
  unfold unsignedText at same
  split at same
  · cases same
  · obtain ⟨c, more, begins, digit⟩ := (@Single.magnitude_shown rank (by omega)).begins
    rw [begins] at same
    cases same
    exact absurd digit (by decide)

/-- What is written like an integer has its sign and rounds from it. -/
theorem written_like_integer (shown : DecimalStyle.plain.write x = toString n) :
    ∃ rank, x = .number (decide (n < 0)) rank ∧ rank.val < Format.single.infinityRank ∧
      (rank.val = 0 ∧ n.natAbs = 0 ∨
        0 < rank.val ∧ 0 < n.natAbs ∧ Format.single.Cell rank n.natAbs) := by
  have same := congrArg String.toList shown
  have digits := digits_are_digits n.natAbs
  have no_digits : 'N'.isDigit ≠ true ∧ '-'.isDigit ≠ true := by decide
  have text := int_text n
  rw [← same] at text
  cases x with
  | nan =>
      have word : (DecimalStyle.plain.write (.nan : Single)).toList = ['N', 'a', 'N'] := rfl
      rw [word] at text
      split at text
      · cases text
      · exact absurd (digits 'N' (text ▸ List.mem_cons_self)) no_digits.1
  | number negative rank =>
      rw [write_number] at text
      refine ⟨rank, ?_⟩
      rcases Int.lt_or_le n 0 with below | above
      · rw [if_pos below] at text
        cases negative with
        | false => exact absurd text (unsigned_text_begins rank _)
        | true => exact ⟨by rw [decide_eq_true below], shown_by_digits (List.cons.inj text).2⟩
      · rw [if_neg (Int.not_lt.mpr above)] at text
        cases negative with
        | false =>
            exact ⟨by rw [decide_eq_false (Int.not_lt.mpr above)], shown_by_digits text⟩
        | true =>
            have minus : '-' ∈ Nat.toDigits 10 n.natAbs := by
              rw [← text]
              exact List.mem_cons_self
            exact absurd (digits '-' minus) no_digits.2

/-- A number that is written like an integer is the one nearest to it. -/
theorem of_written_integer (shown : DecimalStyle.plain.write x = toString n) :
    Binary.ofInt .single n = x := by
  obtain ⟨rank, rfl, finite, near⟩ := written_like_integer shown
  have nearest : Format.single.nearestRank n.natAbs 1 = rank := by
    rcases near with ⟨zero, nothing⟩ | ⟨-, there, cell⟩
    · rw [nothing, zero]
      rfl
    · refine Format.Cell.nearest there Nat.one_pos finite ?_
      rwa [Nat.cast_one, div_one]
  have least : min rank.val Format.single.infinityRank = rank.val := by omega
  simp only [Binary.ofInt, Binary.ofRatio, nearest, Binary.ofRank, least]

theorem written_zero (shown : DecimalStyle.plain.write x = toString n) :
    x.isZero = (n == 0) := by
  obtain ⟨rank, rfl, finite, near⟩ := written_like_integer shown
  rw [Binary.isZero, Bool.eq_iff_iff, beq_iff_eq, beq_iff_eq]
  rcases near with ⟨zero, nothing⟩ | ⟨positive, there, -⟩
  · exact ⟨fun _ => Int.natAbs_eq_zero.mp nothing, fun _ => zero⟩
  · exact ⟨fun zero => absurd zero positive.ne', fun nothing => absurd nothing (by omega)⟩

/-- A finite whole number has digits alone for its text. -/
theorem whole_digits {rank : Nat} (finite : rank < Format.single.infinityRank) {n : Nat}
    (whole : Format.single.value rank = n) :
    ∃ m, unsignedText rank = Nat.toDigits 10 m ∧
      (rank = 0 ∧ m = 0 ∨ 0 < rank ∧ 0 < m ∧ Format.single.Cell rank m) := by
  have shown := Single.magnitude_shown finite
  rw [unsignedText, if_neg finite.ne]
  generalize (DecimalStyle.plain.magnitude .single rank).toList = text at shown ⊢
  cases shown with
  | zero none => exact ⟨0, rfl, .inl ⟨none, rfl⟩⟩
  | @whole m positive there cell => exact ⟨m, rfl, .inr ⟨positive, there, cell⟩⟩
  | fraction _ uneven => exact absurd whole (uneven n)

theorem written_digits {negative : Bool} {rank : Fin (Format.single.infinityRank + 1)} {m : Nat}
    (text : unsignedText rank = Nat.toDigits 10 m) (signed : negative = true → 0 < m) :
    DecimalStyle.plain.write (.number negative rank : Single) =
      toString (if negative then -(m : Int) else m) := by
  rw [← String.toList_inj, write_number, int_text, text]
  cases negative with
  | false => simp
  | true =>
      have filled := (signed rfl).ne'
      simp [filled]

/-- A finite number is a fraction or negative zero, or it is written like an integer. -/
theorem finite_written {x : Single} (finite : x.isFinite = true) :
    x.isFraction = true ∨ x = .ofRank .single true 0 ∨
      ∃ n : Int, DecimalStyle.plain.write x = toString n := by
  cases x with
  | nan => cases finite
  | number negative rank =>
      have bound := rank.isLt
      have inside : rank.val < Format.single.infinityRank := by
        by_contra outside
        have infinite : rank.val = Format.single.infinityRank := by omega
        simp [Binary.isFinite, Binary.ratio?, infinite] at finite
      by_cases fraction : (Binary.number negative rank : Single).isFraction = true
      · exact .inl fraction
      rw [is_fraction_iff] at fraction
      obtain ⟨n, whole⟩ : ∃ n : Nat, Format.single.value rank = n := by
        by_contra none
        exact fraction ⟨inside, not_exists.mp none⟩
      obtain ⟨m, text, zero | positive⟩ := whole_digits inside whole
      · cases negative with
        | false => exact .inr (.inr ⟨_, written_digits text (by simp)⟩)
        | true =>
            refine .inr (.inl ?_)
            rw [Binary.ofRank]
            congr 1
            exact Fin.ext (by simp [zero.1])
      · exact .inr (.inr ⟨_, written_digits text fun _ => positive.2.1⟩)

/-- A whole number with 24 bits is a number of its own. -/
theorem small_integer {n : Int} (there : 0 < n.natAbs) (small : n.natAbs < 2 ^ 24) :
    ∃ rank : Fin (Format.single.infinityRank + 1),
      Binary.ofInt .single n = .number (decide (n < 0)) rank ∧ 0 < rank.val ∧
      rank.val < Format.single.infinityRank ∧ Format.single.exponent rank ≤ 0 ∧
      Format.single.value rank = n.natAbs := by
  obtain ⟨rank, positive, finite, fine, whole⟩ := Single.natural_rank there small
  obtain ⟨-, -, filled, -⟩ := Single.parts_bounds positive finite
  have cell : Format.single.Cell rank n.natAbs := whole ▸ .own filled
  have nearest : Format.single.nearestRank n.natAbs 1 = rank :=
    Format.Cell.nearest there Nat.one_pos finite (by rwa [Nat.cast_one, div_one])
  have least : min rank Format.single.infinityRank = rank := by omega
  refine ⟨⟨rank, by omega⟩, ?_, positive, finite, fine, whole⟩
  simp only [Binary.ofInt, Binary.ofRatio, nearest, Binary.ofRank, least]

/-- A whole number with 24 bits is written with its own digits. -/
theorem small_integer_written (small : n.natAbs < 2 ^ 24) :
    DecimalStyle.plain.write (Binary.ofInt .single n) = toString n := by
  rcases Nat.eq_zero_or_pos n.natAbs with zero | there
  · obtain rfl := Int.natAbs_eq_zero.mp zero
    rfl
  obtain ⟨rank, number, positive, finite, fine, whole⟩ := small_integer there small
  obtain ⟨m, text, none | ⟨-, filled, near⟩⟩ := whole_digits finite whole
  · exact absurd none.1 positive.ne'
  have same : m = n.natAbs := by
    have value := near.natural fine
    rw [whole] at value
    exact_mod_cast value.symm
  rw [number, written_digits text fun _ => filled, same]
  congr 1
  split <;> rename_i sign <;> rw [decide_eq_true_iff] at sign <;> omega

/-- A whole number with 24 bits is truncated to itself. -/
theorem small_integer_truncated (small : n.natAbs < 2 ^ 24) :
    (Binary.ofInt .single n).truncate64 = n := by
  rcases Nat.eq_zero_or_pos n.natAbs with zero | there
  · obtain rfl := Int.natAbs_eq_zero.mp zero
    rfl
  obtain ⟨rank, number, -, finite, -, whole⟩ := small_integer there small
  have ratio := Format.value_iff.mp whole
  have below := scaled_ratio_pos Nat.two_pos (Format.single.significand rank)
    (Format.single.exponent rank)
  have parts : Format.single.parts rank =
      (Format.single.significand rank, Format.single.exponent rank) := rfl
  rw [number]
  simp only [Binary.truncate64, Binary.ratio?, finite.ne, if_false, parts]
  generalize scaledRatio 2 (Format.single.significand rank) (Format.single.exponent rank) =
    pair at ratio below ⊢
  have quotient : (pair.1 : Int) / pair.2 = n.natAbs := by
    rw [ratio, Nat.cast_mul]
    exact Int.mul_ediv_cancel _ (by exact_mod_cast below.ne')
  rw [quotient, leastInt64, greatestInt64]
  split <;> rename_i sign <;> rw [decide_eq_true_iff] at sign <;> omega

end Integers

end GraphQL
