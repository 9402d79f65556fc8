import GraphQL.Proofs.ShortestDecimals

/-!
Numbers of 32 bits as numbers of 64 bits, and back.

A ratio is rounded alike in whatever terms it is written, and one that is the value of a number is
rounded to this number. Every finite number of the narrow
format has its value among the numbers of the wide one, so nothing is lost on the way there, and on
the way back the number itself is the nearest.
-/

namespace GraphQL

section Ratios

theorem scaled_ratio_mul (base numerator factor : Nat) (exponent : Int) :
    scaledRatio base (numerator * factor) exponent =
      ((scaledRatio base numerator exponent).1 * factor,
        (scaledRatio base numerator exponent).2) := by
  cases exponent with
  | ofNat n => simp only [scaledRatio, Nat.mul_right_comm]
  | negSucc n => rfl

theorem round_half_even_mul {factor : Nat} (filled : 0 < factor) (numerator denominator : Nat) :
    roundHalfEven (numerator * factor) (denominator * factor) =
      roundHalfEven numerator denominator := by
  have scaled (rest : Nat) : 2 * (rest * factor) = 2 * rest * factor := (Nat.mul_assoc ..).symm
  unfold roundHalfEven
  rw [Nat.mul_div_mul_right _ _ filled, Nat.mul_mod_mul_right, scaled]
  simp only [Nat.mul_lt_mul_right filled]

theorem floor_log_mul {numerator denominator factor : Nat} (positive : 0 < numerator)
    (below : 0 < denominator) (filled : 0 < factor) :
    floorLog2 (numerator * factor) (denominator * factor) = floorLog2 numerator denominator := by
  obtain ⟨low, high⟩ := floor_log_spec positive below
  obtain ⟨low', high'⟩ := floor_log_spec (Nat.mul_pos positive filled) (Nat.mul_pos below filled)
  have same : ((numerator * factor : Nat) : ℚ) / (denominator * factor : Nat) =
      numerator / denominator := by
    have cancels : (factor : ℚ) ≠ 0 := by exact_mod_cast filled.ne'
    push_cast
    exact mul_div_mul_right _ _ cancels
  rw [same] at low' high'
  have compare {a b : Int} (less : (2 : ℚ) ^ a < 2 ^ b) : a < b :=
    (zpow_lt_zpow_iff_right₀ (by norm_num)).mp less
  have first := compare (low.trans_lt high')
  have second := compare (low'.trans_lt high)
  omega

end Ratios

namespace Format

/-- The nearest number does not depend on the terms of a ratio. -/
theorem nearest_scaled (f : Format) {numerator denominator factor : Nat} (below : 0 < denominator)
    (filled : 0 < factor) :
    f.nearestRank (numerator * factor) (denominator * factor) =
      f.nearestRank numerator denominator := by
  rcases Nat.eq_zero_or_pos numerator with rfl | positive
  · rw [Nat.zero_mul, nearestRank, nearestRank, if_pos rfl, if_pos rfl]
  · rw [nearest_rank_eq positive, nearest_rank_eq (Nat.mul_pos positive filled),
      floor_log_mul positive below filled]
    simp only [scaled_ratio_mul]
    rw [Nat.mul_right_comm, round_half_even_mul filled]

variable {f : Format} {rank numerator denominator : Nat}

theorem value_eq_ratio (f : Format) (rank : Nat) :
    ((scaledRatio 2 (f.significand rank) (f.exponent rank)).1 : ℚ) /
      (scaledRatio 2 (f.significand rank) (f.exponent rank)).2 = f.value rank := by
  rw [scaled_ratio, value]
  norm_num

/-- The value of a finite number is rounded to the number. -/
theorem nearest_of_value (below : 0 < denominator) (finite : rank < f.infinityRank)
    (exact : (numerator : ℚ) / denominator = f.value rank) :
    f.nearestRank numerator denominator = rank := by
  have divisor : (denominator : ℚ) ≠ 0 := by exact_mod_cast below.ne'
  have spacing : (2 : ℚ) ^ f.exponent rank ≠ 0 := by positivity
  rcases Nat.eq_zero_or_pos (f.significand rank) with zero | positive
  · have nothing : numerator = 0 := by
      rw [value, zero, Nat.cast_zero, zero_mul, div_eq_zero_iff] at exact
      exact_mod_cast exact.resolve_right divisor
    obtain ⟨-, counted, -, normal, -⟩ := f.rank_parts rank
    have least : ¬ f.leastExponent < f.exponent rank := fun grown =>
      absurd (zero ▸ normal grown) (Nat.not_le_of_gt (Nat.two_pow_pos _))
    have first : (f.exponent rank - f.leastExponent).toNat = 0 := by omega
    rw [first, zero, Nat.zero_mul] at counted
    rw [nearestRank, if_pos nothing, counted]
  · have filled : 0 < numerator := by
      refine Nat.pos_of_ne_zero fun nothing => ?_
      rw [nothing, Nat.cast_zero, zero_div, value] at exact
      have significand : (f.significand rank : ℚ) ≠ 0 := by exact_mod_cast positive.ne'
      exact mul_ne_zero significand spacing exact.symm
    exact (exact ▸ Cell.own positive : f.Cell rank _).nearest filled below finite

/-- A rank has no more than one exponent and significand. -/
theorem parts_unique {exponent : Int} {significand : Nat} (least : f.leastExponent ≤ exponent)
    (counted : rank = (exponent - f.leastExponent).toNat * 2 ^ f.fractionBits + significand)
    (small : significand < 2 ^ (f.fractionBits + 1))
    (normal : f.leastExponent < exponent → 2 ^ f.fractionBits ≤ significand) :
    f.exponent rank = exponent ∧ f.significand rank = significand := by
  obtain ⟨least', counted', small', normal', -⟩ := f.rank_parts rank
  have unit : 0 < 2 ^ f.fractionBits := Nat.two_pow_pos _
  obtain ⟨block, grown⟩ : ∃ block : Nat, exponent = f.leastExponent + block :=
    ⟨(exponent - f.leastExponent).toNat, by omega⟩
  obtain ⟨block', grown'⟩ : ∃ block : Nat, f.exponent rank = f.leastExponent + block :=
    ⟨(f.exponent rank - f.leastExponent).toNat, by omega⟩
  have height : (exponent - f.leastExponent).toNat = block := by omega
  have height' : (f.exponent rank - f.leastExponent).toNat = block' := by omega
  rw [height] at counted
  rw [height'] at counted'
  have same := counted.symm.trans counted'
  rw [Nat.pow_succ] at small small'
  clear counted counted'
  generalize 2 ^ f.fractionBits = width at *
  generalize f.significand rank = significand' at *
  -- In a higher block a significand is at least as large as a block is wide.
  rcases Nat.lt_trichotomy block block' with less | rfl | more
  · obtain ⟨gap, rfl⟩ := Nat.exists_eq_add_of_lt less
    have reached := normal' (by omega)
    rw [Nat.add_assoc, Nat.add_mul, Nat.add_mul, Nat.one_mul] at same
    omega
  · exact ⟨by omega, by omega⟩
  · obtain ⟨gap, rfl⟩ := Nat.exists_eq_add_of_lt more
    have reached := normal (by omega)
    rw [Nat.add_assoc, Nat.add_mul, Nat.add_mul, Nat.one_mul] at same
    omega

/-- A number with enough fraction bits and exponents has every value of a smaller format. -/
theorem value_found {exponent : Int} {significand bits : Nat} (positive : 0 < significand)
    (fits : significand < 2 ^ (bits + 1)) (room : bits ≤ f.fractionBits)
    (least : f.leastExponent ≤ exponent - f.fractionBits)
    (greatest : exponent + bits - f.leastExponent + 1 < Nat.pow 2 f.exponentBits - 1) :
    ∃ rank, rank < f.infinityRank ∧ f.value rank = significand * 2 ^ exponent := by
  obtain ⟨lower, upper⟩ :=
    (⟨Nat.log2_self_le positive.ne', Nat.lt_log2_self⟩ :
      2 ^ Nat.log2 significand ≤ significand ∧ significand < 2 ^ (Nat.log2 significand + 1))
  have top : Nat.log2 significand ≤ bits := by
    have powers := lower.trans_lt fits
    have less := (Nat.pow_lt_pow_iff_right (Nat.lt_succ_self 1)).mp powers
    omega
  -- The significand is moved up until it fills the fraction.
  obtain ⟨shift, filled⟩ : ∃ shift, f.fractionBits = Nat.log2 significand + shift :=
    ⟨f.fractionBits - Nat.log2 significand, by omega⟩
  have moved : 2 ^ f.fractionBits ≤ significand * 2 ^ shift := by
    rw [filled, Nat.pow_add]
    exact Nat.mul_le_mul_right _ lower
  have moved_small : significand * 2 ^ shift < 2 ^ (f.fractionBits + 1) := by
    rw [filled, Nat.add_right_comm, Nat.pow_add]
    exact Nat.mul_lt_mul_of_pos_right upper (Nat.two_pow_pos _)
  have begins : f.leastExponent ≤ exponent - shift := by omega
  obtain ⟨same_exponent, same_significand⟩ :=
    parts_unique (f := f) begins rfl moved_small fun _ => moved
  refine ⟨(exponent - shift - f.leastExponent).toNat * 2 ^ f.fractionBits +
    significand * 2 ^ shift, ?_, ?_⟩
  · have blocks : (exponent - shift - f.leastExponent).toNat + 2 ≤
        Nat.pow 2 f.exponentBits - 1 := by omega
    have scaled := Nat.mul_le_mul_right (2 ^ f.fractionBits) blocks
    rw [Nat.add_mul] at scaled
    rw [Nat.pow_succ] at moved_small
    simp only [infinityRank, Nat.pow_eq] at scaled ⊢
    omega
  · rw [value, same_exponent, same_significand]
    push_cast
    rw [mul_assoc, ← zpow_natCast (2 : ℚ) shift, ← zpow_add₀ (by norm_num)]
    congr 2
    omega

end Format

namespace Binary

/-- Every finite single has its value among the finite doubles. -/
theorem value_widened {rank : Nat} (finite : rank < Format.single.infinityRank) :
    ∃ wide, wide < Format.double.infinityRank ∧
      Format.double.value wide = Format.single.value rank := by
  obtain ⟨least, counted, small, -⟩ := Format.single.rank_parts rank
  rcases Nat.eq_zero_or_pos (Format.single.significand rank) with zero | positive
  · refine ⟨0, by decide, ?_⟩
    have nothing : Format.double.significand 0 = 0 := by decide
    rw [Format.value, Format.value, nothing, zero, Nat.cast_zero, zero_mul, zero_mul]
  · have low : Format.single.leastExponent = -149 := by decide
    have last : Format.single.infinityRank = 255 * 2 ^ 23 := by decide
    have fraction : Format.single.fractionBits = 23 := rfl
    rw [low] at least
    rw [low, fraction] at counted
    rw [last] at finite
    refine Format.value_found positive small (by decide) ?_ ?_
    · have wide : Format.double.leastExponent = -1074 := by decide
      have bits : Format.double.fractionBits = 52 := rfl
      rw [wide, bits]
      omega
    · have wide : Format.double.leastExponent = -1074 := by decide
      have exponents : Nat.pow 2 Format.double.exponentBits = 2048 := by decide
      rw [wide, exponents, fraction]
      omega

theorem ratio_some {f : Format} {negative : Bool} {rank : Fin (f.infinityRank + 1)}
    (finite : rank.val < f.infinityRank) :
    ratio? (.number negative rank) =
      some (negative, scaledRatio 2 (f.significand rank.val) (f.exponent rank.val)) := by
  rw [ratio?, if_neg finite.ne]
  rfl

theorem of_rank_eq {f : Format} {rank : Nat} (negative : Bool) (finite : rank < f.infinityRank) :
    ofRank f negative rank = .number negative ⟨rank, by omega⟩ := by
  rw [ofRank]
  congr 1
  exact Fin.ext (Nat.min_eq_left finite.le)

/-- What has the value of a number of another format is converted to this number. -/
theorem convert_of_value {f g : Format} {negative : Bool} {rank : Fin (f.infinityRank + 1)}
    {other : Nat} (finite : rank.val < f.infinityRank) (fits : other < g.infinityRank)
    (same : g.value other = f.value rank.val) :
    convert g (.number negative rank) = .number negative ⟨other, by omega⟩ := by
  have nearest := Format.nearest_of_value
    (scaled_ratio_pos Nat.two_pos (f.significand rank.val) (f.exponent rank.val)) fits
    ((f.value_eq_ratio rank.val).trans same.symm)
  rw [convert, ratio_some finite]
  dsimp only
  rw [ofRatio, nearest, of_rank_eq negative fits]

theorem finite_rank {f : Format} {negative : Bool} {rank : Fin (f.infinityRank + 1)}
    (finite : (number negative rank).isFinite = true) : rank.val < f.infinityRank := by
  refine Nat.lt_of_le_of_ne (Nat.le_of_lt_succ rank.isLt) fun infinite => ?_
  rw [isFinite, ratio?, if_pos infinite] at finite
  cases finite

/-- A finite single is widened to a finite double, which is narrowed to the single again. -/
theorem widened_narrowed {x : Single} (finite : x.isFinite = true) :
    (x.convert .double).convert .single = x := by
  cases x with
  | nan => cases finite
  | number negative rank =>
      have narrow := finite_rank finite
      obtain ⟨wide, fits, same⟩ := value_widened narrow
      rw [convert_of_value narrow fits same, convert_of_value fits narrow same.symm]

end Binary

end GraphQL
