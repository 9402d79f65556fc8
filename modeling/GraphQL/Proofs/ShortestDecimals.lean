import GraphQL.Proofs.Rounding

/-!
The shortest decimals of numbers with 32 bits.

The search for a grid ends: a grid finer than a quarter of the spacing has a member that rounds to the
number, and ten lies between eight and sixteen. What it ends with rounds to the number and is read as
it, and is a whole number exactly if the number is one.
-/

namespace GraphQL

/-- Between which multiples of one ratio another one is. -/
theorem ratio_floor_bounds {a b c d : Nat} (below : 0 < b) (positive : 0 < c) (unit : 0 < d) :
    ((a * d / (b * c) : Nat) : ℚ) * (c / d) ≤ a / b ∧
      (a / b : ℚ) < ((a * d / (b * c) : Nat) + 1) * (c / d) := by
  have least := Nat.div_mul_le_self (a * d) (b * c)
  have greatest := Nat.lt_div_mul_add (a := a * d) (Nat.mul_pos below positive)
  rw [← Nat.succ_mul] at greatest
  have divisor : (0 : ℚ) < b := by exact_mod_cast below
  have other : (0 : ℚ) < d := by exact_mod_cast unit
  rw [← mul_div_assoc, ← mul_div_assoc, div_le_div_iff₀ other divisor, div_lt_div_iff₀ divisor other]
  generalize a * d / (b * c) = quotient at least greatest ⊢
  refine ⟨?_, ?_⟩
  · exact_mod_cast (by linarith : quotient * c * b ≤ a * d)
  · exact_mod_cast (by linarith : a * d < (quotient + 1) * c * b)

section PowersOfTen

theorem eight_pow_le {power : Int} (there : 0 ≤ power) : (2 : ℚ) ^ (3 * power) ≤ 10 ^ power := by
  rw [zpow_mul]
  exact zpow_le_zpow_left₀ there (by norm_num) (by norm_num)

theorem le_sixteen_pow {power : Int} (there : 0 ≤ power) : (10 : ℚ) ^ power ≤ 2 ^ (4 * power) := by
  rw [zpow_mul]
  exact zpow_le_zpow_left₀ there (by norm_num) (by norm_num)

theorem le_eight_pow {power : Int} (below : power ≤ 0) : (10 : ℚ) ^ power ≤ 2 ^ (3 * power) := by
  have inverse := eight_pow_le (neg_nonneg.mpr below)
  rw [mul_neg, zpow_neg, zpow_neg] at inverse
  exact (inv_le_inv₀ (by positivity) (by positivity)).mp inverse

end PowersOfTen

namespace Format

variable {f : Format} {rank : Nat} {tieUpward : Bool}

/-- The number of a rank. -/
def value (f : Format) (rank : Nat) : ℚ := f.significand rank * 2 ^ f.exponent rank

theorem lowest_within (filled : 0 < f.significand rank) :
    0 < f.lowest rank ∧ f.lowest rank < 4 * f.significand rank := by
  rw [lowest]
  split <;> omega

/-- A positive number rounds to itself, with more than a quarter of a spacing to spare. -/
theorem Cell.around (filled : 0 < f.significand rank) {x : ℚ}
    (least : f.value rank < x + 2 ^ (f.exponent rank - 2)) (most : x ≤ f.value rank) :
    f.Cell rank x := by
  have low : (f.lowest rank : ℚ) + 1 ≤ 4 * f.significand rank := by
    exact_mod_cast (lowest_within filled).2
  have quarter : (0 : ℚ) < 2 ^ (f.exponent rank - 2) := by positivity
  have scaled := mul_le_mul_of_nonneg_right low quarter.le
  rw [value, quarters] at least most
  have strict : f.lowest rank * 2 ^ (f.exponent rank - 2) < x ∧
      x < (4 * f.significand rank + 2) * 2 ^ (f.exponent rank - 2) :=
    ⟨by linarith, by linarith⟩
  exact ⟨strict.1.le, strict.2.le, .inr strict⟩

theorem Cell.own (filled : 0 < f.significand rank) : f.Cell rank (f.value rank) :=
  .around filled (lt_add_of_pos_right _ (by positivity)) le_rfl

/-- Where spacings are no more than one, no natural but the number itself rounds to it. -/
theorem Cell.natural {n : Nat} (cell : f.Cell rank n) (fine : f.exponent rank ≤ 0) :
    f.value rank = n := by
  obtain ⟨least, most, -⟩ := cell.half_spacing
  obtain ⟨k, power⟩ := Int.eq_ofNat_of_zero_le (neg_nonneg.mpr fine)
  have same : (n : ℚ) = (n * 2 ^ k : Nat) * 2 ^ f.exponent rank := by
    rw [← neg_neg (f.exponent rank), power, zpow_neg, zpow_natCast]
    push_cast
    field_simp
  have spacing : (0 : ℚ) < 2 ^ f.exponent rank := by positivity
  rw [same, ← mul_assoc, mul_le_mul_iff_left₀ spacing] at least most
  have close : 2 * f.significand rank ≤ 2 * (n * 2 ^ k) + 1 ∧
      2 * (n * 2 ^ k) ≤ 2 * f.significand rank + 1 :=
    ⟨by exact_mod_cast sub_le_iff_le_add.mp least, by exact_mod_cast most⟩
  have equal : f.significand rank = n * 2 ^ k := by omega
  rw [value, same, equal]

theorem on_grid_rounds {exponent : Int} {digits : Nat}
    (found : f.onGrid? tieUpward rank exponent = some digits) :
    f.roundsTo rank digits exponent = true := by
  unfold onGrid? at found
  dsimp only at found
  split at found
  · cases found
  · rename_i below _
    cases found
    exact below
  · rename_i _ above
    cases found
    exact above
  · rename_i below above
    split at found
    · cases found
      exact below
    split at found
    · cases found
      exact above
    split at found
    · cases found
      exact above
    · cases found
      exact below

/-- The member of a grid just below a number. -/
def floorOn (f : Format) (rank : Nat) (exponent : Int) : Nat :=
  let numerator := (scaledRatio 2 (f.significand rank) (f.exponent rank)).1 *
    (scaledRatio 10 1 exponent).2
  numerator / ((scaledRatio 2 (f.significand rank) (f.exponent rank)).2 *
    (scaledRatio 10 1 exponent).1)

theorem floor_on_bounds (f : Format) (rank : Nat) (exponent : Int) :
    f.floorOn rank exponent * 10 ^ exponent ≤ f.value rank ∧
      f.value rank < (f.floorOn rank exponent + 1) * (10 : ℚ) ^ exponent := by
  have value := scaled_ratio 2 (f.significand rank) (f.exponent rank)
  have grid := scaled_ratio 10 1 exponent
  have below := scaled_ratio_pos Nat.two_pos (f.significand rank) (f.exponent rank)
  have unit := scaled_ratio_pos (Nat.succ_pos 9) 1 exponent
  push_cast at value grid
  rw [one_mul] at grid
  rw [floorOn, Format.value, ← value, ← grid]
  exact ratio_floor_bounds below (scaled_ratio_filled (Nat.succ_pos 9) Nat.one_pos exponent) unit

/-- A grid has a member for a number if its member just below rounds to the number. -/
theorem on_grid_found {exponent : Int}
    (cell : f.Cell rank (f.floorOn rank exponent * 10 ^ exponent)) :
    (f.onGrid? tieUpward rank exponent).isSome = true := by
  have rounds : f.roundsTo rank (f.floorOn rank exponent) exponent = true :=
    rounds_to_iff.mpr cell
  unfold onGrid?
  dsimp only
  split
  · rename_i misses _
    have missed : f.roundsTo rank (f.floorOn rank exponent) exponent = false := misses
    rw [rounds] at missed
    cases missed
  · rfl
  · rfl
  · split
    · rfl
    split
    · rfl
    split <;> rfl

/-- The search stops no later than on a grid that has a member for the number. -/
theorem search_finds {grids : Nat} {exponent target : Int} (within : exponent - grids < target)
    (ahead : target ≤ exponent) (there : (f.onGrid? tieUpward rank target).isSome = true) :
    ∃ digits power, f.searchGrids tieUpward rank grids exponent = (digits, power) ∧
      target ≤ power ∧ f.roundsTo rank digits power = true := by
  induction grids generalizing exponent with
  | zero => omega
  | succ grids ih =>
      rw [searchGrids]
      cases found : f.onGrid? tieUpward rank exponent with
      | some digits => exact ⟨digits, exponent, rfl, ahead, on_grid_rounds found⟩
      | none =>
          have other : target ≠ exponent := by
            rintro rfl
            rw [found] at there
            cases there
          exact ih (by omega) (by omega)

end Format

namespace Single

variable {rank : Nat}

/-- What is known of the parts of a positive number that is not infinite. -/
theorem parts_bounds (positive : 0 < rank) (finite : rank < Format.single.infinityRank) :
    -149 ≤ Format.single.exponent rank ∧ Format.single.exponent rank ≤ 104 ∧
      0 < Format.single.significand rank ∧ Format.single.significand rank < 2 ^ 24 := by
  obtain ⟨least, counted, small, normal, -⟩ := Format.single.rank_parts rank
  have bottom : Format.single.leastExponent = -149 := by decide
  have top : Format.single.infinityRank = 255 * 2 ^ 23 := by decide
  have width : Format.single.fractionBits = 23 := rfl
  rw [bottom, width] at counted normal
  rw [bottom] at least
  rw [width] at small
  rw [top] at finite
  refine ⟨least, ?_, ?_, small⟩
  · by_cases grown : -149 < Format.single.exponent rank
    · have large := normal grown
      omega
    · omega
  · by_cases grown : -149 < Format.single.exponent rank
    · have large := normal grown
      omega
    · have same : Format.single.exponent rank = -149 := by omega
      rw [same, Int.sub_self, Int.toNat_zero, Nat.zero_mul, Nat.zero_add] at counted
      omega

/-- A grid that is finer than a quarter of the spacing has a member for the number. -/
theorem fine_grid_found {f : Format} {tieUpward : Bool} {exponent : Int}
    (filled : 0 < f.significand rank) (fine : (10 : ℚ) ^ exponent ≤ 2 ^ (f.exponent rank - 2)) :
    (f.onGrid? tieUpward rank exponent).isSome = true := by
  obtain ⟨below, above⟩ := f.floor_on_bounds rank exponent
  refine Format.on_grid_found (.around filled ?_ below)
  rw [add_mul, one_mul] at above
  linarith

/-- The last grids that are tried are fine enough. -/
theorem last_grid_fine {m : Nat} {q target : Int} (least : -149 ≤ q) (greatest : q ≤ 104)
    (small : m < 2 ^ 24)
    (last : target = (Nat.log2 m + 1 + q) * 30103 / 100000 + 2 - 30) :
    (10 : ℚ) ^ target ≤ 2 ^ (q - 2) := by
  have log : (Nat.log2 m : Int) ≤ 23 := by
    rcases Nat.eq_zero_or_pos m with rfl | positive
    · decide
    · have bound := (Nat.log2_lt positive.ne').mpr small
      omega
  rcases Int.le_total target 0 with below | above
  · refine (le_eight_pow below).trans (zpow_le_zpow_right₀ (by norm_num) ?_)
    omega
  · refine (le_sixteen_pow above).trans (zpow_le_zpow_right₀ (by norm_num) ?_)
    omega

/-- Where the search for the shortest decimal begins. -/
def firstGrid (rank : Nat) : Int :=
  (Nat.log2 (Format.single.significand rank) + 1 + Format.single.exponent rank) * 30103 / 100000 + 2

/-- If some grid that is tried has a member for the number, so has the one that the search stops at. -/
theorem shortest_found {tieUpward : Bool} {target : Int} (filled : 0 < Format.single.significand rank)
    (within : firstGrid rank - 30 ≤ target) (ahead : target ≤ firstGrid rank)
    (there : (Format.single.onGrid? tieUpward rank target).isSome = true) :
    ∃ digits power, Format.single.shortest tieUpward rank = (digits, power) ∧ target ≤ power ∧
      0 < digits ∧ Format.single.Cell rank (digits * 10 ^ power) := by
  obtain ⟨digits, power, found, reached, rounds⟩ :=
    @Format.search_finds _ _ _ 31 (firstGrid rank) target (by omega) ahead there
  have cell := Format.rounds_to_iff.mp rounds
  refine ⟨digits, power, found, reached, Nat.pos_of_ne_zero ?_, cell⟩
  rintro rfl
  have lowest : (0 : ℚ) < Format.single.lowest rank := by
    exact_mod_cast (Format.lowest_within filled).1
  have lower := cell.lower
  rw [Nat.cast_zero, zero_mul] at lower
  exact absurd lower (not_le.mpr (by positivity))

/-- The shortest decimal of a number rounds to it. -/
theorem shortest_in_cell (tieUpward : Bool) (positive : 0 < rank)
    (finite : rank < Format.single.infinityRank) :
    ∃ digits power, Format.single.shortest tieUpward rank = (digits, power) ∧ 0 < digits ∧
      Format.single.Cell rank (digits * 10 ^ power) := by
  obtain ⟨least, greatest, filled, small⟩ := parts_bounds positive finite
  obtain ⟨digits, power, found, -, rest⟩ := shortest_found filled le_rfl (by omega)
    (@fine_grid_found _ .single tieUpward _ filled (last_grid_fine least greatest small rfl))
  exact ⟨digits, power, found, rest⟩

/-- A positive natural takes up a bit in front of the point. -/
theorem magnitude_bits (filled : 0 < Format.single.significand rank) {n : Nat}
    (whole : Format.single.value rank = n) :
    0 < (Nat.log2 (Format.single.significand rank) + 1 + Format.single.exponent rank : Int) := by
  have less : (Format.single.significand rank : ℚ) <
      2 ^ ((Nat.log2 (Format.single.significand rank) : Int) + 1) := lt_two_pow_log _
  have spacing : (0 : ℚ) < 2 ^ Format.single.exponent rank := by positivity
  have scaled := mul_lt_mul_of_pos_right less spacing
  have there : (0 : ℚ) < Format.single.value rank := by
    have digits : (0 : ℚ) < Format.single.significand rank := by exact_mod_cast filled
    exact mul_pos digits spacing
  rw [← Format.value, whole, ← zpow_add₀ (by norm_num)] at scaled
  rw [whole] at there
  have natural : 1 ≤ n := by exact_mod_cast there
  have one : (2 : ℚ) ^ (0 : Int) ≤ n := by
    rw [zpow_zero]
    exact_mod_cast natural
  exact (zpow_lt_zpow_iff_right₀ (by norm_num)).mp (one.trans_lt scaled)

/-- The shortest decimal of a whole number has no places behind the point. -/
theorem whole_shortest (tieUpward : Bool) (positive : 0 < rank)
    (finite : rank < Format.single.infinityRank) {n : Nat} (whole : Format.single.value rank = n) :
    ∃ digits zeros : Nat, Format.single.shortest tieUpward rank = (digits, (zeros : Int)) ∧
      0 < digits ∧ Format.single.Cell rank (digits * 10 ^ (zeros : Int)) := by
  obtain ⟨least, greatest, filled, small⟩ := parts_bounds positive finite
  have grid : ∃ target : Int, 0 ≤ target ∧ firstGrid rank - 30 ≤ target ∧
      target ≤ firstGrid rank ∧ (Format.single.onGrid? tieUpward rank target).isSome = true := by
    rcases Int.le_total (firstGrid rank - 30) 0 with natural | coarse
    · refine ⟨0, le_rfl, natural, ?_, ?_⟩
      · have size := magnitude_bits filled whole
        rw [firstGrid]
        omega
      · obtain ⟨below, above⟩ := Format.single.floor_on_bounds rank 0
        rw [zpow_zero, mul_one, whole] at below above
        have own : Format.single.floorOn rank 0 = n := by
          have less : Format.single.floorOn rank 0 ≤ n := by exact_mod_cast below
          have more : n < Format.single.floorOn rank 0 + 1 := by exact_mod_cast above
          omega
        refine Format.on_grid_found ?_
        rw [zpow_zero, mul_one, own, ← whole]
        exact .own filled
    · exact ⟨_, coarse, le_rfl, by omega,
        fine_grid_found filled (last_grid_fine least greatest small rfl)⟩
  obtain ⟨target, natural, within, ahead, there⟩ := grid
  obtain ⟨digits, power, found, reached, rest⟩ := shortest_found filled within ahead there
  obtain ⟨zeros, rfl⟩ := Int.eq_ofNat_of_zero_le (natural.trans reached)
  exact ⟨digits, zeros, found, rest⟩

/-- A positive natural with 24 bits is one of the numbers. -/
theorem natural_rank {n : Nat} (there : 0 < n) (small : n < 2 ^ 24) :
    ∃ rank, 0 < rank ∧ rank < Format.single.infinityRank ∧ Format.single.exponent rank ≤ 0 ∧
      Format.single.value rank = n := by
  have low := Nat.log2_self_le there.ne'
  have high := @Nat.lt_log2_self n
  have bits : Nat.log2 n < 24 := (Nat.log2_lt there.ne').mpr small
  generalize Nat.log2 n = log at low high bits
  obtain ⟨shift, full⟩ : ∃ shift, log + shift = 23 := ⟨23 - log, by omega⟩
  have width : 2 ^ 23 ≤ n * 2 ^ shift ∧ n * 2 ^ shift < 2 ^ 24 := by
    have least := Nat.mul_le_mul_right (2 ^ shift) low
    have most := Nat.mul_lt_mul_of_pos_right high (Nat.two_pow_pos shift)
    rw [← Nat.pow_add] at least most
    rw [full] at least
    rw [Nat.add_right_comm, full] at most
    exact ⟨least, most⟩
  -- With its leading bit moved to the front of the significand, the natural has this rank.
  have top : Format.single.infinityRank = 255 * 2 ^ 23 := by decide
  refine ⟨(log + 126) * 2 ^ 23 + n * 2 ^ shift, by omega, by omega, ?_⟩
  obtain ⟨least, counted, less, normal, -⟩ :=
    Format.single.rank_parts ((log + 126) * 2 ^ 23 + n * 2 ^ shift)
  have bottom : Format.single.leastExponent = -149 := by decide
  have fraction : Format.single.fractionBits = 23 := rfl
  rw [bottom, fraction] at counted normal
  rw [bottom] at least
  rw [fraction] at less
  rw [Format.value]
  generalize Format.single.exponent ((log + 126) * 2 ^ 23 + n * 2 ^ shift) = q at *
  generalize Format.single.significand ((log + 126) * 2 ^ 23 + n * 2 ^ shift) = m at *
  obtain ⟨rfl, rfl⟩ : q = -shift ∧ m = n * 2 ^ shift := by
    by_cases grown : -149 < q
    · have large := normal grown
      omega
    · omega
  refine ⟨by omega, ?_⟩
  rw [zpow_neg, zpow_natCast]
  push_cast
  field_simp

/-- What rounds to a positive number is neither too small nor too large for the format. -/
theorem cell_bounds (positive : 0 < rank) (finite : rank < Format.single.infinityRank) {x : ℚ}
    (cell : Format.single.Cell rank x) : 2 ^ (-150 : Int) ≤ x ∧ x < 2 ^ (128 : Int) := by
  obtain ⟨least, greatest, filled, -⟩ := parts_bounds positive finite
  have width : Format.single.fractionBits = 23 := rfl
  constructor
  · have significand : (1 : ℚ) ≤ Format.single.significand rank := by exact_mod_cast filled
    have spacing : (2 : ℚ) ^ (-149 : Int) ≤ 2 ^ Format.single.exponent rank :=
      zpow_le_zpow_right₀ (by norm_num) least
    have scaled := mul_le_mul_of_nonneg_right significand
      (zpow_pos two_pos (Format.single.exponent rank)).le
    have bottom : (2 : ℚ) ^ (-149 : Int) = 2 * 2 ^ (-150 : Int) := by norm_num
    rw [bottom] at spacing
    linarith [cell.half_spacing.1]
  · refine cell.below_end.trans_le (zpow_le_zpow_right₀ (by norm_num) ?_)
    rw [width]
    omega

section Estimates

variable {digits : Nat} {power : Int}

theorem estimate_low (there : 0 < digits) (upward : 0 ≤ power) :
    (2 : ℚ) ^ ((Nat.log2 digits : Int) + 3 * power) ≤ digits * 10 ^ power := by
  rw [zpow_add₀ (by norm_num)]
  exact mul_le_mul (two_pow_log_le there) (eight_pow_le upward) (by positivity) (by positivity)

theorem estimate_high (digits : Nat) (downward : power ≤ 0) :
    digits * 10 ^ power < (2 : ℚ) ^ ((Nat.log2 digits : Int) + 1 + 3 * power) := by
  rw [zpow_add₀ (by norm_num)]
  exact mul_lt_mul (lt_two_pow_log digits) (le_eight_pow downward) (by positivity) (by positivity)

end Estimates

/-- A decimal in the cell of a number is read as that number. -/
theorem read_decimal (positive : 0 < rank) (finite : rank < Format.single.infinityRank)
    {digits : Nat} {power : Int} (there : 0 < digits)
    (cell : Format.single.Cell rank (digits * 10 ^ power)) (negative : Bool) :
    Binary.ofDecimal .single negative digits power = Binary.ofRank .single negative rank := by
  obtain ⟨large, small⟩ := cell_bounds positive finite cell
  have compare {a b : Int} (less : (2 : ℚ) ^ a < 2 ^ b) : a < b :=
    (zpow_lt_zpow_iff_right₀ (by norm_num)).mp less
  have not_huge : ¬ (0 ≤ power ∧ (Nat.pow 2 (8 - 1) : Nat) ≤ (Nat.log2 digits : Int) + 3 * power) := by
    rintro ⟨upward, huge⟩
    exact absurd (compare ((estimate_low there upward).trans_lt small)) (not_lt.mpr huge)
  have not_tiny : ¬ (power < 0 ∧ (Nat.log2 digits : Int) + 1 + 3 * power ≤ -149 - 1) := by
    rintro ⟨downward, tiny⟩
    exact absurd (compare (large.trans_lt (estimate_high digits downward.le))) (not_lt.mpr tiny)
  have ratio := scaled_ratio 10 digits power
  have below := scaled_ratio_pos (Nat.succ_pos 9) digits power
  have above := scaled_ratio_filled (Nat.succ_pos 9) there power
  have nearest := Format.Cell.nearest above below finite (ratio ▸ cell)
  rw [Binary.ofDecimal, if_neg there.ne']
  refine (if_neg not_huge).trans ((if_neg not_tiny).trans ?_)
  exact congrArg (Binary.ofRank .single negative) nearest

end Single

end GraphQL
