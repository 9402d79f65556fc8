import GraphQL.Number.Decimal
import Mathlib.Algebra.Order.Field.Power
import Mathlib.Data.Nat.Cast.Order.Field
import Mathlib.Algebra.Order.Ring.Unbundled.Rat
import Mathlib.Algebra.Field.Rat
import Mathlib.Tactic.FieldSimp
import Mathlib.Tactic.Linarith
import Mathlib.Tactic.NormNum
import Mathlib.Tactic.Positivity
import Mathlib.Tactic.Ring

/-!
Which ratios round to which numbers of a format.

Measured in quarters of the spacing, the ratios that round to a number reach half a spacing up and
down, but only a quarter down from a power of two. They include their ends if the significand is
even.
-/

namespace GraphQL

section Ratios

theorem scaled_ratio (base numerator : Nat) (exponent : Int) :
    ((scaledRatio base numerator exponent).1 : ℚ) / (scaledRatio base numerator exponent).2 =
      numerator * (base : ℚ) ^ exponent := by
  cases exponent with
  | ofNat n => simp [scaledRatio]
  | negSucc n => simp [scaledRatio, zpow_negSucc, div_eq_mul_inv]

theorem scaled_ratio_pos {base : Nat} (positive : 0 < base) (numerator : Nat) (exponent : Int) :
    0 < (scaledRatio base numerator exponent).2 := by
  cases exponent with
  | ofNat n => exact Nat.one_pos
  | negSucc n => exact Nat.pow_pos positive

theorem scaled_ratio_filled {base numerator : Nat} (positive : 0 < base) (there : 0 < numerator)
    (exponent : Int) : 0 < (scaledRatio base numerator exponent).1 := by
  cases exponent with
  | ofNat n => exact Nat.mul_pos there (Nat.pow_pos positive)
  | negSucc n => exact there

/-- The nearest natural is the only one that is not farther away than a half. -/
theorem round_half_even_eq {numerator denominator m : Nat}
    (above : 2 * m * denominator ≤ 2 * numerator + denominator)
    (below : 2 * numerator ≤ 2 * m * denominator + denominator)
    (tie : m % 2 = 0 ∨ 2 * m * denominator < 2 * numerator + denominator ∧
      2 * numerator < 2 * m * denominator + denominator)
    (positive : 0 < denominator) :
    roundHalfEven numerator denominator = m := by
  have whole := Nat.div_add_mod numerator denominator
  have rest := Nat.mod_lt numerator positive
  rw [roundHalfEven]
  generalize numerator / denominator = quotient at whole ⊢
  generalize numerator % denominator = remainder at whole rest ⊢
  rw [Nat.mul_assoc, Nat.mul_comm m] at above below tie
  rcases Nat.lt_or_ge m quotient with less | least
  · have step := Nat.mul_le_mul_left denominator less
    rw [Nat.mul_succ] at step
    omega
  rcases Nat.lt_or_ge (quotient + 1) m with more | greatest
  · have step := Nat.mul_le_mul_left denominator more
    rw [Nat.mul_succ, Nat.mul_succ] at step
    omega
  rcases Nat.eq_or_lt_of_le least with rfl | next
  · split
    · rfl
    · split <;> omega
  · obtain rfl : m = quotient + 1 := by omega
    rw [Nat.mul_succ] at above below tie
    split
    · omega
    · split <;> omega

theorem two_pow_log_le {n : Nat} (there : 0 < n) : (2 : ℚ) ^ (Nat.log2 n : Int) ≤ n := by
  have least := Nat.log2_self_le there.ne'
  rw [zpow_natCast]
  exact_mod_cast least

theorem lt_two_pow_log (n : Nat) : (n : ℚ) < 2 ^ ((Nat.log2 n : Int) + 1) := by
  have greatest := @Nat.lt_log2_self n
  have cast : ((Nat.log2 n : Int) + 1) = ((Nat.log2 n + 1 : Nat) : Int) := rfl
  rw [cast, zpow_natCast]
  exact_mod_cast greatest

/-- The logarithm of a ratio, rounded down. -/
theorem floor_log_spec {numerator denominator : Nat} (positive : 0 < numerator)
    (below : 0 < denominator) :
    (2 : ℚ) ^ floorLog2 numerator denominator ≤ numerator / denominator ∧
      (numerator / denominator : ℚ) < 2 ^ (floorLog2 numerator denominator + 1) := by
  have divisor : (0 : ℚ) < denominator := by exact_mod_cast below
  have two : (0 : ℚ) < 2 := by norm_num
  have ratio_less : (numerator / denominator : ℚ) <
      2 ^ ((Nat.log2 numerator : Int) + 1 - Nat.log2 denominator) := by
    rw [zpow_sub₀ two.ne', div_lt_div_iff₀ divisor (by positivity)]
    exact mul_lt_mul (lt_two_pow_log numerator) (two_pow_log_le below) (by positivity) (by positivity)
  have ratio_more : (2 : ℚ) ^ ((Nat.log2 numerator : Int) - (Nat.log2 denominator + 1)) ≤
      numerator / denominator := by
    rw [zpow_sub₀ two.ne', div_le_div_iff₀ (by positivity) divisor]
    exact mul_le_mul (two_pow_log_le positive) (lt_two_pow_log denominator).le (by positivity)
      (by positivity)
  have test (guess : Int) :
      (scaledRatio 2 denominator guess).1 ≤ numerator * (scaledRatio 2 denominator guess).2 ↔
        (2 : ℚ) ^ guess ≤ numerator / denominator := by
    have unit : (0 : ℚ) < (scaledRatio 2 denominator guess).2 := by
      exact_mod_cast scaled_ratio_pos Nat.two_pos denominator guess
    have scaled := scaled_ratio 2 denominator guess
    rw [div_eq_iff unit.ne'] at scaled
    rw [le_div_iff₀ divisor, ← mul_le_mul_iff_left₀ unit, mul_comm (2 ^ guess : ℚ)]
    push_cast at scaled
    rw [← scaled]
    exact_mod_cast Iff.rfl
  have chosen : floorLog2 numerator denominator =
      if (scaledRatio 2 denominator (Nat.log2 numerator - Nat.log2 denominator)).1 ≤
          numerator * (scaledRatio 2 denominator (Nat.log2 numerator - Nat.log2 denominator)).2
      then (Nat.log2 numerator : Int) - Nat.log2 denominator
      else Nat.log2 numerator - Nat.log2 denominator - 1 := rfl
  rw [chosen]
  split
  · rename_i reached
    rw [test] at reached
    refine ⟨reached, ?_⟩
    rwa [sub_add_eq_add_sub]
  · rename_i missed
    rw [test, not_le] at missed
    refine ⟨?_, by rwa [sub_add_cancel]⟩
    rwa [sub_sub]

/-- On the grid of multiples of a power of two, a ratio is rounded to the nearest one. -/
theorem rounded_on_grid {numerator denominator m : Nat} {exponent : Int} (positive : 0 < denominator)
    (above : (2 * m - 1 : ℚ) * 2 ^ exponent ≤ 2 * (numerator / denominator))
    (below : 2 * (numerator / denominator : ℚ) ≤ (2 * m + 1) * 2 ^ exponent)
    (tie : m % 2 = 0 ∨ (2 * m - 1 : ℚ) * 2 ^ exponent < 2 * (numerator / denominator) ∧
      2 * (numerator / denominator : ℚ) < (2 * m + 1) * 2 ^ exponent) :
    roundHalfEven (numerator * (scaledRatio 2 denominator exponent).2)
      (scaledRatio 2 denominator exponent).1 = m := by
  have divisor : (0 : ℚ) < denominator := by exact_mod_cast positive
  have scaled := scaled_ratio 2 denominator exponent
  have factor : (0 : ℚ) < (scaledRatio 2 denominator exponent).2 := by
    exact_mod_cast scaled_ratio_pos Nat.two_pos denominator exponent
  generalize (scaledRatio 2 denominator exponent).1 = unit at scaled ⊢
  generalize (scaledRatio 2 denominator exponent).2 = scale at scaled factor ⊢
  push_cast at scaled
  have there : (0 : ℚ) < scale * denominator := by positivity
  -- Both sides of each inequality are multiplied by the scale and the denominator.
  have power : (2 : ℚ) ^ exponent * (scale * denominator) = unit := by
    rw [div_eq_iff factor.ne'] at scaled
    rw [scaled]
    ring
  have ratio : (numerator / denominator : ℚ) * (scale * denominator) = numerator * scale := by
    field_simp
  have scaled_up (a b : ℚ) : a * (scale * denominator) ≤ b * (scale * denominator) ↔ a ≤ b :=
    mul_le_mul_iff_left₀ there
  have strictly_up (a b : ℚ) : a * (scale * denominator) < b * (scale * denominator) ↔ a < b :=
    mul_lt_mul_iff_left₀ there
  have low : (2 * m - 1 : ℚ) * 2 ^ exponent * (scale * denominator) = 2 * m * unit - unit := by
    rw [mul_assoc, power]
    ring
  have high : (2 * m + 1 : ℚ) * 2 ^ exponent * (scale * denominator) = 2 * m * unit + unit := by
    rw [mul_assoc, power]
    ring
  have middle : 2 * (numerator / denominator : ℚ) * (scale * denominator) =
      2 * (numerator * scale) := by
    rw [mul_assoc, ratio]
  rw [← scaled_up, low, middle] at above
  rw [← scaled_up, high, middle] at below
  rw [← strictly_up, low, middle, ← strictly_up (2 * (numerator / denominator)), high, middle] at tie
  refine round_half_even_eq ?_ ?_ (tie.imp_right fun strict => ⟨?_, ?_⟩) ?_
  · exact_mod_cast sub_le_iff_le_add.mp above
  · exact_mod_cast below
  · exact_mod_cast sub_lt_iff_lt_add.mp strict.1
  · exact_mod_cast strict.2
  · have units : (0 : ℚ) < unit := power ▸ by positivity
    exact_mod_cast units

end Ratios

namespace Format

variable (f : Format)

def significand (rank : Nat) : Nat := (f.parts rank).1

def exponent (rank : Nat) : Int := (f.parts rank).2

/-- Where the ratios begin that round to a number, in quarters of the spacing. -/
def lowest (rank : Nat) : Nat :=
  if f.significand rank = 2 ^ f.fractionBits ∧ 2 ^ (f.fractionBits + 1) ≤ rank then
    4 * f.significand rank - 1
  else 4 * f.significand rank - 2

/-- The ratios that round to the number of a rank. -/
structure Cell (rank : Nat) (x : ℚ) : Prop where
  lower : f.lowest rank * 2 ^ (f.exponent rank - 2) ≤ x
  upper : x ≤ (4 * f.significand rank + 2) * 2 ^ (f.exponent rank - 2)
  inside : f.significand rank % 2 = 0 ∨ f.lowest rank * 2 ^ (f.exponent rank - 2) < x ∧
    x < (4 * f.significand rank + 2) * 2 ^ (f.exponent rank - 2)

variable {f : Format} {rank : Nat}

/-- Whether a decimal rounds to a number is tested without division. -/
theorem rounds_to_iff {digits : Nat} {power : Int} :
    f.roundsTo rank digits power = true ↔ f.Cell rank (digits * 10 ^ power) := by
  have decimal := scaled_ratio 10 digits power
  have quarter := scaled_ratio 2 1 (f.exponent rank - 2)
  have below := scaled_ratio_pos (Nat.succ_pos 9) digits power
  have under := scaled_ratio_pos Nat.two_pos 1 (f.exponent rank - 2)
  have cells : f.Cell rank (digits * 10 ^ power) ↔
      (f.lowest rank * 2 ^ (f.exponent rank - 2) ≤ digits * (10 : ℚ) ^ power ∧
        digits * (10 : ℚ) ^ power ≤ (4 * f.significand rank + 2) * 2 ^ (f.exponent rank - 2)) ∧
      (f.significand rank % 2 = 0 ∨
        f.lowest rank * 2 ^ (f.exponent rank - 2) < digits * (10 : ℚ) ^ power ∧
        digits * (10 : ℚ) ^ power < (4 * f.significand rank + 2) * 2 ^ (f.exponent rank - 2)) :=
    ⟨fun cell => ⟨⟨cell.lower, cell.upper⟩, cell.inside⟩, fun all => ⟨all.1.1, all.1.2, all.2⟩⟩
  rw [cells]
  unfold roundsTo
  rw [lowest, exponent, significand] at *
  generalize f.parts rank = parts at *
  obtain ⟨m, q⟩ := parts
  dsimp only at *
  generalize scaledRatio 10 digits power = ratio at *
  generalize scaledRatio 2 1 (q - 2) = grid at *
  obtain ⟨a, b⟩ := ratio
  obtain ⟨c, d⟩ := grid
  dsimp only at *
  push_cast at decimal quarter
  rw [one_mul] at quarter
  rw [← decimal, ← quarter]
  have positive : (0 : ℚ) < b := by exact_mod_cast below
  have positive' : (0 : ℚ) < d := by exact_mod_cast under
  have least (k : Nat) : (k : ℚ) * (c / d) ≤ a / b ↔ k * (b * c) ≤ a * d := by
    rw [mul_div_assoc', div_le_div_iff₀ positive' positive, mul_right_comm, mul_assoc]
    exact_mod_cast Iff.rfl
  have most (k : Nat) : (a / b : ℚ) ≤ k * (c / d) ↔ a * d ≤ k * (b * c) := by
    rw [mul_div_assoc', div_le_div_iff₀ positive positive', mul_right_comm, mul_assoc]
    exact_mod_cast Iff.rfl
  have greatest : (4 * m + 2 : ℚ) = (4 * m + 2 : Nat) := by push_cast; rfl
  have above (k : Nat) : (k : ℚ) * (c / d) < a / b ↔ k * (b * c) < a * d := by
    rw [← not_le, most, not_le]
  have beneath (k : Nat) : (a / b : ℚ) < k * (c / d) ↔ a * d < k * (b * c) := by
    rw [← not_le, least, not_le]
  simp only [greatest, least, most, above, beneath, Nat.pow_eq, Bool.and_eq_true, beq_iff_eq,
    decide_eq_true_iff]
  generalize (if m = 2 ^ f.fractionBits ∧ 2 ^ (f.fractionBits + 1) ≤ rank then 4 * m - 1
    else 4 * m - 2) = low
  split
  · rename_i even
    simp [even]
  · rename_i odd
    simp only [odd, Bool.and_eq_true, decide_eq_true_iff, false_or]
    exact ⟨fun strict => ⟨⟨strict.1.le, strict.2.le⟩, strict⟩, And.right⟩

/-- A rank counts spacings within blocks that have as many numbers each. -/
theorem rank_parts (f : Format) (rank : Nat) :
    f.leastExponent ≤ f.exponent rank ∧
      rank = (f.exponent rank - f.leastExponent).toNat * 2 ^ f.fractionBits + f.significand rank ∧
      f.significand rank < 2 ^ (f.fractionBits + 1) ∧
      (f.leastExponent < f.exponent rank → 2 ^ f.fractionBits ≤ f.significand rank) ∧
      (2 ^ (f.fractionBits + 1) ≤ rank ↔ f.leastExponent < f.exponent rank) := by
  have unit : 0 < 2 ^ f.fractionBits := Nat.two_pow_pos _
  have whole := Nat.div_add_mod rank (2 ^ f.fractionBits)
  have rest := Nat.mod_lt rank unit
  rw [significand, exponent, parts]
  simp only [Nat.pow_eq]
  rw [Nat.pow_succ]
  split
  · rename_i first
    rw [first, Nat.mul_zero, Nat.zero_add] at whole
    dsimp only
    rw [Int.sub_self, Int.toNat_zero, Nat.zero_mul]
    omega
  · rename_i later
    dsimp only
    generalize blocks : rank / 2 ^ f.fractionBits = block at *
    generalize rank % 2 ^ f.fractionBits = remainder at *
    generalize 2 ^ f.fractionBits = width at *
    obtain ⟨count, rfl⟩ := Nat.exists_eq_add_one.mpr (Nat.pos_of_ne_zero later)
    rw [Nat.mul_add, Nat.mul_one] at whole
    have height : (f.leastExponent + ((count + 1 - 1 : Nat) : Int) - f.leastExponent).toNat =
        count := by
      omega
    rw [height, Nat.mul_comm count]
    refine ⟨by omega, by omega, by omega, fun _ => by omega, ?_⟩
    cases count with
    | zero => omega
    | succ count =>
        rw [Nat.mul_succ] at whole
        omega

section Nearest

variable {x : ℚ}

theorem quarters (exponent : Int) : (2 : ℚ) ^ exponent = 4 * 2 ^ (exponent - 2) := by
  rw [zpow_sub₀ (by norm_num)]
  norm_num
  ring

theorem halves (exponent : Int) : (2 : ℚ) ^ (exponent - 1) = 2 * 2 ^ (exponent - 2) := by
  rw [← zpow_one_add₀ (by norm_num)]
  congr 1
  ring

/-- A number is no farther away from what rounds to it than half a spacing. -/
theorem Cell.half_spacing (cell : f.Cell rank x) :
    (2 * f.significand rank - 1) * 2 ^ f.exponent rank ≤ 2 * x ∧
      2 * x ≤ (2 * f.significand rank + 1) * 2 ^ f.exponent rank ∧
      (f.significand rank % 2 = 0 ∨ (2 * f.significand rank - 1) * 2 ^ f.exponent rank < 2 * x ∧
        2 * x < (2 * f.significand rank + 1) * 2 ^ f.exponent rank) := by
  have low : (4 * f.significand rank - 2 : ℚ) ≤ f.lowest rank := by
    have natural : 4 * f.significand rank ≤ f.lowest rank + 2 := by
      rw [lowest]
      split <;> omega
    rw [sub_le_iff_le_add]
    exact_mod_cast natural
  have quarter : (0 : ℚ) < 2 ^ (f.exponent rank - 2) := by positivity
  have least := mul_le_mul_of_nonneg_right low quarter.le
  rw [quarters (f.exponent rank)]
  refine ⟨?_, ?_, cell.inside.imp_right fun strict => ⟨?_, ?_⟩⟩
  · linarith [cell.lower]
  · linarith [cell.upper]
  · linarith [strict.1]
  · linarith [strict.2]

theorem two_pow_add (bits : Nat) (power : Int) : (2 : ℚ) ^ (bits + power) = 2 ^ bits * 2 ^ power := by
  rw [zpow_add₀ (by norm_num), zpow_natCast]

/-- What rounds to a number is less than where its block of numbers ends. -/
theorem Cell.below_end (cell : f.Cell rank x) :
    x < 2 ^ (f.fractionBits + (f.exponent rank + 1)) := by
  obtain ⟨-, -, small, -⟩ := f.rank_parts rank
  have most : (f.significand rank : ℚ) + 1 ≤ 2 ^ (f.fractionBits + 1) := by exact_mod_cast small
  have spacing : (0 : ℚ) < 2 ^ f.exponent rank := by positivity
  have scaled := mul_le_mul_of_nonneg_right most spacing.le
  rw [pow_succ] at scaled
  rw [two_pow_add, zpow_add_one₀ (by norm_num)]
  linarith [cell.half_spacing.2.1]

/-- What rounds to a number from below its block is a quarter below where the block begins. -/
theorem Cell.below_begin (cell : f.Cell rank x) (grown : f.leastExponent < f.exponent rank)
    (under : x < 2 ^ (f.fractionBits + f.exponent rank)) :
    f.significand rank = 2 ^ f.fractionBits ∧
      (4 * 2 ^ f.fractionBits - 1) * 2 ^ (f.exponent rank - 2) ≤ x := by
  obtain ⟨-, -, -, normal, large⟩ := f.rank_parts rank
  have spacing : (0 : ℚ) < 2 ^ f.exponent rank := by positivity
  have first : f.significand rank = 2 ^ f.fractionBits := by
    by_cases more : 2 ^ f.fractionBits < f.significand rank
    · have cast : (2 : ℚ) ^ f.fractionBits + 1 ≤ f.significand rank := by exact_mod_cast more
      have scaled := mul_le_mul_of_nonneg_right cast spacing.le
      rw [two_pow_add] at under
      linarith [cell.half_spacing.1]
    · exact le_antisymm (not_lt.mp more) (normal grown)
  refine ⟨first, ?_⟩
  have unit : 1 ≤ 4 * 2 ^ f.fractionBits := by
    have := Nat.two_pow_pos f.fractionBits
    omega
  have low := cell.lower
  rw [lowest, if_pos ⟨first, large.mpr grown⟩, first, Nat.cast_sub unit] at low
  exact_mod_cast low

section Ratio

variable {numerator denominator : Nat}

theorem nearest_rank_eq (positive : 0 < numerator) :
    f.nearestRank numerator denominator =
      let q := max f.leastExponent (floorLog2 numerator denominator - f.fractionBits)
      min f.infinityRank ((q - f.leastExponent).toNat * 2 ^ f.fractionBits +
        roundHalfEven (numerator * (scaledRatio 2 denominator q).2)
          (scaledRatio 2 denominator q).1) := by
  rw [nearestRank, if_neg positive.ne']
  rfl

/-- Just below a power of two the grid is finer, and the power itself is the nearest on it. -/
theorem rounded_to_power {bits : Nat} {exponent : Int} (below : 0 < denominator)
    (least : (4 * 2 ^ bits - 1 : ℚ) * 2 ^ (exponent - 2) ≤ numerator / denominator)
    (under : (numerator / denominator : ℚ) < 2 ^ (bits + exponent)) :
    roundHalfEven (numerator * (scaledRatio 2 denominator (exponent - 1)).2)
      (scaledRatio 2 denominator (exponent - 1)).1 = 2 ^ (bits + 1) := by
  have quarter : (0 : ℚ) < 2 ^ (exponent - 2) := by positivity
  rw [two_pow_add, quarters] at under
  refine rounded_on_grid below ?_ ?_ (.inl ?_)
  · rw [halves]
    push_cast
    rw [pow_succ]
    linarith
  · rw [halves]
    push_cast
    rw [pow_succ]
    linarith
  · rw [pow_succ]
    exact Nat.mul_mod_left _ 2

/-- What is in the cell of a number is rounded to the number. -/
theorem Cell.nearest (positive : 0 < numerator) (below : 0 < denominator)
    (finite : rank < f.infinityRank) (cell : f.Cell rank (numerator / denominator)) :
    f.nearestRank numerator denominator = rank := by
  obtain ⟨least, counted, -⟩ := f.rank_parts rank
  obtain ⟨from_below, from_above, tie⟩ := cell.half_spacing
  obtain ⟨log_low, log_high⟩ := floor_log_spec positive below
  rw [nearest_rank_eq positive]
  generalize floorLog2 numerator denominator = log at *
  dsimp only
  have compare {a b : Int} (less : (2 : ℚ) ^ a < 2 ^ b) : a < b :=
    (zpow_lt_zpow_iff_right₀ (by norm_num)).mp less
  have not_above := compare (log_low.trans_lt cell.below_end)
  by_cases under : f.leastExponent < f.exponent rank ∧
      (numerator / denominator : ℚ) < 2 ^ (f.fractionBits + f.exponent rank)
  · obtain ⟨first, edge⟩ := cell.below_begin under.1 under.2
    have log_less := compare (log_low.trans_lt under.2)
    have half_reached : (2 : ℚ) ^ (f.fractionBits + (f.exponent rank - 1)) ≤
        numerator / denominator := by
      have width : (1 : ℚ) ≤ 2 ^ f.fractionBits := one_le_pow₀ (by norm_num)
      have quarter : (0 : ℚ) < 2 ^ (f.exponent rank - 2) := by positivity
      have scaled := mul_le_mul_of_nonneg_right width quarter.le
      rw [two_pow_add, halves]
      linarith
    have log_more := compare (half_reached.trans_lt log_high)
    have grid : max f.leastExponent (log - f.fractionBits) = f.exponent rank - 1 := by omega
    rw [grid, rounded_to_power below edge under.2]
    have one_less : (f.exponent rank - f.leastExponent).toNat =
        (f.exponent rank - 1 - f.leastExponent).toNat + 1 := by omega
    rw [one_less, first, Nat.add_mul, Nat.one_mul, Nat.add_assoc, ← Nat.two_mul,
      ← Nat.pow_succ'] at counted
    rw [← counted]
    exact Nat.min_eq_right finite.le
  · have grid : max f.leastExponent (log - f.fractionBits) = f.exponent rank := by
      by_cases grown : f.leastExponent < f.exponent rank
      · have reached := not_lt.mp fun less => under ⟨grown, less⟩
        have log_more := compare (reached.trans_lt log_high)
        omega
      · omega
    rw [grid, rounded_on_grid below from_below from_above tie, ← counted]
    exact Nat.min_eq_right finite.le

end Ratio

end Nearest

end Format

end GraphQL
