import GraphQL.Number.Whole

/-!
Binary floating-point numbers, by exact arithmetic on naturals.

A format lists its non-negative numbers in ascending order with infinity last, so a number is a
sign and a rank in that list. Rounding a ratio finds the rank of the nearest member, and of two
equally near members the one with an even significand.
-/

namespace GraphQL

/-- The width of the stored fraction and of the exponent. -/
structure Format where
  fractionBits : Nat
  exponentBits : Nat
  deriving DecidableEq, Repr

namespace Format

def single : Format where
  fractionBits := 23
  exponentBits := 8

def double : Format where
  fractionBits := 52
  exponentBits := 11

/-- The smallest positive number is two to this power. -/
def leastExponent (f : Format) : Int :=
  2 - Nat.pow 2 (f.exponentBits - 1) - f.fractionBits

def infinityRank (f : Format) : Nat :=
  (Nat.pow 2 f.exponentBits - 1) * Nat.pow 2 f.fractionBits

/-- The number of a rank is `m * 2 ^ q` for these `m` and `q`. -/
def parts (f : Format) (rank : Nat) : Nat × Int :=
  let block := rank / Nat.pow 2 f.fractionBits
  if block = 0 then
    (rank, f.leastExponent)
  else
    (rank % Nat.pow 2 f.fractionBits + Nat.pow 2 f.fractionBits,
      f.leastExponent + (block - 1 : Nat))

end Format

/-- `numerator * base ^ exponent` as a ratio of naturals. -/
def scaledRatio (base numerator : Nat) (exponent : Int) : Nat × Nat :=
  match exponent with
  | .ofNat n => (numerator * Nat.pow base n, 1)
  | .negSucc n => (numerator, Nat.pow base (n + 1))

/-- The nearest natural; of two equally near ones the even one. -/
def roundHalfEven (numerator denominator : Nat) : Nat :=
  let below := numerator / denominator
  let rest := 2 * (numerator % denominator)
  if rest < denominator then below
  else if denominator < rest then below + 1
  else below + below % 2

/-- The greatest `e` with `2 ^ e ≤ numerator / denominator`, for a positive ratio. -/
def floorLog2 (numerator denominator : Nat) : Int :=
  let guess : Int := (Nat.log2 numerator : Int) - (Nat.log2 denominator : Int)
  let (scaled, unit) := scaledRatio 2 denominator guess
  if scaled ≤ numerator * unit then guess else guess - 1

namespace Format

/-- Rank of the member of the format nearest to a ratio. -/
def nearestRank (f : Format) (numerator denominator : Nat) : Nat :=
  if numerator = 0 then 0
  else
    let q := max f.leastExponent (floorLog2 numerator denominator - f.fractionBits)
    let (unit, scale) := scaledRatio 2 denominator q
    let m := roundHalfEven (numerator * scale) unit
    min (f.infinityRank) ((q - f.leastExponent).toNat * Nat.pow 2 f.fractionBits + m)

end Format

/-- A number of a binary format, or the result that is not a number. -/
inductive Binary (f : Format) where
  | nan
  | number (negative : Bool) (rank : Fin (f.infinityRank + 1))
  deriving DecidableEq, Repr

/-- A 32-bit floating-point number. -/
abbrev Single := Binary Format.single

/-- A 64-bit floating-point number. -/
abbrev Double := Binary Format.double

namespace Binary

variable {f : Format}

def ofRank (f : Format) (negative : Bool) (rank : Nat) : Binary f :=
  .number negative ⟨min rank f.infinityRank, by omega⟩

def infinity (f : Format) (negative : Bool) : Binary f :=
  ofRank f negative f.infinityRank

def ofRatio (f : Format) (negative : Bool) (numerator denominator : Nat) : Binary f :=
  ofRank f negative (f.nearestRank numerator denominator)

def ofInt (f : Format) (n : Int) : Binary f :=
  ofRatio f (decide (n < 0)) n.natAbs 1

/-- Sign and magnitude, the magnitude as a ratio; `none` for infinities and for `nan`. -/
def ratio? : Binary f → Option (Bool × Nat × Nat)
  | .nan => none
  | .number negative rank =>
      if rank.val = f.infinityRank then none
      else
        let (m, q) := f.parts rank.val
        some (negative, scaledRatio 2 m q)

/-- The nearest number of another format. -/
def convert (g : Format) : Binary f → Binary g
  | .nan => .nan
  | .number negative rank =>
      match ratio? (.number negative rank) with
      | none => infinity g negative
      | some (_, numerator, denominator) => ofRatio g negative numerator denominator

/-- Numeric equality: zeros of both signs are equal, `nan` equals nothing. -/
def numEq : Binary f → Binary f → Bool
  | .number n r, .number n' r' => r == r' && (n == n' || r.val == 0)
  | _, _ => false

def isZero : Binary f → Bool
  | .nan => false
  | .number _ rank => rank.val == 0

def isFinite (x : Binary f) : Bool := x.ratio?.isSome

/-- Drops the fraction and clamps to 64 signed bits; `nan` gives zero. -/
def truncate64 : Binary f → Int
  | .nan => 0
  | .number negative rank =>
      match ratio? (.number negative rank) with
      | none => if negative then leastInt64 else greatestInt64
      | some (_, numerator, denominator) =>
          let whole : Int := numerator / denominator
          if negative then max leastInt64 (-whole) else min greatestInt64 whole

/-- The rounded product of magnitudes, under the given sign. -/
def times (negative : Bool) (x y : Binary f) : Binary f :=
  match ratio? x, ratio? y with
  | some (_, a, b), some (_, c, d) => ofRatio f negative (a * c) (b * d)
  | _, _ => infinity f negative

/-- The rounded quotient of magnitudes, under the given sign. -/
def quotient (negative : Bool) (x y : Binary f) : Binary f :=
  match ratio? x, ratio? y with
  | some (_, a, b), some (_, c, d) => ofRatio f negative (a * d) (b * c)
  | _, _ => infinity f negative

end Binary

end GraphQL
