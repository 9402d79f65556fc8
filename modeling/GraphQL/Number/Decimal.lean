import GraphQL.Number.Binary
import GraphQL.Number.Whole

/-!
Decimal text of binary floating-point numbers.

Written text carries the fewest digits that read back as the same number: on each grid of multiples
of a power of ten, coarse grids first, the two neighbours of the number are tried against the
interval of ratios that round to it. What remains to be chosen, how a tie between the neighbours
goes and which exponents are written out, is one `DecimalStyle` value. Read text is rounded once.
-/

namespace GraphQL

/-- How shortest digits are laid out. -/
structure DecimalStyle where
  /-- Scientific exponents that are written without an exponent; `none` for all. -/
  positional : Option (Int × Int)
  /-- Appended to a number written without point and exponent. -/
  wholeEnding : String
  /-- Of two equally near shortest decimals, whether the greater is taken rather than the even. -/
  tieUpward : Bool

/-- Whether `digits * 10 ^ exponent` is among the ratios that round to the number of a rank. -/
def Format.roundsTo (f : Format) (rank : Nat) (digits : Nat) (exponent : Int) : Bool :=
  let (m, q) := f.parts rank
  -- Everything is measured in quarters of the spacing, as the gap below a power of two is halved.
  let halved := m == Nat.pow 2 f.fractionBits && decide (Nat.pow 2 (f.fractionBits + 1) ≤ rank)
  let low := if halved then 4 * m - 1 else 4 * m - 2
  let high := 4 * m + 2
  let (a, b) := scaledRatio 10 digits exponent
  let (c, d) := scaledRatio 2 1 (q - 2)
  -- The decimal is `a / b`, a quarter of the spacing is `c / d`.
  let value := a * d
  let unit := b * c
  if m % 2 = 0 then decide (low * unit ≤ value) && decide (value ≤ high * unit)
  else decide (low * unit < value) && decide (value < high * unit)

/-- The shortest decimal on a grid that reads back as the number of a rank, if there is one. -/
def Format.onGrid? (f : Format) (tieUpward : Bool) (rank : Nat) (exponent : Int) : Option Nat :=
  let (m, q) := f.parts rank
  let (a, b) := scaledRatio 2 m q
  let (c, d) := scaledRatio 10 1 exponent
  let numerator := a * d
  let denominator := b * c
  let below := numerator / denominator
  let above := below + 1
  let rest := 2 * (numerator % denominator)
  match f.roundsTo rank below exponent, f.roundsTo rank above exponent with
  | false, false => none
  | true, false => some below
  | false, true => some above
  | true, true =>
      if rest < denominator then some below
      else if denominator < rest then some above
      else if tieUpward || below % 2 == 1 then some above
      else some below

/-- Tries the grids below a first one in turn. -/
def Format.searchGrids (f : Format) (tieUpward : Bool) (rank : Nat) : Nat → Int → Nat × Int
  | 0, _ => (0, 0)
  | grids + 1, exponent =>
      match f.onGrid? tieUpward rank exponent with
      | some digits => (digits, exponent)
      | none => f.searchGrids tieUpward rank grids (exponent - 1)

/--
The shortest digits `d` and exponent `e` with `d * 10 ^ e` rounding to a positive finite number. The
first grid is coarser than the number, and a grid finer than its spacing always succeeds.
-/
def Format.shortest (f : Format) (tieUpward : Bool) (rank : Nat) : Nat × Int :=
  let (m, q) := f.parts rank
  let first := (Nat.log2 m + 1 + q) * 30103 / 100000 + 2
  f.searchGrids tieUpward rank (f.fractionBits + 8) first

/-- Lays digits out around the decimal point. -/
def placeDigits (wholeEnding : String) (digits : List Char) (exponent : Int) : String :=
  match exponent with
  | .ofNat n => String.ofList (digits ++ List.replicate n '0') ++ wholeEnding
  | .negSucc n =>
      if n + 1 < digits.length then
        String.ofList (digits.take (digits.length - (n + 1))) ++ "." ++
          String.ofList (digits.drop (digits.length - (n + 1)))
      else
        "0." ++ String.ofList (List.replicate (n + 1 - digits.length) '0' ++ digits)

/-- Lays digits out with one before the point and a signed exponent. -/
def scientificDigits (digits : List Char) (exponent : Int) : String :=
  let fraction := digits.drop 1
  String.ofList (digits.take 1) ++
    (if fraction.isEmpty then "" else "." ++ String.ofList fraction) ++
    "e" ++ (if exponent < 0 then "-" else "+") ++ toString exponent.natAbs

namespace DecimalStyle

/-- The text of a finite magnitude. -/
def magnitude (style : DecimalStyle) (f : Format) (rank : Nat) : String :=
  if rank = 0 then "0" ++ style.wholeEnding
  else
    let (value, exponent) := f.shortest style.tieUpward rank
    let digits := Nat.toDigits 10 value
    let leading : Int := exponent + (digits.length - 1 : Nat)
    match style.positional with
    | none => placeDigits style.wholeEnding digits exponent
    | some (least, greatest) =>
        if least ≤ leading ∧ leading ≤ greatest then
          placeDigits style.wholeEnding digits exponent
        else
          scientificDigits digits leading

def write {f : Format} (style : DecimalStyle) : Binary f → String
  | .nan => "NaN"
  | .number negative rank =>
      (if negative then "-" else "") ++
        (if rank.val = f.infinityRank then "inf" else style.magnitude f rank.val)

/-- Never an exponent, no point for whole numbers, ties upward. -/
def plain : DecimalStyle where
  positional := none
  wholeEnding := ""
  tieUpward := true

end DecimalStyle

namespace Binary

/--
The number nearest to `digits * 10 ^ exponent`. As ten lies above eight, exponents far beyond the
format's range are settled by powers of two alone.
-/
def ofDecimal (f : Format) (negative : Bool) (digits : Nat) (exponent : Int) : Binary f :=
  if digits = 0 then ofRank f negative 0
  else
    let log : Int := Nat.log2 digits
    if 0 ≤ exponent ∧ Nat.pow 2 (f.exponentBits - 1) ≤ log + 3 * exponent then
      infinity f negative
    else if exponent < 0 ∧ log + 1 + 3 * exponent ≤ f.leastExponent - 1 then
      ofRank f negative 0
    else
      let (numerator, denominator) := scaledRatio 10 digits exponent
      ofRatio f negative numerator denominator

/-- Reads the exponent after its mark: an optional sign and at least one digit. -/
def readExponent? (text : List Char) : Option Int :=
  let (negative, digits) := splitSign text
  match readDecimal? digits with
  | none => none
  | some n => some (if negative then -n else n)

/--
Reads an unsigned decimal: digits with an optional point, at least one digit in all, and an optional
exponent marked by `e` or `E`.
-/
def readUnsigned? (f : Format) (negative : Bool) (text : List Char) : Option (Binary f) :=
  let whole := text.takeWhile Char.isDigit
  let afterWhole := text.dropWhile Char.isDigit
  let (fraction, rest) :=
    match afterWhole with
    | '.' :: tail => (tail.takeWhile Char.isDigit, tail.dropWhile Char.isDigit)
    | _ => ([], afterWhole)
  if whole = [] ∧ fraction = [] then none
  else
    let digits := ofDigits 10 (whole ++ fraction)
    match rest with
    | [] => some (ofDecimal f negative digits (-(fraction.length : Int)))
    | mark :: tail =>
        if mark = 'e' ∨ mark = 'E' then
          match readExponent? tail with
          | none => none
          | some exponent => some (ofDecimal f negative digits (exponent - fraction.length))
        else none

/-- Reads an optionally signed decimal, `inf`, `infinity` or `nan`, the words in any case. -/
def read? (f : Format) (text : List Char) : Option (Binary f) :=
  let (negative, unsigned) := splitSign text
  match readUnsigned? f negative unsigned with
  | some x => some x
  | none =>
      let word := String.ofList (unsigned.map Char.toLower)
      if word = "inf" ∨ word = "infinity" then some (infinity f negative)
      else if word = "nan" then some .nan
      else none

end Binary

end GraphQL
