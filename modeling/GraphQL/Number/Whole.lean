/-!
Whole numbers written with digits, and the integers of 32 and 64 bits.

Reading takes the text as characters. A text of digits denotes a natural in its base; a signed text
may begin with one plus or minus. Bounds are checked on the integer, never on the text.
-/

namespace GraphQL

/-- The value of a digit, letters counting on from ten in either case. -/
def digitValue (c : Char) : Nat :=
  if c.isDigit then c.toNat - 48
  else if 'a' ≤ c ∧ c ≤ 'z' then c.toNat - 87
  else c.toNat - 55

def isHexDigit (c : Char) : Bool :=
  c.isDigit || (decide ('a' ≤ c) && decide (c ≤ 'f')) || (decide ('A' ≤ c) && decide (c ≤ 'F'))

/-- The natural that a run of digits denotes, the most significant digit first. -/
def ofDigits (base : Nat) (digits : List Char) : Nat :=
  digits.foldl (fun value c => value * base + digitValue c) 0

def readDecimal? (text : List Char) : Option Nat :=
  if text ≠ [] ∧ text.all Char.isDigit then some (ofDigits 10 text) else none

def readHex? (text : List Char) : Option Nat :=
  if text ≠ [] ∧ text.all isHexDigit then some (ofDigits 16 text) else none

/-- Splits a leading sign off; the flag tells a minus. -/
def splitSign : List Char → Bool × List Char
  | '-' :: rest => (true, rest)
  | '+' :: rest => (false, rest)
  | text => (false, text)

def leastInt32 : Int := -0x80000000

def greatestInt32 : Int := 0x7fffffff

def leastInt64 : Int := -0x8000000000000000

def greatestInt64 : Int := 0x7fffffffffffffff

def fitsInt32 (n : Int) : Bool := decide (leastInt32 ≤ n) && decide (n ≤ greatestInt32)

def fitsInt64 (n : Int) : Bool := decide (leastInt64 ≤ n) && decide (n ≤ greatestInt64)

/-- Reads an optionally signed decimal number of 64 bits. -/
def readInt64? (text : List Char) : Option Int :=
  let (negative, digits) := splitSign text
  match readDecimal? digits with
  | none => none
  | some n =>
      let value : Int := if negative then -n else n
      if fitsInt64 value then some value else none

/-- Lower-case hexadecimal digits, without leading zeros. -/
def hexDigits (n : Nat) : List Char := Nat.toDigits 16 n

/-- Four upper-case hexadecimal digits of a number below 65536. -/
def hexQuad (n : Nat) : List Char :=
  let digits := (Nat.toDigits 16 n).map Char.toUpper
  List.replicate (4 - digits.length) '0' ++ digits

/-- Four lower-case hexadecimal digits of a number below 65536. -/
def hexQuadLower (n : Nat) : List Char :=
  let digits := Nat.toDigits 16 n
  List.replicate (4 - digits.length) '0' ++ digits

end GraphQL
