import GraphQL.Json

/-!
Reading JSON text, strictly.

Blanks are allowed around tokens and nothing else is forgiven. Nesting may go 127 levels deep. A
number without fraction and exponent is whole if it fits 64 bits, signed below zero and unsigned
above. Any other number is a significand, the first digits that fit 64 bits, rounded and then
multiplied or divided by a rounded power of ten; it must not exceed the finite numbers.
-/

namespace GraphQL.Json

abbrev Reading (α : Type) := Option (α × List Char)

def isJsonBlank (c : Char) : Bool := c == ' ' || c == '\n' || c == '\t' || c == '\r'

def skipBlanks (text : List Char) : List Char := text.dropWhile isJsonBlank

/-- Takes digits into a significand while it fits 64 bits, counting them. -/
def takeDigits (significand count : Nat) : List Char → Nat × Nat × List Char
  | [] => (significand, count, [])
  | c :: rest =>
      if c.isDigit then
        let longer := significand * 10 + digitValue c
        if longer < 0x10000000000000000 then takeDigits longer (count + 1) rest
        else (significand, count, c :: rest)
      else (significand, count, c :: rest)

/-- The double nearest to a power of ten. -/
def powerOfTen (n : Nat) : Double := Binary.ofDecimal .double false 1 n

/-- A significand scaled by a power of ten, unless it is out of range. -/
def scaled? (negative : Bool) (significand : Nat) (exponent : Int) : Option Double :=
  if significand = 0 then some (Binary.ofRank .double negative 0)
  else
    let number : Double := Binary.ofInt .double significand
    if 0 ≤ exponent then
      if exponent ≤ 308 then
        let product := Binary.times negative number (powerOfTen exponent.toNat)
        if product.isFinite then some product else none
      else none
    else if -308 ≤ exponent then
      some (Binary.quotient negative number (powerOfTen exponent.natAbs))
    else if -616 ≤ exponent then
      let first := Binary.quotient negative number (powerOfTen 308)
      some (Binary.quotient negative first (powerOfTen (exponent.natAbs - 308)))
    else some (Binary.ofRank .double negative 0)

/-- A number whose exponent is read; exponents beyond 32 bits are decided by their sign. -/
def withExponent? (negative : Bool) (significand : Nat) (exponent : Int) (down : Bool) (n : Nat) :
    Option Double :=
  if fitsInt32 n then
    scaled? negative significand (if down then exponent - n else exponent + n)
  else if significand = 0 ∨ down then some (Binary.ofRank .double negative 0)
  else none

/-- An optional exponent behind the digits of a number that is not whole. -/
def readScaled? (negative : Bool) (significand : Nat) (exponent : Int) (text : List Char) :
    Reading Json :=
  match text with
  | mark :: rest =>
      if mark = 'e' ∨ mark = 'E' then
        let (down, digits) := splitSign rest
        match readDecimal? (digits.takeWhile Char.isDigit) with
        | none => none
        | some n =>
            match withExponent? negative significand exponent down n with
            | none => none
            | some x => some (.float x, digits.dropWhile Char.isDigit)
      else (scaled? negative significand exponent).map fun x => (.float x, text)
  | [] => (scaled? negative significand exponent).map fun x => (.float x, [])

/-- A number without fraction and exponent; minus zero is not whole. -/
def wholeNumber (negative : Bool) (n : Nat) : Json :=
  if negative then
    if 0 < n ∧ fitsInt64 (-n) then .integer (-n)
    else .float (Binary.ofRatio .double true n 1)
  else .integer n

/-- What follows the whole digits of a number, some of which did not fit the significand. -/
def readFraction? (negative : Bool) (significand ignored : Nat) (text : List Char) :
    Reading Json :=
  match text with
  | '.' :: c :: rest =>
      if c.isDigit then
        let (longer, taken, left) := takeDigits significand 0 (c :: rest)
        readScaled? negative longer ((ignored : Int) - taken) (left.dropWhile Char.isDigit)
      else none
  | ['.'] => none
  | mark :: _ =>
      if mark = 'e' ∨ mark = 'E' ∨ 0 < ignored then
        readScaled? negative significand ignored text
      else some (wholeNumber negative significand, text)
  | [] =>
      if 0 < ignored then readScaled? negative significand ignored []
      else some (wholeNumber negative significand, [])

/-- A number behind its optional minus; a leading zero stands alone. -/
def readUnsigned? (negative : Bool) (text : List Char) : Reading Json :=
  match text with
  | [] => none
  | '0' :: rest =>
      match rest with
      | [] => readFraction? negative 0 0 []
      | c :: _ => if c.isDigit then none else readFraction? negative 0 0 rest
  | c :: _ =>
      if c.isDigit then
        let (significand, _, left) := takeDigits 0 0 text
        readFraction? negative significand (left.takeWhile Char.isDigit).length
          (left.dropWhile Char.isDigit)
      else none

def readNumber? : List Char → Reading Json
  | '-' :: rest => readUnsigned? true rest
  | text => readUnsigned? false text

/-- Four hexadecimal digits. -/
def readQuad? : List Char → Reading Nat
  | a :: b :: c :: d :: rest => (readHex? [a, b, c, d]).map fun code => (code, rest)
  | _ => none

/-- The character behind a unicode escape's mark; a surrogate needs its partner. -/
def readUnicode? (text : List Char) : Reading Char :=
  match readQuad? text with
  | none => none
  | some (code, rest) =>
      if 0xD800 ≤ code ∧ code < 0xDC00 then
        match rest with
        | '\\' :: 'u' :: tail =>
            match readQuad? tail with
            | none => none
            | some (low, left) =>
                if 0xDC00 ≤ low ∧ low < 0xE000 then
                  some (Char.ofNat (0x10000 + (code - 0xD800) * 0x400 + (low - 0xDC00)), left)
                else none
        | _ => none
      else if 0xDC00 ≤ code ∧ code < 0xE000 then none
      else some (Char.ofNat code, rest)

/-- The character behind a backslash. -/
def readEscape? : List Char → Reading Char
  | '"' :: rest => some ('"', rest)
  | '\\' :: rest => some ('\\', rest)
  | '/' :: rest => some ('/', rest)
  | 'b' :: rest => some ('\x08', rest)
  | 'f' :: rest => some ('\x0c', rest)
  | 'n' :: rest => some ('\n', rest)
  | 'r' :: rest => some ('\r', rest)
  | 't' :: rest => some ('\t', rest)
  | 'u' :: rest => readUnicode? rest
  | _ => none

/-- A string behind its opening quote; the count bounds its characters. -/
def readString? : Nat → List Char → Reading (List Char)
  | 0, _ => none
  | _ + 1, [] => none
  | count + 1, c :: rest =>
      if c = '"' then some ([], rest)
      else if c = '\\' then
        match readEscape? rest with
        | none => none
        | some (character, left) =>
            (readString? count left).map fun (text, after) => (character :: text, after)
      else if c < ' ' then none
      else (readString? count rest).map fun (text, after) => (c :: text, after)

/-- The key of a field with its colon. -/
def readKey? (text : List Char) : Reading String :=
  match skipBlanks text with
  | '"' :: rest =>
      match readString? (rest.length + 1) rest with
      | none => none
      | some (key, left) =>
          match skipBlanks left with
          | ':' :: after => some (String.ofList key, after)
          | _ => none
  | _ => none

/-- Items separated by commas up to a closing character, the first item being next. -/
def readItems? {α : Type} (item : List Char → Reading α) (closing : Char) :
    Nat → List Char → Reading (List α)
  | 0, _ => none
  | count + 1, text =>
      match item text with
      | none => none
      | some (first, left) =>
          match skipBlanks left with
          | [] => none
          | c :: rest =>
              if c = closing then some ([first], rest)
              else if c = ',' then
                (readItems? item closing count rest).map fun (items, after) =>
                  (first :: items, after)
              else none

/-- A possibly empty list of items behind its opening character. -/
def readList? {α : Type} (item : List Char → Reading α) (closing : Char) (text : List Char) :
    Reading (List α) :=
  match skipBlanks text with
  | [] => none
  | c :: rest =>
      if c = closing then some ([], rest) else readItems? item closing (text.length + 1) text

/-- Takes a word off the front. -/
def readWord? (word : List Char) (json : Json) (text : List Char) : Reading Json :=
  if text.take word.length = word then some (json, text.drop word.length) else none

/-- A value with less than so many levels of nesting. -/
def readValue? : Nat → List Char → Reading Json
  | depth, text =>
      match skipBlanks text with
      | '"' :: rest =>
          (readString? (rest.length + 1) rest).map fun (content, after) =>
            (.string (String.ofList content), after)
      | '[' :: rest =>
          match depth with
          | 0 => none
          | inner + 1 =>
              (readList? (readValue? inner) ']' rest).map fun (items, after) =>
                (.array items, after)
      | '\x7b' :: rest =>
          match depth with
          | 0 => none
          | inner + 1 =>
              let field := fun text =>
                match readKey? text with
                | none => none
                | some (key, left) =>
                    (readValue? inner left).map fun (value, after) => ((key, value), after)
              (readList? field '\x7d' rest).map fun (fields, after) => (.object fields, after)
      | 'n' :: rest => readWord? ['u', 'l', 'l'] .null rest
      | 't' :: rest => readWord? ['r', 'u', 'e'] (.bool true) rest
      | 'f' :: rest => readWord? ['a', 'l', 's', 'e'] (.bool false) rest
      | other => readNumber? other

/-- Reads a text that holds one value and nothing else. -/
def ofText? (text : String) : Option Json :=
  match readValue? 127 text.toList with
  | none => none
  | some (json, rest) => if skipBlanks rest = [] then some json else none

end GraphQL.Json
