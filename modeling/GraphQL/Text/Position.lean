/-!
Places in a source text.

A position counts bytes, lines and columns; it moves over a character, over a line terminator, or
over a whole stretch of text. A carriage return directly followed by a line feed is one terminator.
-/

namespace GraphQL

/-- Byte offset from zero; line and column from one, the column in characters. -/
structure Position where
  index : Nat
  line : Nat
  column : Nat
  deriving DecidableEq, Repr

namespace Position

def origin : Position where
  index := 0
  line := 1
  column := 1

/-- The position after a character, on the same line. -/
def pastChar (p : Position) (c : Char) : Position where
  index := p.index + c.utf8Size
  line := p.line
  column := p.column + 1

/-- The position after a line terminator of so many bytes. -/
def pastLine (p : Position) (width : Nat) : Position where
  index := p.index + width
  line := p.line + 1
  column := 1

def past (p : Position) : List Char → Position
  | [] => p
  | '\r' :: '\n' :: rest => (p.pastLine 2).past rest
  | c :: rest =>
      if c = '\n' ∨ c = '\r' then (p.pastLine 1).past rest else (p.pastChar c).past rest

/-- Line and column, as messages show them. -/
def text (p : Position) : String := toString p.line ++ ":" ++ toString p.column

end Position

/-- A stretch of source text, the end exclusive. -/
structure Span where
  start : Position
  stop : Position
  deriving DecidableEq, Repr

/-- Cuts off a number of bytes, `none` if that splits a character or runs past the end. -/
def splitBytes? : Nat → List Char → Option (List Char × List Char)
  | 0, text => some ([], text)
  | _ + 1, [] => none
  | n + 1, c :: rest =>
      if n + 1 < c.utf8Size then none
      else
        match splitBytes? (n + 1 - c.utf8Size) rest with
        | none => none
        | some (taken, left) => some (c :: taken, left)

namespace Span

def point (p : Position) : Span where
  start := p
  stop := p

/-- The span of one character of one byte. -/
def single (p : Position) : Span where
  start := p
  stop := p.pastChar ' '

/-- The span of whatever was not read from a source. -/
def unplaced : Span := point .origin

/-- The text that a span covers, empty when the span does not fit the source. -/
def slice (span : Span) (source : String) : String :=
  if span.stop.index < span.start.index then ""
  else
    match splitBytes? span.start.index source.toList with
    | none => ""
    | some (_, rest) =>
        match splitBytes? (span.stop.index - span.start.index) rest with
        | none => ""
        | some (covered, _) => String.ofList covered

end Span

/-- Something together with the place where it was written. -/
structure Located (α : Type) where
  node : α
  span : Span
  deriving DecidableEq, Repr

namespace Located

variable {α β : Type}

def between (start stop : Position) (node : α) : Located α where
  node := node
  span := ⟨start, stop⟩

def unplaced (node : α) : Located α where
  node := node
  span := .unplaced

def map (f : α → β) (x : Located α) : Located β where
  node := f x.node
  span := x.span

end Located

end GraphQL
