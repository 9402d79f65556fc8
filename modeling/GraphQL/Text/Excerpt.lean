import GraphQL.Text.Position

/-!
Excerpts: the source lines around a span, with carets under the text it covers.

Two lines of context are shown on either side, each behind its number. Lines end at line feeds; a
carriage return in front of one is dropped.
-/

namespace GraphQL

def splitLines : List Char → List (List Char)
  | [] => [[]]
  | c :: rest =>
      if c = '\n' then [] :: splitLines rest
      else
        match splitLines rest with
        | [] => [[c]]
        | line :: lines => (c :: line) :: lines

/-- Drops one carriage return at the end of a line. -/
def dropReturn (line : List Char) : List Char :=
  if line.getLast? = some '\r' then line.dropLast else line

def padNumber (width n : Nat) : String :=
  let digits := Nat.toDigits 10 n
  String.ofList (List.replicate (width - digits.length) ' ' ++ digits)

namespace Span

/-- Carets below the covered columns, at least one. -/
def carets (span : Span) (width : Nat) : String :=
  String.ofList (List.replicate (span.start.column + width) ' ' ++
    List.replicate (max 1 (span.stop.column - span.start.column)) '^')

/-- The shown line of a number, followed by carets if the span touches it. -/
def excerptLine (span : Span) (width number : Nat) (line : List Char) : List String :=
  let shown := padNumber width number ++ "|" ++ String.ofList line
  if span.start.line ≤ number ∧ number ≤ span.stop.line then [shown, span.carets width]
  else [shown]

/-- Shows numbered lines from the first number on. -/
def excerptLines (span : Span) (width : Nat) : Nat → List (List Char) → List String
  | _, [] => []
  | number, line :: lines =>
      span.excerptLine width number line ++ span.excerptLines width (number + 1) lines

/-- The lines around the start of a span, underlined where the span covers them. -/
def excerpt (span : Span) (source : String) : String :=
  let lines := (splitLines source.toList).map dropReturn
  let first := max 1 (span.start.line - 2)
  let last := min (span.start.line + 2) lines.length
  if last < first then ""
  else
    let width := (Nat.toDigits 10 last).length
    let shown := (lines.drop (first - 1)).take (last - first + 1)
    String.intercalate "\n" (span.excerptLines width first shown)

end Span

end GraphQL
