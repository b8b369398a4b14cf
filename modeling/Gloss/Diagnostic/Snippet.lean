import Gloss.SourceFile
import Gloss.Span
/-!
# Snippets

A snippet shows one line of a source file with carets under a range of its
columns.
-/

namespace Gloss

structure Snippet where
  line : Text
  /-- Counted from 1. -/
  number : Nat
  startColumn : Nat
  /-- The column after the last caret. -/
  stopColumn : Nat
  label : Option String := none
  deriving DecidableEq, Repr

namespace Snippet

/-- The first line of a span. The carets end with the span, or with the line if
the span goes on; there is at least one. -/
def ofSpan (f : SourceFile) (s : Span) : Snippet :=
  let (number, startColumn) := f.position s.start
  let line := (f.line? number).getD []
  let (stopNumber, stopColumn) := f.position s.stop
  let stopColumn := if stopNumber = number then stopColumn else line.length + 1
  { line, number, startColumn, stopColumn := max stopColumn (startColumn + 1) }

/-- The most characters that one run of blanks or carets may have. -/
def longestRun : Nat := Nat.pow 2 63 - 1

/-- Neither the blanks before the carets nor the carets are too many to print. -/
def isPrintable (s : Snippet) : Bool :=
  s.startColumn - 1 ≤ longestRun && s.stopColumn - s.startColumn ≤ longestRun

/-- The line behind its number, and under it the carets and the label. -/
def render (s : Snippet) : String :=
  let number := toString s.number
  let gutter := max 3 number.length
  let carets := max 1 (s.stopColumn - s.startColumn)
  "".pushn ' ' (gutter - number.length) ++ number ++ " | " ++ String.ofList s.line ++ "\n" ++
    "".pushn ' ' gutter ++ " | " ++ "".pushn ' ' (s.startColumn - 1) ++ "".pushn '^' carets ++
    (match s.label with
      | some label => " " ++ label
      | none => "")

end Snippet
end Gloss
