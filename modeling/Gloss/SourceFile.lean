import Gloss.Text.Basic
import Gloss.Text.Quoted
/-!
# Source files

A source file keeps the offsets at which its lines start, and finds the line of
an offset by bisection. Lines and columns count from 1, columns in characters.
-/

namespace Gloss

/-- The offsets at which lines start in a text that stands at an offset. -/
def lineStartsFrom (offset : Nat) : Text → List Nat
  | [] => []
  | c :: s =>
    let next := offset + c.utf8Size
    if c = '\n' then next :: lineStartsFrom next s else lineStartsFrom next s

/-- The offsets at which the lines of a text start. -/
def lineStarts (s : Text) : List Nat := 0 :: lineStartsFrom 0 s

/-- A named text with its line starts. -/
structure SourceFile where
  name : String
  text : Text
  starts : Array Nat
  starts_eq : starts = (lineStarts text).toArray

namespace SourceFile

def ofText (name : String) (text : Text) : SourceFile :=
  ⟨name, text, (lineStarts text).toArray, rfl⟩

def lineCount (f : SourceFile) : Nat := f.starts.size

/-- The offset at which a line starts; lines count from 0 here. -/
def lineStart? (f : SourceFile) (line : Nat) : Option Nat := f.starts[line]?

/-- The last place of `starts` from `lo` on and before `hi` whose value is at
most `offset`, if that of `lo` is. -/
def bisect (starts : Array Nat) (offset lo hi : Nat) : Nat :=
  if lo + 1 < hi then
    let mid := (lo + hi) / 2
    if starts.getD mid 0 ≤ offset then bisect starts offset mid hi
    else bisect starts offset lo mid
  else lo
termination_by hi - lo

/-- Line and column of an offset; past the end, those of the end. An offset
inside a character has the bytes from the start of its line for a column. -/
def position (f : SourceFile) (offset : Nat) : Nat × Nat :=
  let offset := min offset (Text.width f.text)
  let line := bisect f.starts offset 0 f.starts.size
  let start := f.starts.getD line 0
  let column := ((Text.slice? start offset f.text).map List.length).getD (offset - start)
  (line + 1, column + 1)

/-- A line without its terminator and any line feeds and carriage returns
before that; lines count from 1. -/
def line? (f : SourceFile) (line : Nat) : Option Text := do
  guard (0 < line)
  let start ← f.lineStart? (line - 1)
  let stop := (f.lineStart? line).getD (Text.width f.text)
  let text ← Text.slice? start stop f.text
  return Text.dropEndWhile (fun c => c == '\n' || c == '\r') text

/-- The file in a log. -/
def describe (f : SourceFile) : String :=
  s!"SourceFile \x7b name: {Text.quoted f.name}, len: {Text.width f.text}, lines: {f.lineCount} \x7d"

end SourceFile
end Gloss
