import Gloss.Diagnostic.Code
import Gloss.Diagnostic.Level
import Gloss.Diagnostic.Snippet
/-!
# Diagnostics

A diagnostic is a message about a span of a source file, with snippets, notes
and helps. A `Log` collects diagnostics in the order in which they come.
-/

namespace Gloss

structure Diagnostic where
  level : Level
  message : String
  span : Span := .zero
  code : Option Code := none
  notes : List String := []
  helps : List String := []
  snippets : List Snippet := []
  deriving DecidableEq, Repr

namespace Diagnostic

/-- The level and the code. -/
def header (d : Diagnostic) : String :=
  match d.code with
  | some c => s!"{d.level.name}[{c.text}]"
  | none => d.level.name

/-- The diagnostic as it is printed: header and message, place, snippets, notes
and helps, one under the other. -/
def render (d : Diagnostic) (f : SourceFile) (color : Bool) : String :=
  let header := if color then s!"\x1b[1;{d.level.color}m{d.header}\x1b[0m" else d.header
  let (line, column) := f.position d.span.start
  s!"{header}: {d.message}\n   --> {f.name}:{line}:{column}\n" ++
    String.join (d.snippets.map fun s => s.render ++ "\n") ++
    String.join (d.notes.map fun n => s!"    = note: {n}\n") ++
    String.join (d.helps.map fun h => s!"    = help: {h}\n")

end Diagnostic

/-- The diagnostics so far, in order. -/
structure Log where
  diagnostics : List Diagnostic := []
  deriving DecidableEq, Repr

namespace Log

def emit (l : Log) (d : Diagnostic) : Log := ⟨l.diagnostics ++ [d]⟩

/-- The diagnostics, and a log without them. -/
def take (l : Log) : List Diagnostic × Log := (l.diagnostics, {})

def count (l : Log) (level : Level) : Nat := l.diagnostics.countP (·.level = level)

def isEmpty (l : Log) : Bool := l.diagnostics.isEmpty

end Log
end Gloss
