import Gloss.Command.Basic
import Gloss.Unclosed
/-!
# The check command

Shows a diagnostic for every construct of the inputs that is never closed, and
for every file that cannot be read.
-/

namespace Gloss.Command

structure CheckRequest where
  inputs : List Path
  /-- The name of the language of all inputs. -/
  language : Option String := none
  /-- Unclosed constructs are errors and fail the run. -/
  denyWarnings : Bool := false
  color : Bool := false
  deriving DecidableEq, Repr

/-- The diagnostics of one file. -/
structure FileReport where
  diagnostics : List String
  unclosed : Nat
  readable : Bool
  deriving DecidableEq, Repr

/-- The report on a file whose language is known. -/
def FileReport.ofFile (r : CheckRequest) (d : Disk) (rules : Rules) (path : Path) : FileReport :=
  match readSource d path with
  | .error p =>
    let diagnostic : Diagnostic :=
      { level := .error, message := p.message, code := some .unreadableInput }
    { diagnostics := [diagnostic.render (SourceFile.ofText path.text []) r.color]
      unclosed := 0
      readable := false }
  | .ok source =>
    let file := SourceFile.ofText path.text source.toList
    let found := warnings rules file (rules.fragments file.text)
    let shown := if r.denyWarnings then found.map ({ · with level := .error }) else found
    { diagnostics := shown.map (·.render file r.color)
      unclosed := found.length
      readable := true }

/-- The report on a file, if its language is known. -/
def report (r : CheckRequest) (d : Disk) (g : Registry) (file : InputFile) :
    Except Problem FileReport :=
  (g.resolve file.path).map fun (_, rules) => .ofFile r d rules file.path

/-- What is shown of a report. -/
def FileReport.events (file : InputFile) : Except Problem FileReport → List Event
  | .error p => [.failure file p]
  | .ok report => report.diagnostics.map fun s => .output (s ++ "\n")

/-- The constructs a report counts. -/
def FileReport.count : Except Problem FileReport → Nat
  | .error _ => 0
  | .ok report => report.unclosed

/-- The report is on a file that was read. -/
def FileReport.isGood : Except Problem FileReport → Bool
  | .error _ => false
  | .ok report => report.readable

/-- The run of the command. -/
def check (r : CheckRequest) (d : Disk) (s : Settings) : Run Summary :=
  let prepared : Except Problem (Registry × List InputFile) := do
    let registry ← Registry.ofSettings s r.language
    return (registry, ← collect d registry r.inputs)
  match prepared with
  | .error p => .failed p
  | .ok (registry, files) =>
    let results := files.map fun file => (file, report r d registry file)
    let count := (results.map fun x => FileReport.count x.2).foldl (· + ·) 0
    let processed := results.countP fun x => FileReport.isGood x.2
    let summary : Summary := { count, processed, failed := files.length - processed }
    { events := results.flatMap fun (file, result) => FileReport.events file result
      result := do
        let summary ← summary.check
        if r.denyWarnings ∧ 0 < count then throw (.unclosed count)
        return summary }

end Gloss.Command
