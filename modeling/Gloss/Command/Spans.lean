import Gloss.Command.Basic
import Gloss.Scan
/-!
# The spans command

Shows the regions of one file as a JSON document.
-/

namespace Gloss.Command

structure SpansRequest where
  input : Path
  /-- The name of the language of the input. -/
  language : Option String := none
  deriving DecidableEq, Repr

/-- A region in a document. -/
def regionJson (r : Region) : Json := .object [
  ("kind", .string r.kind.name),
  ("start", .number r.span.start),
  ("end", .number r.span.stop)]

/-- The run of the command, with the number of regions. -/
def spans (r : SpansRequest) (d : Disk) (s : Settings) : Run Nat :=
  let opened : Except Problem (String × Rules × String) := do
    openSource d (← Registry.ofSettings s r.language) r.input
  match opened with
  | .error p => .failed p
  | .ok (language, rules, source) =>
    let regions := rules.scan source.toList
    { events := [
        .document (.object [
          ("file", .string r.input.text),
          ("language", .string language),
          ("spans", .array (regions.map regionJson))]),
        .output "\n"]
      result := .ok regions.length }

end Gloss.Command
