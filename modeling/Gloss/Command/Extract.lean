import Gloss.Command.Basic
import Gloss.Comment
/-!
# The extract command

Lists the comments of the inputs, in lines of text or as one JSON document.
-/

namespace Gloss.Command

/-- The form of a listing. -/
inductive Format where
  | text
  | json
  deriving DecidableEq, Repr

namespace Format

def name : Format → String
  | .text => "text"
  | .json => "json"

/-- The form of a name. ASCII case does not matter. -/
def ofName? (s : String) : Except Problem Format :=
  match Text.lower s with
  | "text" | "txt" => .ok .text
  | "json" => .ok .json
  | _ => .error (.unknownFormat s)

end Format

structure ExtractRequest where
  inputs : List Path
  /-- The name of a format; text if none is given. -/
  format : Option String := none
  /-- The name of the language of all inputs. -/
  language : Option String := none
  deriving DecidableEq, Repr

/-- A comment with its file and without its delimiters. -/
structure Listed where
  file : Path
  comment : Comment
  body : Text
  summary : Text
  deriving DecidableEq, Repr

namespace Listed

/-- The comment in a line. -/
def line (c : Listed) : String :=
  s!"{c.file.text}:{c.comment.line}: {String.ofList c.summary}\n"

def json (c : Listed) : Json := .object [
  ("file", .string c.file.text),
  ("line", .number c.comment.line),
  ("kind", .string c.comment.kind.name),
  ("start", .number c.comment.span.start),
  ("end", .number c.comment.span.stop),
  ("text", .string (String.ofList c.comment.text)),
  ("body", .string (String.ofList c.body)),
  ("terminated", .boolean c.comment.terminated)]

end Listed

/-- The comments of a file. -/
def listed (d : Disk) (g : Registry) (file : InputFile) : Except Problem (List Listed) := do
  let (_, rules, source) ← openSource d g file.path
  return (rules.comments source.toList).map fun c =>
    { file := file.path, comment := c, body := c.body rules, summary := c.summary rules }

/-- The listing as it is shown. -/
def Format.show (f : Format) (found : List Listed) : List Event :=
  match f with
  | .text => found.map fun c => .output c.line
  | .json => [.document (.array (found.map Listed.json)), .output "\n"]

/-- The run of the command. -/
def extract (r : ExtractRequest) (d : Disk) (s : Settings) : Run Summary :=
  let prepared : Except Problem (Format × Registry × List InputFile) := do
    let format ← match r.format with
      | some name => Format.ofName? name
      | none => .ok .text
    let registry ← Registry.ofSettings s r.language
    return (format, registry, ← collect d registry r.inputs)
  match prepared with
  | .error p => .failed p
  | .ok (format, registry, files) =>
    let results := files.map fun file => (file, listed d registry file)
    let found := results.flatMap fun (_, result) => match result with
      | .ok found => found
      | .error _ => []
    let failures := results.filterMap fun (file, result) => match result with
      | .ok _ => none
      | .error p => some (.failure file p)
    { events := failures ++ format.show found
      result := Summary.check
        { count := found.length
          processed := files.length - failures.length
          failed := failures.length } }

end Gloss.Command
