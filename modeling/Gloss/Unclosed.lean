import Gloss.Diagnostic.Basic
import Gloss.Scan
/-!
# Unclosed constructs

One warning for each block comment, string and character literal that does not
meet its own end. A scan has no errors, so this is the only place where an
unclosed construct shows.
-/

namespace Gloss

/-- Message, code and closer of the warning about an unclosed construct. -/
def Kind.unclosed? (r : Rules) : Kind → Option (String × Code × Option Text)
  | .blockComment =>
    some ("unterminated block comment", .unclosedBlockComment, r.blockComment.map (·.2))
  | .stringLiteral =>
    some ("unterminated string literal", .unclosedString, r.stringQuote.map ([·]))
  | .charLiteral => some ("unterminated char literal", .unclosedChar, r.charQuote.map ([·]))
  | _ => none

/-- The warning about a fragment, if its construct is unclosed. -/
def Fragment.warning? (r : Rules) (file : SourceFile) (f : Fragment) : Option Diagnostic := do
  guard (!f.isTerminated r)
  let (message, code, closer) ← f.kind.unclosed? r
  return {
    level := .warning
    message
    span := f.span
    code := some code
    notes := if f.span.stop = Text.width file.text then [] else ["the literal ends at the line break"]
    helps := (closer.map fun c => s!"add the closing `{String.ofList c}`").toList
    snippets := [{ Snippet.ofSpan file f.span with label := some "starts here" }] }

/-- The warnings about the fragments of a file, in order. -/
def warnings (r : Rules) (file : SourceFile) (fs : List Fragment) : List Diagnostic :=
  fs.filterMap (Fragment.warning? r file)

end Gloss
