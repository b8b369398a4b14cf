import Gloss.CommandLine.Reading
/-!
# Help

What is printed about the program and its commands. Help in short and at length
differ in the description on top.
-/

namespace Gloss.CommandLine

/-- The name of the program. -/
def programName : String := "cscan"

def programVersion : String := "0.1.0"

/-- What a command does, in a line. -/
def CommandName.about : CommandName → String
  | .strip => "Remove comments from source files"
  | .extract => "List the comments in source files"
  | .spans => "Print the span partition of a file as JSON"
  | .check => "Report unterminated comments and literals"

/-- What a command does, at length. -/
def CommandName.description : CommandName → String
  | .strip =>
    "Removes line and block comments, leaving code and literals untouched. " ++
    "A single file is written to stdout unless --output is given; " ++
    "directories are walked recursively and mirrored into --output."
  | .extract =>
    "Prints each comment as `file:line: text`, " ++
    "or the full records as JSON with --format json."
  | .spans => "Prints every span (code, comment or literal) with its byte offsets."
  | .check =>
    "Scans each input and prints a diagnostic for every block comment, " ++
    "string or char literal that is never closed."

def Topic.about (t : Topic) (long : Bool) : String :=
  match t with
  | .help => "Print this message or the help of the given subcommand(s)"
  | .level .program => "Comment-aware source scanner"
  | .level (.command c) => if long then c.description else c.about

/-- The form of a call. -/
def Topic.usage : Topic → String
  | .help => s!"{programName} help [COMMAND]"
  | .level .program => s!"{programName} [OPTIONS] <COMMAND>"
  | .level (.command .spans) => s!"{programName} spans [OPTIONS] <INPUT>"
  | .level (.command c) => s!"{programName} {c.text} [OPTIONS] <INPUT>..."

/-- An option with its names. -/
def Opt.usage (o : Opt) : String :=
  let short := match o.short? with
    | some c => s!"-{c}, "
    | none => "    "
  let value := if o.takes = .nothing then "" else s!" <{o.long.toUpper}>"
  s!"  {short}--{o.long}{value}\n"

def Topic.text (t : Topic) (long : Bool) : String :=
  let head := s!"{t.about long}\n\nUsage: {t.usage}\n"
  match t with
  | .help => head
  | .level l =>
    let commands := if l = .program then
        "\nCommands:\n" ++ String.join (CommandName.all.map fun c => s!"  {c.text}: {c.about}\n")
      else ""
    head ++ commands ++ "\nOptions:\n" ++ String.join (l.options.map Opt.usage)

/-- The version, of the program or of a command. -/
def versionText : Level → String
  | .program => s!"{programName} {programVersion}\n"
  | .command c => s!"{programName}-{c.text} {programVersion}\n"

end Gloss.CommandLine
