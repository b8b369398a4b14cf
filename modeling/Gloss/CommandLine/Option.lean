/-!
# Options

What may stand on the command line: the program's own options, which are taken
behind a command too, and the options and inputs of each command.
-/

namespace Gloss.CommandLine

/-- The commands. -/
inductive CommandName where
  | strip
  | extract
  | spans
  | check
  deriving DecidableEq, Repr

namespace CommandName

def all : List CommandName := [.strip, .extract, .spans, .check]

def text : CommandName → String
  | .strip => "strip"
  | .extract => "extract"
  | .spans => "spans"
  | .check => "check"

def ofText? (s : String) : Option CommandName := all.find? (·.text == s)

end CommandName

/-- What the arguments are read for: the program, up to a command, and then the
command. -/
inductive Level where
  | program
  | command (c : CommandName)
  deriving DecidableEq, Repr

inductive Opt where
  | verbose
  | config
  | noColor
  | output
  | policy
  | language
  | force
  | jobs
  | format
  | denyWarnings
  deriving DecidableEq, Repr

/-- What an option takes. -/
inductive Takes where
  | nothing
  /-- A text that is not empty. -/
  | path
  | text
  /-- A number from 1 on that fits 32 bits. -/
  | count
  deriving DecidableEq, Repr

namespace Opt

def long : Opt → String
  | .verbose => "verbose"
  | .config => "config"
  | .noColor => "no-color"
  | .output => "output"
  | .policy => "policy"
  | .language => "language"
  | .force => "force"
  | .jobs => "jobs"
  | .format => "format"
  | .denyWarnings => "deny-warnings"

def short? : Opt → Option Char
  | .verbose => some 'v'
  | .config => some 'c'
  | .output => some 'o'
  | .policy => some 'p'
  | .language => some 'l'
  | .force => some 'f'
  | .jobs => some 'j'
  | .format => some 'F'
  | .noColor | .denyWarnings => none

def takes : Opt → Takes
  | .verbose | .noColor | .force | .denyWarnings => .nothing
  | .config | .output => .path
  | .policy | .language | .format => .text
  | .jobs => .count

/-- The environment variable that stands in for an option. -/
def standIn? : Opt → Option String
  | .verbose => some "CSCAN_VERBOSE"
  | .config => some "CSCAN_CONFIG"
  | .noColor => some "CSCAN_NO_COLOR"
  | _ => none

end Opt

namespace Level

/-- The options that are taken at every level. -/
def shared : List Opt := [.verbose, .config, .noColor]

def options : Level → List Opt
  | .program => shared
  | .command .strip => shared ++ [.output, .policy, .language, .force, .jobs]
  | .command .extract => shared ++ [.format, .language]
  | .command .spans => shared ++ [.language]
  | .command .check => shared ++ [.language, .denyWarnings]

/-- How many inputs may be given. Where any may be, one must be. -/
def maxInputs : Level → Option Nat
  | .program => some 0
  | .command .spans => some 1
  | .command _ => none

end Level

/-- A number of jobs, in decimal digits after a plus sign or not. -/
def isCount (s : String) : Bool :=
  let digits := match s.toList with
    | '+' :: rest => rest
    | all => all
  let n := digits.foldl (fun n c => n * 10 + (c.toNat - '0'.toNat)) 0
  !digits.isEmpty && digits.all Char.isDigit && 1 ≤ n && n < Nat.pow 2 32

/-- The value may be given to an option. -/
def Takes.accepts (t : Takes) (value : String) : Bool :=
  match t with
  | .nothing => value == "true" || value == "false"
  | .path => value != ""
  | .text => true
  | .count => isCount value

end Gloss.CommandLine
