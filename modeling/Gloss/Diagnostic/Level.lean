/-!
# Levels

How grave a diagnostic is. The gravest comes first.
-/

namespace Gloss

inductive Level where
  | error | warning | note | help
  deriving DecidableEq, Repr

namespace Level

def all : List Level := [.error, .warning, .note, .help]

def name : Level → String
  | .error => "error"
  | .warning => "warning"
  | .note => "note"
  | .help => "help"

def ofName? (s : String) : Option Level := all.find? (·.name == s)

/-- The terminal colour: red, yellow, cyan or green. -/
def color : Level → String
  | .error => "31"
  | .warning => "33"
  | .note => "36"
  | .help => "32"

/-- Neither an error nor a warning. -/
def isInfo : Level → Bool
  | .note | .help => true
  | _ => false

/-- The place in the order, the gravest first. -/
def rank : Level → Nat
  | .error => 0
  | .warning => 1
  | .note => 2
  | .help => 3

/-- Levels by gravity; equal ones keep their order. -/
def sort (ls : List Level) : List Level := ls.mergeSort fun a b => a.rank ≤ b.rank

end Level
end Gloss
