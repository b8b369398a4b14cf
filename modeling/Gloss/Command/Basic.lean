import Gloss.Command.Json
import Gloss.Inputs
/-!
# Runs of commands

A command is run on a disk under settings. What it shows are events in order;
what it comes to is a result or a problem. A run never depends on how much its
output may hold: `Run.within` cuts it off where the output is full.
-/

namespace Gloss.Command

/-- What a run shows. -/
inductive Event where
  | warning (text : String)
  | output (text : String)
  /-- Output that is a JSON document. -/
  | document (json : Json)

/-- A warning about a file that failed. -/
def Event.failure (file : InputFile) (p : Problem) : Event :=
  .warning s!"{file.path.text}: {p.message}"

/-- The output of an event. -/
def Event.text : Event → String
  | .warning _ => ""
  | .output s => s
  | .document j => j.render 0

structure Run (α : Type) where
  events : List Event := []
  result : Except Problem α

namespace Run

/-- A run that fails before it shows anything. -/
def failed {α : Type} (p : Problem) : Run α := { result := .error p }

/-- All output. -/
def output {α : Type} (r : Run α) : String := String.join (r.events.map Event.text)

def warnings {α : Type} (r : Run α) : List String :=
  r.events.filterMap fun
    | .warning s => some s
    | _ => none

/-- The events that fit in `n` bytes of output, and the problem with the first
one that does not. -/
def fitting (n : Nat) : List Event → List Event × Option Problem
  | [] => ([], none)
  | e :: es =>
    let size := e.text.utf8ByteSize
    if size ≤ n then
      let (es, p) := fitting (n - size) es
      (e :: es, p)
    else
      ([], some (.sinkFull (match e with
        | .document _ => true
        | _ => false)))

/-- The run with an output that takes `n` bytes. -/
def within {α : Type} (n : Nat) (r : Run α) : Run α :=
  match fitting n r.events with
  | (_, none) => r
  | (events, some p) => { events, result := .error p }

end Run

/-- How a run over several files went. -/
structure Summary where
  /-- What was found, in all files together. -/
  count : Nat
  processed : Nat
  failed : Nat
  deriving DecidableEq, Repr

/-- The summary, unless a file failed. -/
def Summary.check (s : Summary) : Except Problem Summary :=
  if s.failed = 0 then .ok s else .error (.filesFailed s.failed)

/-- The text of a file, with name and rules of its language. -/
def openSource (d : Disk) (g : Registry) (p : Path) : Except Problem (String × Rules × String) := do
  let (language, rules) ← g.resolve p
  return (language, rules, ← readSource d p)

end Gloss.Command
