import Gloss.Command.Basic
import Gloss.Strip
/-!
# The strip command

Writes inputs without their comments. One file goes to the output of the run,
or to a given file; several files go into a directory, or back to where they
are if that is forced. Nothing is written before the whole plan stands, and
without force no file that is there is written to. A file that fails leaves the
others alone.
-/

namespace Gloss.Command

structure StripRequest where
  inputs : List Path
  output : Option Path := none
  /-- The name of a policy, which overrules the settings. -/
  policy : Option String := none
  /-- The name of the language of all inputs. -/
  language : Option String := none
  force : Bool := false
  deriving DecidableEq, Repr

/-- Where stripped texts go. -/
inductive Target where
  | output
  | file (path : Path)
  | directory (path : Path)
  | inPlace
  deriving DecidableEq, Repr

/-- The path that a file is written to. -/
def Target.destination (t : Target) (file : InputFile) : Path :=
  match t with
  | .output | .inPlace => file.path
  | .file path => path
  | .directory path => path.join file.relative.text

/-- Everything that is settled before the first file is read. -/
structure StripPlan where
  policy : Policy
  registry : Registry
  files : List InputFile
  target : Target
  force : Bool

/-- The first path with the same steps as one before it. -/
def sharedPath? (seen : List Path) : List Path → Option Path
  | [] => none
  | p :: ps => if seen.any (·.steps == p.steps) then some p else sharedPath? (p :: seen) ps

namespace StripRequest

def policyUnder (r : StripRequest) (s : Settings) : Except Problem Policy :=
  match r.policy with
  | none => .ok s.policy
  | some name =>
    match Policy.ofName? name with
    | some p => .ok p
    | none => .error (.unknownPolicy name)

/-- Where the texts go. A single file is one input that is a file. -/
def target (r : StripRequest) (d : Disk) : Except Problem Target :=
  let single := match r.inputs with
    | [input] => d.isFile input
    | _ => false
  match r.output with
  | some path => .ok (if single && !d.isDir path then .file path else .directory path)
  | none =>
    if single then .ok .output
    else if r.force then .ok .inPlace
    else .error .outputNeeded

/-- The plan, unless something stands against it. -/
def plan (r : StripRequest) (d : Disk) (s : Settings) : Except Problem StripPlan := do
  let policy ← r.policyUnder s
  let registry ← Registry.ofSettings s r.language
  let files ← collect d registry r.inputs
  let target ← r.target d
  match sharedPath? [] (files.map target.destination) with
  | some path => throw (.sameOutput path)
  | none => return { policy, registry, files, target, force := r.force }

end StripRequest

namespace StripPlan

/-- The text of a file without its comments, and how many these were. -/
def strip (plan : StripPlan) (d : Disk) (file : InputFile) : Except Problem (Text × Nat) := do
  let (_, rules, source) ← openSource d plan.registry file.path
  let fragments := rules.fragments source.toList
  return (stripFragments plan.policy fragments, fragments.countP (·.kind.isComment))

/-- Writes the text of a file to its destination. -/
def write (plan : StripPlan) (d : Disk) (file : InputFile) (text : Text) :
    Disk × Except Problem Unit :=
  let path := plan.target.destination file
  if plan.target ≠ .inPlace ∧ d.holds path ∧ !plan.force then (d, .error (.outputExists path))
  else
    match d.ensureParent path with
    | (d, .error fault) => (d, .error (.system fault))
    | (d, .ok ()) =>
      match d.write path (String.ofList text).toUTF8 with
      | .ok d => (d, .ok ())
      | .error fault => (d, .error (.inaccessible path fault))

/-- Strips one file: the disk after it, and the number of comments. -/
def step (plan : StripPlan) (d : Disk) (file : InputFile) : Disk × Except Problem Nat :=
  match plan.strip d file with
  | .error p => (d, .error p)
  | .ok (text, count) =>
    let (d, written) := plan.write d file text
    (d, written.map fun _ => count)

/-- Strips files one after the other. -/
def steps (plan : StripPlan) (d : Disk) : List InputFile → Disk × List (InputFile × Except Problem Nat)
  | [] => (d, [])
  | file :: files =>
    let (d, result) := plan.step d file
    let (d, results) := plan.steps d files
    (d, (file, result) :: results)

end StripPlan

/-- What became of files: a warning for each that failed, and the summary. -/
def tally (results : List (InputFile × Except Problem Nat)) : Run Summary :=
  let failures := results.filterMap fun (file, result) =>
    match result with
    | .ok _ => none
    | .error p => some (.failure file p)
  let count := (results.map fun (_, result) => match result with
    | .ok n => n
    | .error _ => 0).foldl (· + ·) 0
  { events := failures
    result := Summary.check
      { count, processed := results.length - failures.length, failed := failures.length } }

/-- The disk after the command, and its run. -/
def strip (r : StripRequest) (d : Disk) (s : Settings) : Disk × Run Summary :=
  match r.plan d s with
  | .error p => (d, .failed p)
  | .ok plan =>
    match plan.target, plan.files with
    | .output, file :: _ =>
      match plan.strip d file with
      | .error p => (d, .failed p)
      | .ok (text, count) =>
        (d, { events := [.output (String.ofList text)]
              result := .ok { count, processed := 1, failed := 0 } })
    | _, files =>
      let (d, results) := plan.steps d files
      (d, tally results)

end Gloss.Command
