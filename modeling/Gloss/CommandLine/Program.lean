import Gloss.CommandLine.Help
import Gloss.CommandLine.Invocation
import Gloss.Settings.Search
/-!
# The program

What the program does with its arguments, its environment and a disk, up to the
exit status: 0, or 1 for a problem, or 2 for arguments that are refused.
-/

namespace Gloss.CommandLine

/-- What the program leaves behind. -/
structure Outcome where
  exit : Nat
  output : String := ""
  /-- The problem, as it is told. -/
  error : Option String := none
  warnings : List String := []
  /-- The verbose log has entries. -/
  logged : Bool := false
  disk : Disk

/-! ## Problems as they are told -/

/-- A cause with its lines indented. -/
def indented (first later s : String) : String :=
  first ++ ("\n" ++ later).intercalate (s.splitOn "\n")

/-- An error and below it its causes, with numbers if there are several. -/
def errorText (error : String) (causes : List String) : String :=
  let lines := match causes with
    | [] => []
    | [cause] => [indented "    " "    " cause]
    | causes => causes.mapIdx fun n cause => indented s!"    {n}: " "       " cause
  "Error: " ++ error ++
    if lines = [] then "" else "\n\nCaused by:\n" ++ "\n".intercalate lines

/-- A problem of a command. -/
def commandError (p : Problem) : String := errorText p.message p.cause?.toList

/-- A problem with the settings. -/
def settingsError (p : Problem) : String :=
  errorText "failed to load configuration" (p.message :: p.cause?.toList)

/-! ## Running -/

/-- The directories of the user. -/
def userDirs (env : Environment) : Settings.UserDirs :=
  let home := (env.lookup "HOME").filter (· != "")
  let config := (env.lookup "XDG_CONFIG_HOME").filter fun p => (⟨p⟩ : Path).isAbsolute
  { home := home.map fun p => ⟨p⟩
    config := (config.map fun p => ⟨p⟩) <|> home.map fun p => (⟨p⟩ : Path).join ".config" }

/-- The disk after a run, and the run without its result. -/
def Request.run (r : Request) (d : Disk) (s : Settings) : Disk × Command.Run Unit :=
  match r with
  | .strip r =>
    let (d, run) := Command.strip r d s
    (d, { events := run.events, result := run.result.map fun _ => () })
  | .extract r =>
    let run := Command.extract r d s
    (d, { events := run.events, result := run.result.map fun _ => () })
  | .spans r =>
    let run := Command.spans r d s
    (d, { events := run.events, result := run.result.map fun _ => () })
  | .check r =>
    let run := Command.check r d s
    (d, { events := run.events, result := run.result.map fun _ => () })

/-- What the program does. -/
def program (args : List String) (env : Environment) (d : Disk) : Outcome :=
  match invocation args env with
  | .error .refused => { exit := 2, disk := d }
  | .error (.help topic long) => { exit := 0, output := topic.text long, disk := d }
  | .error (.version l) => { exit := 0, output := versionText l, disk := d }
  | .ok asked =>
    let settings := match asked.config with
      | some p => Settings.load d p
      | none => Settings.discover d (userDirs env)
    match settings with
    | .error p => { exit := 1, error := some (settingsError p), disk := d }
    | .ok s =>
      let (after, run) := asked.request.run d s
      let (exit, error) := match run.result with
        | .ok () => (0, none)
        | .error p => (1, some (commandError p))
      { exit, output := run.output, error, warnings := run.warnings, logged := asked.verbose,
        disk := after }

end Gloss.CommandLine
