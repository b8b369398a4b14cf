import Gloss.CommandLine.Program
/-!
# Running on a real disk

Copies what a call is about from the real disk, runs the program on the copy,
and writes back what it changed. Nothing is decided here.
-/

namespace Gloss.CommandLine

/-- The real name of a location. -/
def realName (loc : Location) : String := "/" ++ "/".intercalate loc

/-- A copy of what is at an entry of a real directory; what is below it too, if
the whole of it is asked for. -/
partial def copyEntry (whole : Bool) (e : IO.FS.DirEntry) : IO (Option Node) := do
  match ← e.path.symlinkMetadata.toBaseIO with
  | .error _ => return none
  | .ok info =>
    match info.type with
    | .dir =>
      if !whole then return some .empty
      let below ← (← e.path.readDir).toList.filterMapM fun e => do
        return (← copyEntry true e).map fun n => (e.fileName, n)
      return some (.dir below)
    | .symlink =>
      match ← (IO.FS.realPath e.path).toBaseIO with
      | .ok target => return some (.link ⟨target.toString⟩)
      | .error _ => return some (.link ⟨""⟩)
    | .file => return some (.file (← IO.FS.readBinFile e.path))
    | .other => return none

/-- The disk with copies of what is on the way along a path. -/
partial def copyPath (whole : Bool) (d : Disk) (p : Path) : IO Disk := do
  let mut d := d
  for q in p.above.reverse ++ [p] do
    match d.find q .entry with
    | .ok (.missing dir name) =>
      match ← copyEntry false { root := realName dir, fileName := name } with
      | none => return d
      | some n =>
        d := d.put (dir ++ [name]) n
        match n with
        | .link target => d ← copyPath false d target
        | _ => pure ()
    | _ => pure ()
  if whole && d.isDir p then
    match d.find p with
    | .ok (.found loc) =>
      match loc.getLast? with
      | some name =>
        let n ← copyEntry true { root := realName loc.dropLast, fileName := name }
        return d.put loc (n.getD .empty)
      | none => return d
    | _ => return d
  return d

/-- The inputs of a request, and its output. -/
def Request.paths : Request → List Path × Option Path
  | .strip r => (r.inputs, r.output)
  | .extract r => (r.inputs, none)
  | .spans r => ([r.input], none)
  | .check r => (r.inputs, none)

/-- A copy of the parts of the real disk that a call is about. -/
def copyDisk (args : List String) (env : Environment) : IO Disk := do
  let here : Path := ⟨(← IO.currentDir).toString⟩
  let names := here.steps.filterMap fun
    | .name s => some s
    | _ => none
  let d ← copyPath false { root := .empty } here
  let d := { d with here := names }
  match invocation args env with
  | .error _ => return d
  | .ok asked =>
    let (inputs, output) := asked.request.paths
    let config := match asked.config with
      | some p => [p]
      | none => Settings.candidates (userDirs env)
    let d ← config.foldlM (copyPath false) d
    (inputs ++ output.toList).foldlM (copyPath true) d

/-- Writes what differs from the disk before to the real disk. -/
partial def writeBack (before : Disk) (loc : Location) : Node → IO Unit
  | .dir entries => do
    if (before.root.get? loc).isNone then IO.FS.createDirAll (realName loc)
    for (name, n) in entries do writeBack before (loc ++ [name]) n
  | .file bytes => do
    let same := match before.root.get? loc with
      | some (.file old) => old == bytes
      | _ => false
    if !same then IO.FS.writeBinFile (realName loc) bytes
  | .link _ => return ()

/-- The variables that the program looks at. -/
def readEnvironment : IO Environment :=
  (["HOME", "XDG_CONFIG_HOME"] ++ Level.shared.filterMap Opt.standIn?).filterMapM fun name => do
    return (← IO.getEnv name).map fun value => (name, value)

/-- Runs the program and gives its exit status. -/
def run (args : List String) : IO UInt32 := do
  let env ← readEnvironment
  let d ← copyDisk args env
  let outcome := program args env d
  writeBack d [] outcome.disk.root
  IO.print outcome.output
  for warning in outcome.warnings do IO.eprintln s!"WARN {warning}"
  match outcome.error with
  | some error => IO.eprintln error
  | none => if outcome.exit = 2 then IO.eprintln "The arguments are not understood; try --help."
  return outcome.exit.toUInt32

end Gloss.CommandLine

def main (args : List String) : IO UInt32 := Gloss.CommandLine.run args
