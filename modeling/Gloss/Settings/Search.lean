import Gloss.Disk.Access
import Gloss.Settings.Decode
/-!
# Where settings are

Settings are read from a given file, or from the first that is there of the
working directory, the home directory and the directory for configurations.
Without any of them the defaults hold.
-/

namespace Gloss.Settings

/-- The name of a settings file. -/
def fileName : String := "cscan.toml"

/-- The directories of a user. -/
structure UserDirs where
  home : Option Path := none
  config : Option Path := none
  deriving DecidableEq, Repr

/-- Where settings may be, the first one that is there counts. -/
def candidates (dirs : UserDirs) : List Path :=
  ⟨fileName⟩ ::
    (dirs.home.map fun p => ((p.join ".config").join "cscan").join fileName).toList ++
    (dirs.config.map fun p => (p.join "cscan").join fileName).toList

/-- The settings of a file. -/
def load (d : Disk) (p : Path) : Except Problem Settings :=
  if !d.holds p then .error (.settingsMissing p)
  else
    match d.readText p with
    | .ok s => ofToml s
    | .error fault => .error (.system fault)

/-- The settings that hold where no file is given. -/
def discover (d : Disk) (dirs : UserDirs) : Except Problem Settings :=
  match (candidates dirs).find? d.holds with
  | some p => load d p
  | none => .ok {}

end Gloss.Settings
