import Gloss.Disk.Access
import Gloss.Registry
/-!
# Inputs

The files that the inputs of a run stand for. A file that is named is taken as
it is. Of a directory those files are taken, at any depth and in the order of
their names, whose extension a language claims; links in it are not followed.
The directories in it are read by their paths, so none of these may be too long.
-/

namespace Gloss

/-- A file to work on. -/
structure InputFile where
  path : Path
  /-- The way to it from the input it was found under. -/
  relative : Path
  deriving DecidableEq, Repr

/-- The files below a directory whose names are in `keep`, each as the names on
the way to it, in order. -/
def Node.filesBelow (keep : String → Bool) : Node → List Location
  | .dir entries =>
    let found := entries.attach.map fun e => (e.1.1,
      match _h : e.1.2 with
      | .file _ => if keep e.1.1 then [[]] else []
      | .link _ => []
      | .dir inner => filesBelow keep (.dir inner))
    (found.mergeSort fun a b => a.1 ≤ b.1).flatMap fun (name, below) => below.map (name :: ·)
  | _ => []
decreasing_by
  obtain ⟨⟨name, n⟩, he⟩ := e
  have := List.sizeOf_lt_of_mem he
  simp only at _h
  subst _h
  simp_all
  omega

/-- The directories below a directory, each as the names on the way to it. -/
def Node.dirsBelow : Node → List Location
  | .dir entries =>
    entries.attach.flatMap fun e =>
      match _h : e.1.2 with
      | .dir inner => [e.1.1] :: (dirsBelow (.dir inner)).map (e.1.1 :: ·)
      | _ => []
  | _ => []
decreasing_by
  obtain ⟨⟨name, n⟩, he⟩ := e
  have := List.sizeOf_lt_of_mem he
  simp only at _h
  subst _h
  simp_all
  omega

/-- The path of what is below another. -/
def Path.below (p : Path) (names : Location) : Path := names.foldl join p

/-- The files an input stands for. -/
def filesOf (d : Disk) (g : Registry) (input : Path) : Except Problem (List InputFile) :=
  match d.node? input with
  | some (.file _) =>
    match input.fileName? with
    | some name => .ok [⟨input, ⟨name⟩⟩]
    | none => .error (.noFileName input)
  | some (.dir entries) =>
    let tree := Node.dir entries
    if tree.dirsBelow.all fun names => (input.below names).fits then
      .ok ((tree.filesBelow fun name => g.claims ⟨name⟩).map fun names =>
        ⟨input.below names, ⟨"/".intercalate names⟩⟩)
    else .error (.system .nameTooLong)
  | _ => .error (.inputMissing input)

/-- The files that inputs stand for, in the order of the inputs. -/
def collect (d : Disk) (g : Registry) (inputs : List Path) : Except Problem (List InputFile) :=
  if inputs = [] then .error .noInputs else (inputs.mapM (filesOf d g)).map List.flatten

/-- The text of a file. -/
def readSource (d : Disk) (p : Path) : Except Problem String :=
  match d.readText p with
  | .ok s => .ok s
  | .error fault => .error (.inaccessible p fault)

end Gloss
