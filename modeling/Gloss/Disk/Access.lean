import Gloss.Disk.Basic
/-!
# Reading and writing

What programs do with a disk: look, read and write files, and make directories.
Links are followed; a file written to through a link that leads nowhere is made
where the link leads.
-/

namespace Gloss.Disk

/-! ## Looking -/

/-- The file or directory a path leads to. -/
def node? (d : Disk) (p : Path) : Option Node :=
  match d.find p with
  | .ok (.found loc) => d.root.get? loc
  | _ => none

def holds (d : Disk) (p : Path) : Bool := (d.node? p).isSome

def isFile (d : Disk) (p : Path) : Bool := (d.node? p).any Node.isFile

def isDir (d : Disk) (p : Path) : Bool := (d.node? p).any Node.isDir

/-! ## Files -/

def read (d : Disk) (p : Path) : Except Fault ByteArray :=
  match d.find p with
  | .error fault => .error fault
  | .ok (.missing ..) => .error .notFound
  | .ok (.found loc) =>
    match d.root.get? loc with
    | some (.file bytes) => .ok bytes
    | some _ => .error .isADirectory
    | none => .error .notFound

/-- The text of a file. -/
def readText (d : Disk) (p : Path) : Except Fault String :=
  match d.read p with
  | .error fault => .error fault
  | .ok bytes =>
    match String.fromUTF8? bytes with
    | some s => .ok s
    | none => .error .notText

def put (d : Disk) (loc : Location) (n : Node) : Disk := { d with root := n.put loc d.root }

/-- The location of the file that writing to a path makes or overwrites. -/
def target (d : Disk) (p : Path) : Except Fault Location :=
  match d.find p .file with
  | .error fault => .error fault
  | .ok (.missing dir name) => .ok (dir ++ [name])
  | .ok (.found loc) =>
    match d.root.get? loc with
    | some (.file _) => .ok loc
    | _ => .error .isADirectory

/-- Makes or overwrites a file. -/
def write (d : Disk) (p : Path) (bytes : ByteArray) : Except Fault Disk :=
  (d.target p).map fun loc => d.put loc (.file bytes)

/-! ## Directories -/

/-- Makes one directory, in one that is there. A link is not followed. -/
def makeDir (d : Disk) (p : Path) : Except Fault Disk :=
  match d.find p .entry with
  | .error fault => .error fault
  | .ok (.found _) => .error .exists
  | .ok (.missing dir name) => .ok (d.put (dir ++ [name]) .empty)

/-- Makes a directory unless it is there. -/
def ensureDir (d : Disk) (p : Path) : Disk × Except Fault Unit :=
  match d.makeDir p with
  | .ok d => (d, .ok ())
  | .error fault => (d, if d.isDir p then .ok () else .error fault)

/-- Makes the first of these directories, and before it those of the others
that it needs. What was made stays if the rest fails. -/
def ensureDirs (d : Disk) : List Path → Disk × Except Fault Unit
  | [] => (d, .ok ())
  | p :: rest =>
    match d.makeDir p with
    | .error .notFound =>
      match d.ensureDirs rest with
      | (d, .ok ()) => d.ensureDir p
      | (d, .error fault) => (d, .error fault)
    | _ => d.ensureDir p

/-- Makes the directories above a path. -/
def ensureParent (d : Disk) (p : Path) : Disk × Except Fault Unit :=
  d.ensureDirs p.above

/-! ## Changes from outside -/

/-- Makes a link at a name that is free. -/
def link (d : Disk) (p target : Path) : Except Fault Disk :=
  match d.find p .entry with
  | .error fault => .error fault
  | .ok (.found _) => .error .exists
  | .ok (.missing dir name) => .ok (d.put (dir ++ [name]) (.link target))

/-- Removes what is at a path, with all that is below it. A link is not
followed. -/
def remove (d : Disk) (p : Path) : Except Fault Disk :=
  match d.find p .entry with
  | .error fault => .error fault
  | .ok (.missing ..) => .error .notFound
  | .ok (.found loc) =>
    match loc.getLast?, d.root.get? loc.dropLast with
    | some name, some (.dir entries) =>
      .ok (d.put loc.dropLast (.dir (entries.filter (·.1 != name))))
    | _, _ => .error .isADirectory

end Gloss.Disk
