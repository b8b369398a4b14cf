import Gloss.Path
/-!
# Disks

A disk is a tree of files, links and directories, with a directory to work in.
A `Location` names a node by the directories above it, without dots and without
following links; a path leads to one (`Disk.find`).

A disk refuses what the tree, the path and the bytes rule out (`Fault`), and
nothing else. Left out is what a real disk refuses for other reasons: nodes have
no owner and no permissions, every directory may be written to, there is always
room, and any number of files may be open at once.
-/

namespace Gloss

/-- What is at a place of a disk. -/
inductive Node where
  | file (bytes : ByteArray)
  | link (target : Path)
  /-- Names and what they name, in no order that matters. -/
  | dir (entries : List (String × Node))

/-- The names from the root down to a node. -/
abbrev Location := List String

namespace Node

def empty : Node := .dir []

def isFile : Node → Bool
  | .file _ => true
  | _ => false

def isDir : Node → Bool
  | .dir _ => true
  | _ => false

/-- The node at a location below this one. -/
def get? : Node → Location → Option Node
  | n, [] => some n
  | .dir entries, name :: rest => (entries.lookup name).bind (get? · rest)
  | _, _ :: _ => none

/-- The entries of a directory with one exchanged or added. -/
def setEntry (entries : List (String × Node)) (name : String) (n : Node) : List (String × Node) :=
  match entries with
  | [] => [(name, n)]
  | (other, old) :: rest =>
    if name == other then (name, n) :: rest else (other, old) :: setEntry rest name n

/-- The tree with a node put at a location whose directory is there. -/
def put (new : Node) : Location → Node → Node
  | [], _ => new
  | [name], .dir entries => .dir (setEntry entries name new)
  | name :: rest, .dir entries =>
    match entries.lookup name with
    | some inner => .dir (setEntry entries name (put new rest inner))
    | none => .dir entries
  | _ :: _, n => n

end Node

/-- Why a disk refuses, as far as the tree, the path and the bytes say. -/
inductive Fault where
  | notFound
  | exists
  | notADirectory
  | isADirectory
  | tooManyLinks
  /-- A name or a whole path. -/
  | nameTooLong
  /-- A path holds the character that ends one. -/
  | endInside
  /-- The bytes are not UTF-8. -/
  | notText
  deriving DecidableEq, Repr

def Fault.message : Fault → String
  | .notFound => "No such file or directory (os error 2)"
  | .exists => "File exists (os error 17)"
  | .notADirectory => "Not a directory (os error 20)"
  | .isADirectory => "Is a directory (os error 21)"
  | .tooManyLinks => "Too many levels of symbolic links (os error 40)"
  | .nameTooLong => "File name too long (os error 36)"
  | .endInside => "file name contained an unexpected NUL byte"
  | .notText => "stream did not contain valid UTF-8"

structure Disk where
  root : Node
  /-- The directory that paths start from. -/
  here : Location := []

/-- Where a path leads. -/
inductive Place where
  /-- To a node. -/
  | found (location : Location)
  /-- To a name that is not there, in a directory that is. -/
  | missing (directory : Location) (name : String)
  deriving DecidableEq, Repr

/-- What a path is followed for. -/
inductive Goal where
  /-- The node it leads to. -/
  | node
  /-- The entry it names, also where that is a link. A slash at the end does not
  count. -/
  | entry
  /-- A file to write. No path with a slash at the end leads to one. -/
  | file
  deriving DecidableEq, Repr

/-- One move along a path. -/
inductive Move where
  | stay
  | up
  | down (name : String)
  /-- A slash at the end, which asks for a directory. -/
  | slash
  deriving DecidableEq, Repr

/-- The move for a part of a path, unless it is empty. -/
def Move.ofPart? (part : String) : Option Move :=
  if part = "" then none
  else if part = "." then some .stay
  else if part = ".." then some .up
  else some (.down part)

namespace Path

/-- The moves along a path without a slash at the end. -/
def moves (p : Path) : List Move := p.parts.filterMap Move.ofPart?

/-- The moves along a path. -/
def route (p : Path) : List Move := p.moves ++ if p.endsInSlash then [.slash] else []

/-- The path is not too long to be followed: it has at most 4095 bytes. -/
def fits (p : Path) : Bool := p.text.utf8ByteSize ≤ 4095

end Path

namespace Disk

/-- How many links may be followed on one way. -/
def maxLinks : Nat := 40

/-- How many bytes a name may have. -/
def maxName : Nat := 255

/-- Where moves lead from a location on. A link is followed, at the end too
unless the goal is an entry: `follow` says where its text leads from where it
stands, and what is left of the moves from there. -/
def walkWith (d : Disk) (goal : Goal) (follow : Path → Location → List Move → Except Fault Place)
    (loc : Location) : List Move → Except Fault Place
  | [] => .ok (.found loc)
  | move :: rest =>
    match d.root.get? loc with
    | some (.dir entries) =>
      match move with
      | .stay | .slash => d.walkWith goal follow loc rest
      | .up => d.walkWith goal follow loc.dropLast rest
      | .down name =>
        if goal = .file ∧ rest = [.slash] then .error .isADirectory
        else if maxName < name.utf8ByteSize then .error .nameTooLong
        else
          match entries.lookup name with
          | none => if rest = [] then .ok (.missing loc name) else .error .notFound
          | some (.link target) =>
            if rest = [] ∧ goal = .entry then .ok (.found (loc ++ [name]))
            else follow target loc rest
          | some _ => d.walkWith goal follow (loc ++ [name]) rest
    | some _ => .error .notADirectory
    | none => .error .notFound

/-- Where moves lead from a location on, with so many links to follow. -/
def walk (d : Disk) (goal : Goal) : Nat → Location → List Move → Except Fault Place
  | 0 => d.walkWith goal fun _ _ _ => .error .tooManyLinks
  | links + 1 => d.walkWith goal fun target loc rest =>
    if target.text = "" then .error .notFound
    else d.walk goal links (if target.isAbsolute then [] else loc) (target.route ++ rest)

/-- Where a path leads. -/
def find (d : Disk) (p : Path) (goal : Goal := .node) : Except Fault Place :=
  if p.text.toList.contains '\x00' then .error .endInside
  else if p.text = "" then .error .notFound
  else if !p.fits then .error .nameTooLong
  else
    d.walk goal maxLinks (if p.isAbsolute then [] else d.here)
      (if goal = .entry then p.moves else p.route)

end Disk
end Gloss
