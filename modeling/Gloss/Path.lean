import Gloss.Text.Basic
/-!
# Paths

A path is kept as it was written, for that is how it is shown. Its steps are
what it means: empty parts and single dots do not count, except for a dot in
front.
-/

namespace Gloss

structure Path where
  text : String
  deriving DecidableEq, Repr

namespace Path

/-- One step along a path. -/
inductive Step where
  | root
  /-- A dot in front. -/
  | here
  | up
  | name (s : String)
  deriving DecidableEq, Repr

/-- What stands between the slashes of a text. -/
def cut : Text → List Text
  | [] => [[]]
  | c :: s =>
    if c = '/' then [] :: cut s
    else match cut s with
      | [] => [[c]]
      | part :: parts => (c :: part) :: parts

def parts (p : Path) : List String := (cut p.text.toList).map String.ofList

def isAbsolute (p : Path) : Bool := p.text.toList.head? == some '/'

def endsInSlash (p : Path) : Bool := p.text.toList.getLast? == some '/'

/-- The step a part of a path stands for. -/
def step? (part : String) : Option Step :=
  if part = "" ∨ part = "." then none
  else if part = ".." then some .up
  else some (.name part)

/-- The steps of a path. Two paths with the same steps are the same path. -/
def steps (p : Path) : List Step :=
  let front := if p.isAbsolute then [.root] else if p.parts.head? = some "." then [.here] else []
  front ++ p.parts.filterMap step?

/-- The name at the end of the path. -/
def fileName? (p : Path) : Option String :=
  match p.steps.getLast? with
  | some (.name s) => some s
  | _ => none

/-- What follows the last dot of a name, unless nothing precedes it. -/
def extensionOf? (name : String) : Option String :=
  let tail := (name.toList.reverse.takeWhile (· != '.')).reverse
  if tail.length + 1 < name.length then some (String.ofList tail) else none

/-- Parts, the last one first, without those in front that do not count. A first
part always counts. -/
def dropIdle : List String → List String
  | [] => []
  | [first] => [first]
  | part :: rest => if part = "" ∨ part = "." then dropIdle rest else part :: rest

/-- The paths above one with these parts, the last part first. -/
def aboveParts : List String → List Path
  | [] => []
  | part :: rest =>
    let up := dropIdle rest
    if part = "" ∨ part = "." ∨ up = [] ∨ up = [""] then aboveParts rest
    else ⟨"/".intercalate up.reverse⟩ :: aboveParts rest

/-- The paths above a path as they are written in it, the longest first. The
root and the directory that paths start from are left out. -/
def above (p : Path) : List Path := aboveParts p.parts.reverse

/-- The extension of the name at the end of the path. -/
def extension? (p : Path) : Option String := p.fileName?.bind extensionOf?

/-- A path below another. -/
def join (p : Path) (below : String) : Path :=
  if p.text = "" ∨ p.endsInSlash then ⟨p.text ++ below⟩ else ⟨p.text ++ "/" ++ below⟩

end Path
end Gloss
