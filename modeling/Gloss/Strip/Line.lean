import Gloss.Strip.Policy
import Gloss.Text.Lines
/-!
# Lines under reconstruction

Stripping rebuilds a text line by line. Of the line in progress a `Line` knows
the text up to its last literal (`guarded`), which no trimming may touch, the
text after it (`loose`), and whether a comment was taken out of the line
(`touched`). A `Build` is the finished lines and the line in progress.

Only touched lines are ever changed: their blanks before the terminator go, and
under the collapsing policy an empty one goes with its terminator
(`Line.close`).
-/

namespace Gloss

/-- A line of the output. Both parts are kept last character first. -/
structure Line where
  /-- Up to the end of the last literal. -/
  guarded : Text := []
  /-- After the last literal. -/
  loose : Text := []
  /-- A comment was taken out. -/
  touched : Bool := false
  deriving DecidableEq, Repr

namespace Line

/-- The line as it stands. -/
def text (l : Line) : Text := l.guarded.reverse ++ l.loose.reverse

/-- The last character. -/
def last? (l : Line) : Option Char := l.loose.head?.or l.guarded.head?

/-- The line with code behind it. -/
def add (l : Line) (s : Text) : Line := { l with loose := s.reverse ++ l.loose }

/-- The line with part of a literal behind it. -/
def addLiteral (l : Line) (s : Text) : Line :=
  { l with guarded := s.reverse ++ (l.loose ++ l.guarded), loose := [] }

/-- The line without the blanks after its last literal. -/
def trim (l : Line) : Line := { l with loose := l.loose.dropWhile Text.isPad }

def touch (l : Line) : Line := { l with touched := true }

/-- What the finished line comes to. -/
def close (policy : Policy) (l : Line) : Text :=
  if l.touched then
    let (body, terminator) := Text.splitTerminator l.text
    let n := l.guarded.length
    let body := body.take n ++ Text.dropEndWhile Text.isPad (body.drop n)
    if policy = .collapse ∧ body = [] then [] else body ++ terminator
  else l.text

@[simp] theorem text_add (l : Line) (s : Text) : (l.add s).text = l.text ++ s := by
  simp [add, text]

@[simp] theorem text_addLiteral (l : Line) (s : Text) : (l.addLiteral s).text = l.text ++ s := by
  simp [addLiteral, text]

end Line

/-- The finished lines, the latest first, and the line in progress. -/
structure Build where
  done : List Line := []
  line : Line := {}
  deriving DecidableEq, Repr

namespace Build

/-- Everything written so far. -/
def text (b : Build) : Text := (b.done.reverse.flatMap Line.text) ++ b.line.text

/-- The line in progress is finished. -/
def newLine (b : Build) : Build := { done := b.line :: b.done }

/-- One line of the source, or part of one, goes behind the line in progress. -/
def addPiece (b : Build) (literal : Bool) (piece : Text) : Build :=
  let b := { b with line := if literal then b.line.addLiteral piece else b.line.add piece }
  if Text.isTerminated piece then b.newLine else b

/-- Code or a literal is kept. -/
def keep (b : Build) (literal : Bool) (s : Text) : Build :=
  (Text.lines s).foldl (·.addPiece literal) b

/-- A line of a removed comment leaves its terminator, and the next line is
touched too. -/
def addBreak (b : Build) (piece : Text) : Build :=
  let b := { b with line := b.line.add (Text.splitTerminator piece).2 }.newLine
  { b with line := b.line.touch }

/-- A comment is taken out, with `next` after it. Blanks before it go if it ends
its line or runs over several. Its line breaks stay under the preserving policy;
otherwise one space stands for it where it was all that held two characters
apart. -/
def drop (policy : Policy) (b : Build) (comment : Text) (next : Option Char) : Build :=
  let breaks := comment.contains '\n'
  let line := b.line.touch
  let line := if next.all Text.isWhite || breaks then line.trim else line
  let b := { b with line }
  if policy = .preserve ∧ breaks then
    ((Text.lines comment).filter Text.isTerminated).foldl addBreak b
  else if Text.isSolid b.line.last? && Text.isSolid next then { b with line := b.line.add [' '] }
  else b

/-- The text of all lines. -/
def close (policy : Policy) (b : Build) : Text :=
  (b.line :: b.done).reverse.flatMap (Line.close policy)

end Build
end Gloss
